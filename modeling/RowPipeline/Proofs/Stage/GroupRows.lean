import RowPipeline.Host.Query
import RowPipeline.Method.Builtin
import RowPipeline.Proofs.Clause.RoundTrip
import RowPipeline.Proofs.Row.Reading
import RowPipeline.Proofs.Stage.Making
import RowPipeline.Proofs.Stage.Summarizing
import RowPipeline.Proofs.Value.Writing
import Mathlib.Data.List.Zip

namespace RowPipeline

namespace Group

variable {access : Access} {propagates : Bool} {properties : List PropertyPath} {rows : List Value} {row key : Value}
  {keys : List Value} {keyed : List (List Value × Value)} {g : Group} {p : PropertyPath}

-- The keys of a group are those of one of the rows.
theorem exists_readAll_keys
    (h : List.Forall₂ (fun row r => access.readAll row properties = .ok r.1 ∧ row = r.2) rows keyed)
    (hg : g ∈ ofRows keyed) : ∃ row ∈ rows, access.readAll row properties = .ok g.keys := by
  have ⟨r, hr, hk⟩ := Option.map_eq_some_iff.mp ((divides_of_readAll h).keys g hg)
  have ⟨row, hm, ha, _⟩ := exists_of_mem_right h r (List.mem_of_find?_eq_some hr)
  exact ⟨row, hm, hk ▸ ha⟩

-- A key can be found at its path, if the paths are apart from each other.
theorem at?_keyMembers (hn : p ≠ []) (hd : ∀ q ∈ properties, q <+: p ∨ p <+: q → q = p)
    (ha : access.readAll row properties = .ok keys) (hp : (p, key) ∈ properties.zip keys) :
    (Value.object (keyMembers properties keys)).at? p = some key := by
  have hk : ∀ q v, (q, v) ∈ properties.zip keys → access.read row q = .ok v :=
    fun q v hm => List.forall₂_zip (mapM_eq_ok.mp ha) hm
  rw [keyMembers_eq]
  refine Members.at?_setPaths hn hp fun (q, v) hm hc => ?_
  have hq : q = p := hd q (List.of_mem_zip hm).left hc
  have hv : v = key := Except.ok.inj ((hk q v hm).symm.trans (hq ▸ hk p key hp))
  rw [hq, hv]

end Group

namespace Summary

variable {registry : Registry}

theorem outputs_of_ofAggregates {aggregates : List Aggregate} {summaries : List Summary}
    (h : ofAggregates registry aggregates = .ok summaries) :
    summaries.map output = aggregates.map Aggregate.output := by
  rw [← List.forall₂_eq_eq_eq, List.forall₂_map_left_iff, List.forall₂_map_right_iff]
  exact (mapM_eq_ok.mp h).flip.imp fun _ _ => output_of_ofAggregate

theorem ofAggregates_append {before after : List Aggregate} {summaries : List Summary} :
    ofAggregates registry (before ++ after) = .ok summaries ↔ ∃ sb sa, ofAggregates registry before = .ok sb ∧
      ofAggregates registry after = .ok sa ∧ sb ++ sa = summaries := by
  simp only [ofAggregates, List.mapM_append, bind_eq_ok, pure_eq_ok]
  constructor
  case mp => exact fun ⟨sb, hb, sa, ha, he⟩ => ⟨sb, sa, hb, ha, he⟩
  case mpr => exact fun ⟨sb, sa, hb, ha, he⟩ => ⟨sb, hb, sa, ha, he⟩

end Summary

namespace Clause

variable {registry : Registry} {properties : List PropertyPath} {rows out : List Value}

theorem makes_groupBy_iff {access : Access} {aggregates : Option (List Aggregate)} :
    Makes access registry [.groupBy properties aggregates] rows out ↔
      ∃ summaries keyed, Summary.ofAggregates registry (aggregates.getD []) = .ok summaries ∧
        List.Forall₂ (fun row r => access.readAll row properties = .ok r.1 ∧ row = r.2) rows keyed ∧
        List.Forall₂ (Stage.Summarizes properties summaries access) (Group.ofRows keyed) out := by
  have hr : ∀ summaries, Stage.groupRows properties summaries access rows = .ok out ↔
      ∃ keyed, List.Forall₂ (fun row r => access.readAll row properties = .ok r.1 ∧ row = r.2) rows keyed ∧
        List.Forall₂ (Stage.Summarizes properties summaries access) (Group.ofRows keyed) out := by
    intro summaries
    rw [Stage.groupRows, bind_eq_ok]
    simp only [Stage.keyed_eq_ok]
    simp only [mapM_eq_ok, Stage.summarize_keyMembers]
  simp only [makes_groupBy, hr]
  constructor
  case mp =>
    rintro ⟨summaries, hs, keyed, hk, ho⟩
    exact ⟨summaries, keyed, hs, hk, ho⟩
  case mpr =>
    rintro ⟨summaries, keyed, hs, hk, ho⟩
    exact ⟨summaries, hs, keyed, hk, ho⟩

-- What can be read in the row of a group.
structure ReadsBack (access : Access) (registry : Registry) (properties : List PropertyPath)
    (aggregates : List Aggregate) (g : Group) (row : Value) : Prop where
  -- The keys, but for those under a name that an aggregate is written to.
  key : ∀ p k, (p, k) ∈ properties.zip g.keys → (∀ a ∈ aggregates, p.head? ≠ some a.output) → access.read row p = .ok k
  -- The values of the aggregates over the members, of several with one name that of the last.
  output : ∀ before a after, aggregates = before ++ a :: after → (∀ b ∈ after, b.output ≠ a.output) →
    ∃ value, Makes access registry [.aggregate [a]] g.members [.object [(a.output, value)]] ∧
      access.read row [a.output] = .ok value

end Clause

namespace Stage

variable {propagates : Bool} {registry : Registry} {properties : List PropertyPath} {aggregates : List Aggregate}
  {summaries : List Summary} {g : Group} {row : Value}

theorem readsBack_of_summarizes {source : Value} (hn : ∀ p ∈ properties, p ≠ [])
    (hd : ∀ p ∈ properties, ∀ q ∈ properties, p <+: q → p = q)
    (ha : (⟨.exact, propagates⟩ : Access).readAll source properties = .ok g.keys)
    (hs : Summary.ofAggregates registry aggregates = .ok summaries)
    (h : Summarizes properties summaries ⟨.exact, propagates⟩ g row) :
    Clause.ReadsBack ⟨.exact, propagates⟩ registry properties aggregates g row := by
  obtain ⟨_, own, hkeys, hw, rfl⟩ := h
  cases Group.holdsKeys_iff.mp hkeys
  have hw := run_aggregate.mp hw
  have ho : Members.Ordered own := Summary.ordered_writeAll List.Pairwise.nil hw
  constructor
  case key =>
    intro p k hp hh
    have hm := (List.of_mem_zip hp).left
    have hk : (Value.object (Group.keyMembers properties g.keys)).at? p = some k :=
      Group.at?_keyMembers (hn p hm) (fun q hq hc => hc.elim (hd q hq p hm) fun hc => (hd p hm q hq hc).symm) ha hp
    apply Access.read_of_at?
    cases p with
    | nil => exact absurd rfl (hn _ hm)
    | cons name rest =>
      have hf : name ∉ summaries.map Summary.output := by
        rw [Summary.outputs_of_ofAggregates hs]
        intro hf
        obtain ⟨a, ha, he⟩ := List.mem_map.mp hf
        exact hh a ha (congrArg some he.symm)
      have hg : Members.get? own name = none := (Summary.get?_writeAll_of_not_mem hw hf).trans rfl
      rwa [Value.at?_cons, Value.members, Members.get?_overlay ho, hg, Option.none_or]
  case output =>
    rintro before a after rfl hl
    obtain ⟨_, _, _, hc, rfl⟩ := Summary.ofAggregates_append.mp hs
    obtain ⟨s, later, hsa, hla, rfl⟩ := List.forall₂_cons_left_iff.mp (mapM_eq_ok.mp hc)
    have hf : s.output ∉ later.map Summary.output := by
      rw [Summary.outputs_of_ofAggregates (mapM_eq_ok.mpr hla), Summary.output_of_ofAggregate hsa]
      intro hf
      obtain ⟨b, hb, he⟩ := List.mem_map.mp hf
      exact hl b hb he
    obtain ⟨value, hv, hg⟩ := Summary.get?_writeAll_of_last hw hf
    refine ⟨value, Clause.makes_aggregate_alone hsa hv, Access.read_of_at? ?_⟩
    rw [Summary.output_of_ofAggregate hsa] at hg
    rw [Value.at?_cons, Value.members, Members.get?_overlay ho, hg]
    rfl

end Stage

namespace Clause

variable {registry : Registry} {rows out : List Value}

-- A row of a grouping has lost nothing but keys under the name of an aggregate, and aggregates with the name of a
-- later one.
theorem groupBy_reads_back {binding : Option Binding} {text : String} {clause : Clause}
    {properties : List PropertyPath} {aggregates : Option (List Aggregate)} {handling : NullHandling}
    (hp : parse binding text = .ok clause) (ht : .groupBy properties aggregates ∈ walk clause)
    (hd : ∀ p ∈ properties, ∀ q ∈ properties, p <+: q → p = q)
    (h : ∃ stages, Stage.ofClause [.groupBy properties aggregates] .exact ⟨handling⟩ registry = .ok stages ∧
      ((Query.ofRows rows).compose stages).execute = .ok out) :
    let access : Access := ⟨.exact, Settings.propagatesNulls ⟨handling⟩⟩
    ∃ keyed, List.Forall₂ (fun row r => access.readAll row properties = .ok r.1 ∧ row = r.2) rows keyed ∧
      Group.Divides keyed (Group.ofRows keyed) ∧
      List.Forall₂ (ReadsBack access registry properties (aggregates.getD [])) (Group.ofRows keyed) out := by
  intro access
  have hm : Makes access registry [.groupBy properties aggregates] rows out := h
  have ⟨summaries, keyed, hs, hk, ho⟩ := makes_groupBy_iff.mp hm
  have hn : ∀ p ∈ properties, p ≠ [] := fun p hm => (((wellFormed_of_parse hp).right _ ht).left.right p hm).left
  refine ⟨keyed, hk, Group.divides_of_readAll hk, ?_⟩
  rw [List.forall₂_iff_zip] at ho ⊢
  refine ⟨ho.left, fun {g row} hz => ?_⟩
  have ⟨source, _, ha⟩ := Group.exists_readAll_keys hk (List.of_mem_zip hz).left
  exact Stage.readsBack_of_summarizes hn hd ha hs (ho.right hz)

theorem parse_groupBy {properties : List PropertyPath} {aggregates : Option (List Aggregate)}
    (hw : (Transformation.groupBy properties aggregates).WellFormed) :
    parse none (render [.groupBy properties aggregates] fun _ => " ") = .ok [.groupBy properties aggregates] := by
  refine parse_render ⟨List.cons_ne_nil _ _, forall_mem_walk_singleton.mpr ⟨hw, nofun⟩⟩ ?_ isSpacing_blank
  exact forall_mem_walk_singleton.mpr ⟨nofun, nofun⟩

-- One key and one of the aggregates are written over.
theorem groupBy_reads_back_overwritten :
    let text := " groupby ( ( A/B , C ) , aggregate ( $count as C , D with max as N , $count as N ) ) "
    let properties : List PropertyPath := [["A", "B"], ["C"]]
    let aggregates : List Aggregate := [.count "C", .property ["D"] "max" "N", .count "N"]
    let row (b d : Value) : Value := .object [("A", .object [("B", b)]), ("C", .string "x"), ("D", d)]
    let result (b : Value) : Value := .object [("A", .object [("B", b)]), ("C", .int 1), ("N", .int 1)]
    let rows := [row (.int 1) (.int 5), row .null (.int 7)]
    let out := [result (.int 1), result .null]
    parse none text = .ok [.groupBy properties (some aggregates)] ∧
      (∀ p ∈ properties, ∀ q ∈ properties, p <+: q → p = q) ∧
      (∃ stages, Stage.ofClause [.groupBy properties (some aggregates)] .exact ⟨.refuse⟩ .builtins = .ok stages ∧
        ((Query.ofRows rows).compose stages).execute = .ok out) ∧
      ∃ keyed, List.Forall₂ (fun row r => Access.readAll ⟨.exact, false⟩ row properties = .ok r.1 ∧ row = r.2) rows keyed ∧
        Group.Divides keyed (Group.ofRows keyed) ∧
        List.Forall₂ (ReadsBack ⟨.exact, false⟩ .builtins properties aggregates) (Group.ofRows keyed) out := by
  intro text properties aggregates row result rows out
  have hp : parse none text = .ok [.groupBy properties (some aggregates)] := by
    have ht : render [.groupBy properties (some aggregates)] (fun _ => " ") = text := rfl
    have hq : IsQualifiedName "max" := ⟨["max"], by decide, by decide, rfl⟩
    have hi : IsIdentifier "A" ∧ IsIdentifier "B" ∧ IsIdentifier "C" ∧ IsIdentifier "D" ∧ IsIdentifier "N" := by decide
    rw [← ht]
    apply parse_groupBy
    simp [properties, aggregates, Transformation.WellFormed, Aggregate.WellFormed, PropertyPath.WellFormed, hq, hi]
  have hd : ∀ p ∈ properties, ∀ q ∈ properties, p <+: q → p = q := by decide
  have h : ∃ stages, Stage.ofClause [.groupBy properties (some aggregates)] .exact ⟨.refuse⟩ .builtins = .ok stages ∧
      ((Query.ofRows rows).compose stages).execute = .ok out := ⟨_, rfl, rfl⟩
  exact ⟨hp, hd, h, groupBy_reads_back hp List.mem_cons_self hd h⟩

-- The key is 5 and reads as the number of rows. The number of rows is 1 and reads as the greatest member.
theorem not_groupBy_reads_back :
    let row : Value := .object [("A", .int 5)]
    let access : Access := ⟨.exact, true⟩
    let counted : Transformation := .groupBy [["A"]] (some [.count "A"])
    let twice : Transformation := .groupBy [["A"]] (some [.count "N", .property ["A"] "max" "N"])
    (∃ result, parse none " groupby ( ( A ) , aggregate ( $count as A ) ) " = .ok [counted] ∧
      Makes access .builtins [counted] [row] [result] ∧
      access.readAll row [["A"]] = .ok [.int 5] ∧ access.read result ["A"] = .ok (.int 1)) ∧
    ∃ result, parse none " groupby ( ( A ) , aggregate ( $count as N , A with max as N ) ) " = .ok [twice] ∧
      Makes access .builtins [twice] [row] [result] ∧
      Makes access .builtins [.aggregate [.count "N"]] [row] [.object [("N", .int 1)]] ∧
      access.read result ["N"] = .ok (.int 5) := by
  intro row access counted twice
  have hq : IsQualifiedName "max" := ⟨["max"], by decide, by decide, rfl⟩
  have hi : IsIdentifier "A" ∧ IsIdentifier "N" := by decide
  constructor
  case left =>
    have ht : render [counted] (fun _ => " ") = " groupby ( ( A ) , aggregate ( $count as A ) ) " := rfl
    refine ⟨.object [("A", .int 1)], ?_, ⟨_, rfl, rfl⟩, rfl, rfl⟩
    rw [← ht]
    apply parse_groupBy
    simp [Transformation.WellFormed, Aggregate.WellFormed, PropertyPath.WellFormed, hi]
  case right =>
    have ht : render [twice] (fun _ => " ") = " groupby ( ( A ) , aggregate ( $count as N , A with max as N ) ) " := rfl
    refine ⟨.object [("A", .int 5), ("N", .int 5)], ?_, ⟨_, rfl, rfl⟩, ⟨_, rfl, rfl⟩, rfl⟩
    rw [← ht]
    apply parse_groupBy
    simp [Transformation.WellFormed, Aggregate.WellFormed, PropertyPath.WellFormed, hq, hi]

end Clause
end RowPipeline
