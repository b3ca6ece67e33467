import Mathlib
import RowPipeline.Proofs.Stage.Selection

namespace RowPipeline

open PropertyPath

namespace Transformation

-- What comes out depends on the values of the rows, or is limited.
def Withholds : Transformation → Prop
  | filter _ | top _ => True
  | _ => False

def Passes (t : Transformation) : Prop :=
  t.WellFormed ∧ ¬t.Reshapes ∧ ¬t.Withholds

def skipped : Transformation → Nat
  | skip count => count
  | _ => 0

end Transformation

namespace Clause

open Transformation

variable {t : Transformation} {ts : Clause} {rows mid out : List Value} {registry : Registry} {P : Value → Bool}

-- The most rows that a clause without filters and limits drops.
def skipped (clause : Clause) : Nat :=
  ((walk clause).map Transformation.skipped).sum

theorem skipped_append (as bs : Clause) : skipped (as ++ bs) = skipped as + skipped bs := by
  simp [skipped, walk_append]

theorem skipped_cons (t : Transformation) (ts : Clause) : skipped (t :: ts) = skipped [t] + skipped ts :=
  skipped_append [t] ts

theorem skipped_le_of_mem_branches {b : Clause} (h : b ∈ t.branches) : skipped b ≤ skipped [t] := by
  obtain ⟨first, last, hb⟩ := List.append_of_mem h
  simp only [skipped, walk, walkInside_eq_flatMap, hb, List.flatMap_append, List.flatMap_cons, List.map_cons,
    List.map_append, List.sum_cons, List.sum_append]
  omega

theorem countP_le_of_forall₂ {Q : Value → Bool} (h : List.Forall₂ (fun row row' => P row → Q row') rows out) :
    rows.countP P ≤ out.countP Q := by
  induction h with
  | nil => exact Nat.le_refl 0
  | @cons row row' rows out hq _ ih =>
    rw [List.countP_cons, List.countP_cons]
    by_cases hp : P row
    case pos => rw [if_pos hp, if_pos (hq hp)]; omega
    case neg => rw [if_neg hp]; omega

theorem countP_le_countP_drop (n : Nat) : rows.countP P ≤ (rows.drop n).countP P + n := by
  have hc : rows.countP P = (rows.take n).countP P + (rows.drop n).countP P := by
    rw [← List.countP_append, List.take_append_drop]
  have ht : (rows.take n).countP P ≤ n := List.countP_le_length.trans (List.length_take_le n rows)
  omega

-- What holds of a row holds of its projections.
def Kept (P : Value → Bool) : Prop :=
  ∀ ⦃row ps ms⦄, (∀ p ∈ ps, p ≠ []) → Stage.project .strict row ps [] = .ok ms → P row → P (.object ms)

theorem countP_le_step (hp : t.Passes) (hk : Kept P)
    (hb : ∀ b ∈ t.branches, ∀ out, Makes .strict registry b rows out → rows.countP P ≤ out.countP P + skipped b)
    (hm : Makes .strict registry [t] rows out) : rows.countP P ≤ out.countP P + skipped [t] := by
  obtain ⟨hw, hr, hh⟩ := hp
  cases t with
  | aggregate => exact absurd .aggregate hr
  | groupBy => exact absurd .groupBy hr
  | filter | top => exact absurd trivial hh
  | select ps =>
    refine Nat.le_add_right_of_le (countP_le_of_forall₂ ((makes_select.mp hm).imp ?_))
    rintro row _ ⟨ms, hms, rfl⟩
    exact hk (fun p hp => (hw.right p hp).left) hms
  | orderBy items =>
    refine Nat.le_add_right_of_le (Nat.le_of_eq ?_)
    exact (Stage.perm_of_sortRows (makes_orderBy.mp hm)).symm.countP_eq P
  | skip count =>
    cases makes_skip.mp hm
    exact countP_le_countP_drop count
  | concat branches =>
    obtain ⟨outs, ho, rfl⟩ := makes_concat.mp hm
    cases ho with
    | nil => exact absurd hw.left (by decide)
    | @cons b out bs outs hf ho =>
      have hc := hb b List.mem_cons_self out hf
      have hs : skipped b ≤ skipped [.concat (b :: bs)] :=
        skipped_le_of_mem_branches (t := .concat (b :: bs)) List.mem_cons_self
      rw [List.flatten_cons, List.countP_append]
      omega
  | identity =>
    cases makes_identity.mp hm
    exact Nat.le_add_right _ _

theorem countP_le {clause : Clause} (hp : ∀ t ∈ walk clause, t.Passes) (hk : Kept P)
    (hm : Makes .strict registry clause rows out) : rows.countP P ≤ out.countP P + skipped clause := by
  induction clause using forall_induction generalizing rows out with
  | nil =>
    cases makes_nil.mp hm
    exact Nat.le_add_right _ _
  | cons t ts branches rest =>
    obtain ⟨ht, hb, hts⟩ := forall_mem_walk_cons.mp hp
    obtain ⟨mid, hm, hr⟩ := makes_cons.mp hm
    have hfirst := countP_le_step ht hk (fun b hm _ => branches b hm (hb b hm)) hm
    have hrest := rest hts hr
    rw [skipped_cons]
    omega

theorem length_le {clause : Clause} (hp : ∀ t ∈ walk clause, t.Passes)
    (hm : Makes .strict registry clause rows out) : rows.length ≤ out.length + skipped clause := by
  have hc := countP_le (P := fun _ => true) hp (fun _ _ _ _ _ _ => rfl) hm
  rwa [List.countP_true] at hc

variable {ps : List PropertyPath} {q : PropertyPath}

-- There is nothing in which the last name could be looked up.
def lacks (q : PropertyPath) (row : Value) : Bool :=
  !row.reaches q.dropLast

theorem kept_lacks (hq : q.dropLast ≠ []) : Kept (lacks q) := by
  intro row ps ms hps hms hl
  rw [lacks, Bool.not_eq_true'] at hl ⊢
  rw [← Bool.not_eq_true, Stage.reaches_project hms hps hq, hl]
  simp

theorem lacks_project {row : Value} {ms : Members} (hps : ∀ p ∈ ps, p ≠ [])
    (hms : Stage.project .strict row ps [] = .ok ms) (hc : ¬Covers ps q) : lacks q (.object ms) := by
  have hq : q.dropLast ≠ [] := fun hq => hc (.inl hq)
  rw [lacks, Bool.not_eq_true', ← Bool.not_eq_true, Stage.reaches_project hms hps hq]
  exact fun h => hc h.left

theorem not_reads_of_lacks {row : Value} (hq : q.dropLast ≠ []) (h : lacks q row) : ¬row.Reads q := by
  have hne : q ≠ [] := by rintro rfl; exact hq rfl
  rw [lacks, Bool.not_eq_true'] at h
  simp [Value.reads_iff, hne, h]

-- After a projection all rows lack what it does not cover.
theorem length_le_of_selected {clause : Clause} (hp : ∀ t ∈ walk clause, t.Passes) (hs : .select ps ∈ walk clause)
    (hc : ¬Covers ps q) (hm : Makes .strict registry clause rows out) :
    rows.length ≤ out.countP (lacks q) + skipped clause := by
  have hk : Kept (lacks q) := kept_lacks fun hq => hc (.inl hq)
  induction clause using forall_induction generalizing rows out with
  | nil => cases hs
  | cons t ts branches rest =>
    obtain ⟨ht, hb, hts⟩ := forall_mem_walk_cons.mp hp
    obtain ⟨mid, hm, hr⟩ := makes_cons.mp hm
    rw [skipped_cons]
    rcases mem_walk_cons.mp hs with rfl | ⟨b, hbt, hsb⟩ | hst
    case inl =>
      have hl : rows.countP (fun _ => true) ≤ mid.countP (lacks q) := by
        refine countP_le_of_forall₂ ((makes_select.mp hm).imp ?_)
        rintro row _ ⟨ms, hms, rfl⟩ -
        exact lacks_project (fun p hp => (ht.left.right p hp).left) hms hc
      have hrest := countP_le hts hk hr
      rw [List.countP_true] at hl
      omega
    case inr.inl =>
      have hrest := countP_le hts hk hr
      have hsk := skipped_le_of_mem_branches hbt
      cases t with
      | concat bs =>
        obtain ⟨outs, ho, rfl⟩ := makes_concat.mp hm
        obtain ⟨o, hom, hob⟩ := exists_of_mem_left ho b hbt
        have hbranch := branches b hbt (hb b hbt) hsb hob
        have hsub : o.countP (lacks q) ≤ _ := (List.sublist_flatten_of_mem hom).countP_le
        omega
      | _ => cases hbt
    case inr.inr =>
      have hfirst := length_le (forall_mem_walk_singleton.mpr ⟨ht, hb⟩) hm
      have hrest := rest hts hst hr
      omega

theorem reads_of_step (ht : t.Passes) (hq : q ∈ t.paths) (hm : Makes .strict registry [t] rows out) :
    ∀ row ∈ rows, row.Reads q := by
  obtain ⟨-, hr, hh⟩ := ht
  intro row hrow
  cases t with
  | aggregate => exact absurd .aggregate hr
  | groupBy => exact absurd .groupBy hr
  | filter => exact absurd trivial hh
  | select ps =>
    obtain ⟨_, -, ms, hms, -⟩ := exists_of_mem_left (makes_select.mp hm) row hrow
    exact Stage.reads_of_project hms q hq
  | orderBy items =>
    exact exists_mapM_eq_ok.mp (Stage.exists_readAll_of_sortRows (makes_orderBy.mp hm) row hrow) q hq
  | top | skip | concat | identity => cases hq

-- No row that lacks a path gets to a step that reads it.
theorem countP_lacks_le {clause : Clause} (hp : ∀ t ∈ walk clause, t.Passes) (hq : q.dropLast ≠ [])
    (ht : t ∈ walk clause) (hqt : q ∈ t.paths) (hm : Makes .strict registry clause rows out) :
    rows.countP (lacks q) ≤ skipped clause := by
  induction clause using forall_induction generalizing rows out with
  | nil => cases ht
  | cons u us branches rest =>
    obtain ⟨hu, hb, hus⟩ := forall_mem_walk_cons.mp hp
    obtain ⟨mid, hm, hr⟩ := makes_cons.mp hm
    rw [skipped_cons]
    rcases mem_walk_cons.mp ht with rfl | ⟨b, hbu, htb⟩ | htu
    case inl =>
      have hz : rows.countP (lacks q) = 0 :=
        List.countP_eq_zero.mpr fun row hrow hl => not_reads_of_lacks hq hl (reads_of_step hu hqt hm row hrow)
      omega
    case inr.inl =>
      have hsk := skipped_le_of_mem_branches hbu
      cases u with
      | concat bs =>
        obtain ⟨outs, ho, -⟩ := makes_concat.mp hm
        obtain ⟨o, -, hob⟩ := exists_of_mem_left ho b hbu
        have hbranch := branches b hbu (hb b hbu) htb hob
        omega
      | _ => cases hbu
    case inr.inr =>
      have hfirst := countP_le (forall_mem_walk_singleton.mpr ⟨hu, hb⟩) (kept_lacks hq) hm
      have hrest := rest hus htu hr
      omega

theorem length_le_of_selectedBefore {clause : Clause} (hp : ∀ t ∈ walk clause, t.Passes)
    (hs : SelectedBefore ps q clause) (hc : ¬Covers ps q) (hm : Makes .strict registry clause rows out) :
    rows.length ≤ skipped clause := by
  induction hs generalizing rows out with
  | @sequence before after t hb ha hqt =>
    rw [walk_append] at hp
    obtain ⟨hpb, hpa⟩ := List.forall_mem_append.mp hp
    obtain ⟨mid, hm, hr⟩ := makes_append.mp hm
    have hfirst := length_le_of_selected hpb hb hc hm
    have hrest := countP_lacks_le hpa (fun hq => hc (.inl hq)) ha hqt hr
    rw [skipped_append]
    omega
  | @branch before branches b after hb _ ih =>
    rw [walk_append] at hp
    obtain ⟨hpb, hpa⟩ := List.forall_mem_append.mp hp
    obtain ⟨mid, hm, hr⟩ := makes_append.mp hm
    obtain ⟨_, hr, -⟩ := makes_cons.mp hr
    obtain ⟨outs, ho, -⟩ := makes_concat.mp hr
    obtain ⟨o, -, hob⟩ := exists_of_mem_left ho b hb
    have hfirst := length_le hpb hm
    have hbranch := ih ((forall_mem_walk_cons.mp hpa).right.left b hb) hob
    have hsk := skipped_le_of_mem_branches (t := .concat branches) hb
    rw [skipped_append, skipped_cons]
    omega

-- The clause compiles, and runs on all rows on which its paths can be read. It is only a sorting that may break off,
-- where many rows have keys that rounding confounds.
def Safe (clause : Clause) : Prop :=
  ∀ registry rows, ReadableOn clause rows → ∃ stages, Stage.ofClause clause .exact ⟨.refuse⟩ registry = .ok stages ∧
    ((∃ out, ((Query.ofRows rows).compose stages).execute = .ok out) ∨
      ((Query.ofRows rows).compose stages).execute = .error .orderNotTotal ∧ Stage.Disordered .strict stages rows)

theorem numberless_key {item : OrderItem} {row : Value} (h : row.Numberless) : (item.key .strict row).Numberless := by
  rw [OrderItem.key]
  split
  case h_1 value hv => exact h.read hv
  case h_2 => exact Value.numberless_null

-- There is nothing to confound where there are no numbers.
theorem not_disordered {clause : Clause} {stages : List Stage} (hk : ∀ t ∈ walk clause, ¬t.Reshapes)
    (hs : Stage.compileAll .strict registry clause = .ok stages) (hr : ∀ row ∈ rows, row.Numberless) :
    ¬Stage.Disordered .strict stages rows := by
  rintro ⟨items, input, hrec, -, item, -, a, ha, -, -, -, -, m, -, hm, -⟩
  obtain ⟨t, hg, -⟩ := hrec.exists_gets hs
  obtain ⟨row, hrow, hkeep⟩ : ∃ row ∈ rows, row.Numberless → a.Numberless := by
    refine hg.exists_source (R := fun a b => a.Numberless → b.Numberless) (fun _ => id) (fun h h' => h' ∘ h) hk ?_ a ha
    intro ps _ row ms hms hn
    exact Stage.numberless_project hms hn Value.numberless_empty
  have hn : ¬(item.key .strict a).isNumber := numberless_key (hkeep (hr row hrow)) [] _ rfl
  rw [(Value.int64?_eq_some.mp hm).left] at hn
  exact hn rfl

theorem selectsCover_of_safe {clause : Clause} (hp : ∀ t ∈ walk clause, t.Passes) (hs : Safe clause) :
    SelectsCover clause := by
  intro ps q hb
  by_contra hc
  obtain ⟨row, hn, hr⟩ := Value.exists_reads ((walk clause).flatMap Transformation.paths)
  -- One row more than the clause can skip.
  have hreads : ReadableOn clause (List.replicate (skipped clause + 1) row) := by
    intro row' hr' t ht q hq
    cases List.eq_of_mem_replicate hr'
    exact hr q (List.mem_flatMap.mpr ⟨t, ht, hq⟩)
  obtain ⟨stages, hc', ⟨out, ho⟩ | ⟨-, hd⟩⟩ := hs .empty _ hreads
  case inl =>
    have hm : Makes .strict .empty clause (List.replicate (skipped clause + 1) row) out := ⟨stages, hc', ho⟩
    have hl := length_le_of_selectedBefore hp hb hc hm
    rw [List.length_replicate] at hl
    omega
  case inr =>
    refine not_disordered (fun t ht => (hp t ht).right.left) hc' (fun row' hr' => ?_) hd
    rwa [List.eq_of_mem_replicate hr']

-- What a parser with a binding accepts does not always run on rows of the bound type. It does if no projection
-- takes away what is read later, and without filters and limits only then.
theorem safe_of_parse_bound {binding : Binding} {s : String} {clause : Clause}
    (h : Clause.parse (some binding) s = .ok clause) (hk : ∀ t ∈ walk clause, ¬t.Reshapes) :
    (SelectsCover clause → Safe clause) ∧
      ((∀ t ∈ walk clause, ¬t.Withholds) → Safe clause → SelectsCover clause) := by
  have hw := (wellFormed_of_parse h).right
  constructor
  case left => exact fun hc registry rows hr => exists_execute hw hk hc hr
  case right => exact fun hh => selectsCover_of_safe fun t ht => ⟨hw t ht, hk t ht, hh t ht⟩

-- A type with a primitive property `A`, and with a property `B` that has a property `C`.
def nested : Binding where
  model    := Model.empty
    |>.addType ⟨"T", .entity, none, [.plain "A" "Int", .plain "B" "U"]⟩
    |>.addType ⟨"U", .complex, none, [.plain "C" "Int"]⟩
  typeName := "T"

theorem safe_of_parse_bound_select_skip : ∃ clause,
    Clause.parse (some nested) "select(A,B/C)/skip(1)/orderby(B/C)" = .ok clause ∧ Safe clause := by
  have hp : Clause.parse (some nested) "select(A,B/C)/skip(1)/orderby(B/C)" =
      .ok [.select [["A"], ["B", "C"]], .skip 1, .orderBy [⟨["B", "C"], .ascending⟩]] := by cbv
  refine ⟨_, hp, (safe_of_parse_bound hp ?_).left ?_⟩
  case refine_1 => simp [walk, walkInside, ← reshapes_iff, reshapes]
  case refine_2 =>
    have hc : Covers [["A"], ["B", "C"]] ["B", "C"] := by decide
    simpa [selectsCover_cons, selectsCover_nil, walk, walkInside, Transformation.paths,
      Transformation.branches] using hc

-- The order needs `B`, which the projection has not kept.
theorem not_safe_of_parse_bound_select : ∃ clause,
    Clause.parse (some nested) "select(A)/orderby(B/C)" = .ok clause ∧ (∀ t ∈ walk clause, ¬t.Reshapes) ∧
      ∃ row, ReadableOn clause [row] ∧ ∃ stages, Stage.ofClause clause .exact ⟨.refuse⟩ .empty = .ok stages ∧
        ((Query.ofRows [row]).compose stages).execute = .error (.memberNotFound "B" ["B", "C"]) := by
  refine ⟨[.select [["A"]], .orderBy [⟨["B", "C"], .ascending⟩]], by cbv, ?_, ?_⟩
  case refine_1 => simp [walk, walkInside, ← reshapes_iff, reshapes]
  case refine_2 =>
    refine ⟨.object [("A", .int 1), ("B", .object [("C", .int 1)])], ?_, _, rfl, by cbv⟩
    have hr : ∀ q ∈ [["A"], ["B", "C"]], q ≠ [] →
        (Value.object [("A", .int 1), ("B", .object [("C", .int 1)])]).reaches q.dropLast := by decide
    simpa [ReadableOn, walk, walkInside, Transformation.paths, Value.reads_iff] using hr

end Clause
end RowPipeline
