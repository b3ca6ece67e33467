import RowPipeline.Method.Builtin
import RowPipeline.Proofs.Stage.Distinctness
import Mathlib.Data.Finset.Card

namespace RowPipeline

section Distinct

variable {α β : Type} [BEq α] [LawfulBEq α] [BEq β] [LawfulBEq β] [DecidableEq α] [DecidableEq β]

theorem length_eraseDups (xs : List α) : xs.eraseDups.length = xs.toFinset.card := by
  rw [← List.toFinset_card_of_nodup (Group.nodup_eraseDups xs)]
  congr 1
  ext x
  rw [List.mem_toFinset, List.mem_toFinset, List.mem_eraseDups]

theorem length_eraseDups_map {f : α → β} (hf : Function.Injective f) (xs : List α) :
    (xs.map f).eraseDups.length = xs.eraseDups.length := by
  have hm : (xs.map f).toFinset = xs.toFinset.image f := by
    ext y
    simp
  rw [length_eraseDups, length_eraseDups, hm, Finset.card_image_of_injective _ hf]

end Distinct

namespace Method

open Value

variable {values : List Value} {v : Value}

theorem mem_nonNull : v ∈ nonNull values ↔ v ∈ values ∧ ¬v.isNull := by
  simp [nonNull]

-- Null is one more value, and no other one has its fingerprint.
theorem length_distinct_of_mem_null (h : Value.null ∈ values) : (values.map fingerprint).eraseDups.length =
    ((nonNull values).map fingerprint).eraseDups.length + 1 := by
  have hs : (values.map fingerprint).toFinset =
      insert null.fingerprint ((nonNull values).map fingerprint).toFinset := by
    ext s
    simp only [Finset.mem_insert, List.mem_toFinset, List.mem_map, mem_nonNull]
    constructor
    case mp =>
      rintro ⟨v, hv, rfl⟩
      exact or_iff_not_imp_left.mpr fun hn => ⟨v, ⟨hv, mt fingerprint_eq_null.mpr hn⟩, rfl⟩
    case mpr =>
      rintro (rfl | ⟨v, ⟨hv, -⟩, rfl⟩)
      case inl => exact ⟨null, h, rfl⟩
      case inr => exact ⟨v, hv, rfl⟩
  have hn : null.fingerprint ∉ ((nonNull values).map fingerprint).toFinset := by
    simp only [List.mem_toFinset, List.mem_map, mem_nonNull, not_exists, not_and, and_imp]
    exact fun v _ hn hf => hn (fingerprint_eq_null.mp hf)
  rw [length_eraseDups, length_eraseDups, hs, Finset.card_insert_of_notMem hn]

theorem nonNull_of_not_mem (h : Value.null ∉ values) : nonNull values = values := by
  refine List.filter_eq_self.mpr fun v hv => ?_
  simpa using fun hn => h (isNull_iff.mp hn ▸ hv)

end Method

namespace Group

variable {access : Access} {path : PropertyPath} {rows values : List Value} {keyed : List (List Value × Value)}

theorem exists_keyed (h : List.Forall₂ (fun row v => access.read row path = .ok v) rows values) :
    ∃ keyed : List (List Value × Value), List.Forall₂ (fun row k => access.readAll row [path] = .ok k.1 ∧ row = k.2)
      rows keyed ∧ keyed.map (·.1) = values.map ([·]) := by
  induction h with
  | nil => exact ⟨[], .nil, rfl⟩
  | cons hv _ ih =>
    obtain ⟨keyed, hk, hm⟩ := ih
    have hr : access.readAll _ [path] = .ok [_] := mapM_eq_ok.mpr (.cons hv .nil)
    exact ⟨([_], _) :: keyed, .cons ⟨hr, rfl⟩ hk, by rw [List.map_cons, hm, List.map_cons]⟩

-- With one key there are as many groups as there are fingerprints.
theorem length_ofRows (h : List.Forall₂ (fun row k => access.readAll row [path] = .ok k.1 ∧ row = k.2) rows keyed)
    (hm : keyed.map (·.1) = values.map ([·])) :
    (ofRows keyed).length = (values.map Value.fingerprint).eraseDups.length := by
  have ht : keyed.map (fingerprints ·.1) = (values.map Value.fingerprint).map ([·]) :=
    calc
      keyed.map (fingerprints ·.1) = (keyed.map (·.1)).map fingerprints := List.map_map.symm
      _ = (values.map ([·])).map fingerprints                           := by rw [hm]
      _ = (values.map Value.fingerprint).map ([·])                      := by rw [List.map_map, List.map_map]; rfl
  have hl := congrArg List.length (divides_of_readAll h).tuples
  rwa [List.length_map, ht, length_eraseDups_map List.singleton_injective] at hl

end Group

namespace Clause

variable {access : Access} {registry : Registry} {path : PropertyPath} {rows : List Value}

-- Null makes a group, but is not counted.
theorem groupBy_countDistinct (hm : registry.get? "countdistinct" = some .countDistinct) (output : String)
    (h : ∀ row ∈ rows, ∃ value, access.read row path = .ok value) :
    ∃ (out : List Value) (count : Nat), Makes access registry [.groupBy [path] none] rows out ∧
      Makes access registry [.aggregate [.property path "countdistinct" output]] rows
        [.object [(output, .int count)]] ∧
      ((∃ row ∈ rows, access.read row path = .ok .null) → out.length = count + 1) ∧
      ((∀ row ∈ rows, access.read row path ≠ .ok .null) → out.length = count) := by
  obtain ⟨values, hv⟩ := exists_forall₂.mpr h
  obtain ⟨keyed, hk, hks⟩ := Group.exists_keyed hv
  refine ⟨_, _, makes_groupBy_none.mpr ⟨keyed, hk, rfl⟩, makes_aggregate_property hm hv rfl, ?_, ?_⟩
  case refine_1 =>
    rintro ⟨row, hr, hn⟩
    obtain ⟨v, hmem, hv⟩ := exists_of_mem_left hv row hr
    cases hn.symm.trans hv
    rw [List.length_map, Group.length_ofRows hk hks, Method.length_distinct_of_mem_null hmem]
  case refine_2 =>
    intro hn
    have hnull : Value.null ∉ values := by
      intro hmem
      obtain ⟨row, hr, hv⟩ := exists_of_mem_right hv _ hmem
      exact hn row hr hv
    rw [List.length_map, Group.length_ofRows hk hks, Method.nonNull_of_not_mem hnull]

theorem groupBy_countDistinct_null :
    let access : Access := ⟨.exact, false⟩
    let two : Value := .float ⟨false, 2 * Binary64.one, by decide +kernel, by decide +kernel⟩
    let row (k : Value) : Value := .object [("K", k)]
    let rows := [row .null, row (.string "null"), row (.int 2), row two, .object [], row (.array [two]),
      row (.array [.int 2])]
    (∀ row ∈ rows, ∃ value, access.read row ["K"] = .ok value) ∧
      (∃ row ∈ rows, access.read row ["K"] = .ok .null) ∧
      Makes access .builtins [.aggregate [.property ["K"] "countdistinct" "D"]] rows [.object [("D", .int 3)]] ∧
      ∃ out, Makes access .builtins [.groupBy [["K"]] none] rows out ∧ out.length = 4 := by
  intro access two row rows
  have hr : ∀ row ∈ rows, ∃ value, access.read row ["K"] = .ok value := by
    simp only [rows, List.forall_mem_cons]
    exact ⟨⟨_, rfl⟩, ⟨_, rfl⟩, ⟨_, rfl⟩, ⟨_, rfl⟩, ⟨_, rfl⟩, ⟨_, rfl⟩, ⟨_, rfl⟩, nofun⟩
  have hn : ∃ row ∈ rows, access.read row ["K"] = .ok .null := ⟨_, List.mem_cons_self, rfl⟩
  have ⟨out, count, ho, hc, hl, _⟩ := @groupBy_countDistinct access .builtins ["K"] rows rfl "D" hr
  let values := [.null, .string "null", .int 2, two, .null, .array [two], .array [.int 2]]
  have hv : rows.mapM (fun row => access.read row ["K"]) = .ok values := rfl
  have hd : ((Method.nonNull values).map Value.fingerprint).eraseDups.length = 3 := by decide +kernel
  have hm : Method.countDistinct.call values = .ok (.int 3) := by simp [Method.countDistinct, hd]
  have hc' : Makes access .builtins [.aggregate [.property ["K"] "countdistinct" "D"]] rows [.object [("D", .int 3)]] :=
    makes_aggregate_property rfl (mapM_eq_ok.mp hv) hm
  cases eq_of_makes hc hc'
  exact ⟨hr, hn, hc, out, ho, hl hn⟩

end Clause
end RowPipeline
