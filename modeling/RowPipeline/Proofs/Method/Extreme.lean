import RowPipeline.Method.Builtin
import RowPipeline.Proofs.Value.Ordering
import Mathlib.Data.List.Induction

namespace RowPipeline.Method

open Value

variable {wanted : Ordering} {values : List Value} {a b c m v : Value}

-- A value that is no null, and that no other one surpasses in the wanted direction.
structure IsExtreme (wanted : Ordering) (values : List Value) (m : Value) : Prop where
  mem         : m ∈ values
  not_isNull  : ¬m.isNull
  unsurpassed : ∀ v ∈ values, ¬v.isNull → v.sortOrder m ≠ wanted

theorem surpasses_trans (hw : wanted ≠ .eq) (hab : a.sortOrder b = wanted) (hbc : b.sortOrder c = wanted) :
    a.sortOrder c = wanted := by
  cases wanted with
  | lt => exact sortOrder_lt_trans hab hbc
  | eq => contradiction
  | gt => exact sortOrder_eq_gt.mpr (sortOrder_lt_trans (sortOrder_eq_gt.mp hbc) (sortOrder_eq_gt.mp hab))

namespace IsExtreme

theorem singleton (hw : wanted ≠ .eq) (hv : ¬v.isNull) (h : ∀ v ∈ values, v.isNull) :
    IsExtreme wanted (values ++ [v]) v where
  mem         := List.mem_append_right values List.mem_cons_self
  not_isNull  := hv
  unsurpassed := by
    refine List.forall_mem_append.mpr ⟨fun u hu hn => absurd (h u hu) hn, List.forall_mem_singleton.mpr fun _ => ?_⟩
    rw [sortOrder_self]
    exact hw.symm

theorem keep (h : IsExtreme wanted values m) (hv : ¬v.isNull → v.sortOrder m ≠ wanted) :
    IsExtreme wanted (values ++ [v]) m where
  mem         := List.mem_append_left [v] h.mem
  not_isNull  := h.not_isNull
  unsurpassed := List.forall_mem_append.mpr ⟨h.unsurpassed, List.forall_mem_singleton.mpr hv⟩

-- What surpassed the new value would have surpassed the old one.
theorem replace (hw : wanted ≠ .eq) (h : IsExtreme wanted values m) (hn : ¬v.isNull) (hv : v.sortOrder m = wanted) :
    IsExtreme wanted (values ++ [v]) v where
  mem         := List.mem_append_right values List.mem_cons_self
  not_isNull  := hn
  unsurpassed := by
    refine List.forall_mem_append.mpr ⟨fun u hu hn hs => ?_, List.forall_mem_singleton.mpr fun _ => ?_⟩
    case refine_1 => exact h.unsurpassed u hu hn (surpasses_trans hw hs hv)
    case refine_2 =>
      rw [sortOrder_self]
      exact hw.symm

end IsExtreme

theorem nonNull_concat (hn : ¬v.isNull) : nonNull (values ++ [v]) = nonNull values ++ [v] := by
  simp [nonNull, hn]

theorem extreme_concat_of_none (hn : ¬v.isNull) (h : extreme wanted values = none) :
    extreme wanted (values ++ [v]) = some v := by
  unfold extreme at h
  simp only [extreme, nonNull_concat hn, List.foldl_concat, h]

theorem extreme_concat_of_some (hn : ¬v.isNull) (h : extreme wanted values = some m) :
    extreme wanted (values ++ [v]) = if v.sortOrder m = wanted then some v else some m := by
  unfold extreme at h
  simp only [extreme, nonNull_concat hn, List.foldl_concat, h]

theorem extreme_concat_of_isNull (hn : v.isNull) : extreme wanted (values ++ [v]) = extreme wanted values := by
  simp [extreme, nonNull, hn]

-- What the best one so far is, holds after one more value.
theorem extreme_cases (hw : wanted ≠ .eq) (values : List Value) :
    (extreme wanted values = none ∧ ∀ v ∈ values, v.isNull) ∨
      ∃ m, extreme wanted values = some m ∧ IsExtreme wanted values m := by
  induction values using List.reverseRecOn with
  | nil => exact .inl ⟨rfl, nofun⟩
  | append_singleton values v ih =>
    by_cases hn : v.isNull
    case pos =>
      rw [extreme_concat_of_isNull hn]
      rcases ih with ⟨he, ha⟩ | ⟨m, he, hm⟩
      case inl => exact .inl ⟨he, List.forall_mem_append.mpr ⟨ha, List.forall_mem_singleton.mpr hn⟩⟩
      case inr => exact .inr ⟨m, he, hm.keep (absurd hn)⟩
    case neg =>
      rcases ih with ⟨he, ha⟩ | ⟨m, he, hm⟩
      case inl => exact .inr ⟨v, extreme_concat_of_none hn he, .singleton hw hn ha⟩
      case inr =>
        rw [extreme_concat_of_some hn he]
        by_cases hv : v.sortOrder m = wanted
        case pos => exact .inr ⟨v, if_pos hv, hm.replace hw hn hv⟩
        case neg => exact .inr ⟨m, if_neg hv, hm.keep fun _ => hv⟩

theorem extreme_of_isNull (hw : wanted ≠ .eq) (h : ∀ v ∈ values, v.isNull) : extreme wanted values = none := by
  rcases extreme_cases hw values with ⟨he, _⟩ | ⟨m, _, hm⟩
  case inl => exact he
  case inr => exact absurd (h m hm.mem) hm.not_isNull

theorem exists_isExtreme (hw : wanted ≠ .eq) (h : ∃ v ∈ values, ¬v.isNull) :
    ∃ m, extreme wanted values = some m ∧ IsExtreme wanted values m := by
  have ⟨v, hv, hn⟩ := h
  exact (extreme_cases hw values).resolve_left fun ⟨_, ha⟩ => hn (ha v hv)

-- Nulls are passed over, and if there is anything else, no value is below the least one or above the greatest one.
theorem min_max_call (values : List Value) :
    ((∀ v ∈ values, v.isNull) → min.call values = .ok .null ∧ max.call values = .ok .null) ∧
    ((∃ v ∈ values, ¬v.isNull) → ∃ least greatest,
      min.call values = .ok least ∧ IsExtreme .lt values least ∧
      max.call values = .ok greatest ∧ IsExtreme .gt values greatest) := by
  constructor
  case left =>
    intro h
    have hl : extreme .lt values = none := extreme_of_isNull nofun h
    have hg : extreme .gt values = none := extreme_of_isNull nofun h
    simp [min, max, hl, hg]
  case right =>
    intro h
    have ⟨least, hl, hm⟩ : ∃ m, extreme .lt values = some m ∧ IsExtreme .lt values m := exists_isExtreme nofun h
    have ⟨greatest, hg, hn⟩ : ∃ m, extreme .gt values = some m ∧ IsExtreme .gt values m := exists_isExtreme nofun h
    exact ⟨least, greatest, by simp [min, hl], hm, by simp [max, hg], hn⟩

-- The number in the middle is equal to both integers, which differ.
theorem min_max_call_confounded :
    let n : Int := 2 ^ 53
    let x : Binary64 := ⟨false, 2 ^ 53 * Binary64.one, by decide +kernel, by decide +kernel⟩
    let values := [.int (n + 1), float x, .null, .int n]
    min.call values = .ok (.int n) ∧ IsExtreme .lt values (.int n) ∧
      max.call values = .ok (.int (n + 1)) ∧ IsExtreme .gt values (.int (n + 1)) := by
  intro n x values
  have hx : (float x).sortOrder (.int (n + 1)) = .eq := by decide +kernel
  have hn : (Value.int n).sortOrder (.int (n + 1)) = .lt := by decide +kernel
  have hl : min.call values = .ok (.int n) := by simp [values, min, extreme, nonNull, isNull, hx, hn]
  have hg : max.call values = .ok (.int (n + 1)) := by simp [values, max, extreme, nonNull, isNull, hx, hn]
  obtain ⟨_, _, hl', hm, hg', hm'⟩ := (min_max_call values).right ⟨.int n, by simp [values], by simp [isNull]⟩
  cases hl.symm.trans hl'
  cases hg.symm.trans hg'
  exact ⟨hl, hm, hg, hm'⟩

end RowPipeline.Method
