import Mathlib.Algebra.Order.BigOperators.Group.List
import RowPipeline.Method.Builtin
import RowPipeline.Proofs.Number.Whole
import RowPipeline.Proofs.Success

namespace RowPipeline.Method

open Binary64

variable {values : List Value} {ns : List Int} {k : Int}

theorem mapM_term_ints (ns : List Int) : (ns.map Value.int).mapM term = .ok (ns.map ofInt) := by
  rw [mapM_eq_ok, List.forall₂_map_left_iff, List.forall₂_map_right_iff]
  exact List.forall₂_same.mpr fun _ _ => rfl

theorem ofFloat?_ne_int (x : Option Binary64) : Value.ofFloat? x ≠ .int k := by
  cases x <;> exact nofun

-- A sum of integers is read back as the integer that it has been rounded to, if this is above -2 ^ 63 and below 2 ^ 63.
theorem sum_call_eq_int (hv : nonNull values = ns.map .int) :
    sum.call values = .ok (.int k) ↔ sumInts? ns = some k ∧ k.natAbs < 2 ^ 63 := by
  have hi : (ns.map Value.int).all isInt = true := by simp [isInt]
  simp only [sum, hv, mapM_term_ints, hi, bind_eq_ok, Except.ok.injEq, exists_eq_left', (agree_sum ns).bind_toInt?]
  cases sumInts? ns with
  | none => simp [pure_eq_ok, ofFloat?_ne_int]
  | some n =>
    simp only [Option.some_inj]
    split
    case isTrue hn =>
      rw [pure_eq_ok, Value.int.injEq]
      exact ⟨fun h => ⟨h, h ▸ hn⟩, And.left⟩
    case isFalse hn =>
      rw [pure_eq_ok]
      exact iff_of_false (ofFloat?_ne_int _) fun ⟨h, hk⟩ => hn (h ▸ hk)

theorem natAbs_sum_le (ns : List Int) : ns.sum.natAbs ≤ (ns.map Int.natAbs).sum := by
  induction ns with
  | nil => exact Nat.le_refl 0
  | cons n ns ih =>
    rw [List.sum_cons, List.map_cons, List.sum_cons]
    exact Nat.le_trans (Int.natAbs_add_le n ns.sum) (Nat.add_le_add_left ih _)

-- As long as the sizes add up to 2 ^ 53 at most, nothing is rounded.
theorem sum_call_of_small (hv : nonNull values = ns.map .int) (h : (ns.map Int.natAbs).sum ≤ 2 ^ 53) :
    sum.call values = .ok (.int ns.sum) := by
  have hs : ∀ part : List Int, part.Sublist ns → part.sum.natAbs ≤ 2 ^ 53 := fun part hp =>
    calc part.sum.natAbs
      _ ≤ (part.map Int.natAbs).sum := natAbs_sum_le part
      _ ≤ (ns.map Int.natAbs).sum := (hp.map Int.natAbs).sum_le_sum fun _ _ => Nat.zero_le _
      _ ≤ 2 ^ 53 := h
  have hn : ∀ n ∈ ns, IsExact n := by
    intro n hn
    refine isExact_of_natAbs_le ?_
    simpa using hs [n] (List.singleton_sublist.mpr hn)
  have hp : ∀ before, before <+: ns → IsExact before.sum := fun before hp =>
    isExact_of_natAbs_le (hs before hp.sublist)
  exact (sum_call_eq_int hv).mpr ⟨sumInts?_of_isExact hn hp, Nat.lt_of_le_of_lt (hs ns (.refl ns)) (by decide)⟩

-- Rounding makes sums of integers inexact, and the least integer of 64 bits is never a sum.
theorem sum_call_exact_iff (hv : nonNull values = ns.map .int) (hl : -2 ^ 63 ≤ ns.sum) (hu : ns.sum < 2 ^ 63) :
    (sum.call values = .ok (.int ns.sum) ↔ sumInts? ns = some ns.sum ∧ ns.sum ≠ -2 ^ 63) ∧
    ((∀ n ∈ ns, IsExact n) → (∀ before, before <+: ns → IsExact before.sum) → ns.sum ≠ -2 ^ 63 →
      sum.call values = .ok (.int ns.sum)) ∧
    ((ns.map Int.natAbs).sum ≤ 2 ^ 53 → sum.call values = .ok (.int ns.sum)) := by
  have he : sum.call values = .ok (.int ns.sum) ↔ sumInts? ns = some ns.sum ∧ ns.sum ≠ -2 ^ 63 := by
    rw [sum_call_eq_int hv]
    refine and_congr_right fun _ => ?_
    omega
  exact ⟨he, fun hn hs hm => he.mpr ⟨sumInts?_of_isExact hn hs, hm⟩, sum_call_of_small hv⟩

-- The sums on the way are larger than 2 ^ 53, but need no more bits.
theorem sum_call_exact_iff_large :
    let values : List Value := [.int (2 ^ 60), .null, .int (2 ^ 53), .int (-2 ^ 60)]
    let ns : List Int := [2 ^ 60, 2 ^ 53, -2 ^ 60]
    nonNull values = ns.map .int ∧ -2 ^ 63 ≤ ns.sum ∧ ns.sum < 2 ^ 63 ∧ sum.call values = .ok (.int ns.sum) := by
  intro values ns
  have hl : -2 ^ 63 ≤ ns.sum := by decide
  have hu : ns.sum < 2 ^ 63 := by decide
  exact ⟨rfl, hl, hu, (sum_call_exact_iff rfl hl hu).left.mpr ⟨by decide +kernel, by decide⟩⟩

-- One integer of 64 bits is enough, if it is the least one or needs more than 53 bits.
theorem sum_call_inexact :
    sum.call [.int (-2 ^ 63)] ≠ .ok (.int (-2 ^ 63)) ∧
    sum.call [.int (2 ^ 53 + 1)] = .ok (.int (2 ^ 53)) ∧
    ¬∀ values (ns : List Int), nonNull values = ns.map .int → (∀ n ∈ ns, -2 ^ 63 ≤ n ∧ n < 2 ^ 64) →
      -2 ^ 63 ≤ ns.sum → ns.sum < 2 ^ 63 → sum.call values = .ok (.int ns.sum) := by
  have hv : ∀ n, nonNull [.int n] = [n].map .int := fun _ => rfl
  have hm : sum.call [.int (-2 ^ 63)] ≠ .ok (.int (-2 ^ 63)) := by
    intro h
    have ⟨_, hk⟩ := (sum_call_eq_int (hv _)).mp h
    exact absurd hk (by decide)
  have hr : sum.call [.int (2 ^ 53 + 1)] = .ok (.int (2 ^ 53)) :=
    (sum_call_eq_int (hv _)).mpr ⟨by decide +kernel, by decide⟩
  exact ⟨hm, hr, fun h => hm (h [.int (-2 ^ 63)] [-2 ^ 63] rfl (by decide) (by decide) (by decide))⟩

end RowPipeline.Method
