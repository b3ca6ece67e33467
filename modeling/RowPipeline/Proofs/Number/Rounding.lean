import RowPipeline.Number.Shortest
import Mathlib.Algebra.Order.Field.Rat
import Mathlib.Tactic.FieldSimp
import Mathlib.Tactic.Positivity
import Mathlib.Tactic.Ring

namespace RowPipeline

variable {num num' den den' bits : Nat}

-- Rounding is of quotients, in whatever terms they are given.
theorem roundHalfEven_mul {k : Nat} (hk : 0 < k) (num den : Nat) :
    roundHalfEven (num * k) (den * k) = roundHalfEven num den := by
  simp only [roundHalfEven, Nat.mul_div_mul_right num den hk, Nat.mul_mod_mul_right, ← Nat.mul_assoc,
    Nat.mul_lt_mul_right hk]

theorem roundToBits_mul {k : Nat} (hk : 0 < k) (bits num den : Nat) :
    roundToBits bits (num * k) (den * k) = roundToBits bits num den := by
  simp only [roundToBits, Nat.mul_div_mul_right num den hk]
  rw [Nat.mul_right_comm, roundHalfEven_mul hk]

theorem roundToBits_congr (hd : 0 < den) (hd' : 0 < den') (h : (num : ℚ) / den = num' / den') :
    roundToBits bits num den = roundToBits bits num' den' := by
  have hc : num * den' = den * num' := by
    field_simp at h
    exact_mod_cast h
  calc roundToBits bits num den
    _ = roundToBits bits (num * den') (den * den') := (roundToBits_mul hd' bits num den).symm
    _ = roundToBits bits (num' * den) (den' * den) := by rw [hc, Nat.mul_comm den, Nat.mul_comm den]
    _ = roundToBits bits num' den' := roundToBits_mul hd bits num' den'

namespace Decimal

variable {d d' : Decimal} {u u' : Nat}

def value (d : Decimal) : ℚ :=
  d.coefficient * (10 : ℚ) ^ d.exponent

-- The number of units nearest to the value, in whatever terms the value is given as a quotient.
def RoundsTo (d : Decimal) (u : Nat) : Prop :=
  ∀ num den : Nat, 0 < den → (num : ℚ) / den = d.value * Binary64.one → roundToBits 53 num den = u

theorem roundsTo_of_roundToBits (hd : 0 < den) (h : (num : ℚ) / den = d.value * Binary64.one)
    (hr : roundToBits 53 num den = u) : d.RoundsTo u := by
  intro num' den' hd' h'
  rw [← hr]
  exact roundToBits_congr hd' hd (h'.trans h.symm)

-- The two quotients that are rounded when a numeral is read.
theorem value_of_nonneg (he : 0 ≤ d.exponent) :
    ((d.coefficient * 10 ^ d.exponent.toNat * Binary64.one : Nat) : ℚ) / (1 : Nat) = d.value * Binary64.one := by
  have hz : (10 : ℚ) ^ d.exponent = 10 ^ d.exponent.toNat := by
    rw [← zpow_natCast, Int.toNat_of_nonneg he]
  rw [value, hz]
  push_cast
  ring

theorem value_of_neg (he : d.exponent < 0) :
    ((d.coefficient * Binary64.one : Nat) : ℚ) / (10 ^ d.exponent.natAbs : Nat) = d.value * Binary64.one := by
  have hz : (10 : ℚ) ^ d.exponent = (10 ^ d.exponent.natAbs)⁻¹ := by
    rw [← zpow_natCast, ← zpow_neg]
    congr 1
    omega
  rw [value, hz]
  push_cast
  ring

theorem exists_quotient (d : Decimal) : ∃ num den : Nat, 0 < den ∧ (num : ℚ) / den = d.value * Binary64.one := by
  by_cases he : 0 ≤ d.exponent
  case pos => exact ⟨_, 1, Nat.one_pos, value_of_nonneg he⟩
  case neg => exact ⟨_, _, by positivity, value_of_neg (Int.not_le.mp he)⟩

-- What a numeral rounds to hangs on its value alone.
theorem RoundsTo.unique (h : d.RoundsTo u) (h' : d'.RoundsTo u') (hv : d.value = d'.value) : u = u' := by
  have ⟨num, den, hd, hq⟩ := d.exists_quotient
  exact (h num den hd hq).symm.trans (h' num den hd (hv ▸ hq))

theorem RoundsTo.congr (h : d.RoundsTo u) (hv : d.value = d'.value) : d'.RoundsTo u := by
  intro num den hd hq
  exact h num den hd (hv ▸ hq)

theorem roundsTo_zero (h : d.value = 0) : d.RoundsTo 0 := by
  have hq : ((0 : Nat) : ℚ) / (1 : Nat) = d.value * Binary64.one := by rw [h, Nat.cast_zero, zero_div, zero_mul]
  exact roundsTo_of_roundToBits Nat.one_pos hq (by decide)

theorem value_trim_go (n : Nat) (d : Decimal) : (trim.go n d).value = d.value := by
  induction n generalizing d with
  | zero => rfl
  | succ n ih =>
    rw [trim.go]
    split
    case isTrue h =>
      have hc : (d.coefficient : ℚ) = (d.coefficient / 10 : Nat) * 10 := by
        exact_mod_cast (Nat.div_mul_cancel (Nat.dvd_of_mod_eq_zero h.left)).symm
      rw [ih, value, value, hc, zpow_add_one₀ (by norm_num)]
      ring
    case isFalse => rfl

theorem value_trim (d : Decimal) : d.trim.value = d.value :=
  value_trim_go _ d

end Decimal

namespace Binary64

open Decimal

variable {d : Decimal} {x : Binary64}

theorem units_of_ofRatio {negative : Bool} (h : ofRatio negative num den = some x) :
    x.negative = negative ∧ roundToBits 53 num den = x.units := by
  rw [ofRatio] at h
  split at h
  case isTrue => cases h; exact ⟨rfl, rfl⟩
  case isFalse => contradiction

-- The two ways in which a numeral is rounded when it is read.
theorem roundsTo_of_ofRatio {negative : Bool}
    (h : (if d.exponent ≥ 0 then ofRatio negative (d.coefficient * 10 ^ d.exponent.toNat * one) 1
      else ofRatio negative (d.coefficient * one) (10 ^ d.exponent.natAbs)) = some x) :
    x.negative = negative ∧ d.RoundsTo x.units := by
  split at h
  case isTrue he =>
    obtain ⟨hn, hr⟩ := units_of_ofRatio h
    exact ⟨hn, roundsTo_of_roundToBits Nat.one_pos (value_of_nonneg he) hr⟩
  case isFalse he =>
    obtain ⟨hn, hr⟩ := units_of_ofRatio h
    exact ⟨hn, roundsTo_of_roundToBits (by positivity) (value_of_neg (Int.not_le.mp he)) hr⟩

theorem roundsTo_of_readsAs (h : ReadsAs d x) (hx : x.units ≠ 0) : d.RoundsTo x.units := by
  have ⟨y, hy, hu⟩ := Option.map_eq_some_iff.mp h
  rw [toBinary64] at hy
  split at hy
  case isTrue =>
    -- Only zero is read without rounding.
    cases hy
    exact absurd hu.symm hx
  case isFalse =>
    split at hy
    case isTrue => contradiction
    case isFalse =>
      rw [← hu]
      exact (roundsTo_of_ofRatio hy).right

-- For an unnamed exponent, so that no large power is computed.
theorem value_units (u k : Nat) : value ⟨u * 5 ^ k, -(k : Int)⟩ * (2 ^ k : Nat) = u := by
  have hp : (10 : ℚ) ^ k = 5 ^ k * 2 ^ k := by rw [← mul_pow]; norm_num
  rw [value, zpow_neg, zpow_natCast, hp]
  push_cast
  field_simp

theorem roundsTo_toDecimal (x : Binary64) : x.toDecimal.RoundsTo x.units := by
  have hq : ((x.units : Nat) : ℚ) / (1 : Nat) = x.toDecimal.value * Binary64.one := by
    rw [Nat.cast_one, div_one]
    exact (value_units x.units 1074).symm
  exact roundsTo_of_roundToBits Nat.one_pos hq (roundToBits_of_hasBits x.bits)

theorem readsAs_of_nearestKeeping? {dropped : Nat} (h : x.nearestKeeping? dropped = some d) : ReadsAs d x := by
  have hf := List.find?_some h
  exact of_decide_eq_true hf

-- If no shorter numeral is found, the exact one stands for the number.
theorem roundsTo_shortest (hx : x.units ≠ 0) : x.shortest.RoundsTo x.units := by
  have hf : ∀ found : Option Decimal, (∀ d ∈ found, ReadsAs d x) →
      (found.getD x.toDecimal).trim.RoundsTo x.units := by
    intro found h
    apply RoundsTo.congr _ (value_trim _).symm
    cases found with
    | none => exact roundsTo_toDecimal x
    | some d => exact roundsTo_of_readsAs (h d rfl) hx
  apply hf
  intro d hd
  have ⟨n, _, hn⟩ := List.exists_of_findSome?_eq_some hd
  exact readsAs_of_nearestKeeping? hn

end Binary64
end RowPipeline
