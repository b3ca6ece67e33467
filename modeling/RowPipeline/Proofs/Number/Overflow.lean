import RowPipeline.Proofs.Number.Whole
import Mathlib.Tactic.Linarith

namespace RowPipeline

section Rounding

variable {num den n bits s : Nat}

-- Between an odd number and the even one above it, the middle goes to the latter.
theorem roundHalfEven_lt_iff (hd : 0 < den) (hn : n % 2 = 0) :
    roundHalfEven num den < n ↔ 2 * num < (2 * n - 1) * den := by
  have hq := Nat.div_add_mod num den
  have hr := Nat.mod_lt num hd
  have hl := le_roundHalfEven num den
  have hu := roundHalfEven_le num den
  rcases Nat.lt_trichotomy (num / den + 1) n with h | h | h
  case inl =>
    have hm : (2 * (num / den) + 3) * den ≤ (2 * n - 1) * den := Nat.mul_le_mul_right den (by omega)
    refine iff_of_true (by omega) (Nat.lt_of_lt_of_le ?_ hm)
    rw [Nat.add_mul, Nat.mul_assoc, Nat.mul_comm (num / den)]
    omega
  case inr.inl =>
    have ho : num / den % 2 = 1 := by omega
    have hm : (2 * n - 1) * den = 2 * (den * (num / den)) + den := by
      rw [show 2 * n - 1 = 2 * (num / den) + 1 from by omega, Nat.add_mul, Nat.mul_assoc, Nat.mul_comm (num / den),
        Nat.one_mul]
    rw [hm, roundHalfEven]
    split
    case isTrue => omega
    case isFalse => split <;> omega
  case inr.inr =>
    have hm : (2 * n - 1) * den ≤ 2 * (num / den) * den := Nat.mul_le_mul_right den (by omega)
    rw [Nat.mul_assoc, Nat.mul_comm (num / den)] at hm
    exact iff_of_false (by omega) (by omega)

theorem roundToBits_two_pow (hb : 0 < bits) (hd : 0 < den) (k : Nat) :
    roundToBits bits (2 ^ k * den) den = 2 ^ k := by
  have hk : HasBits bits (2 ^ k) := by
    have h : HasBits bits (1 * 2 ^ k) := HasBits.mul_two_pow (hasBits_of_log2 hb)
    rwa [Nat.one_mul] at h
  have h := roundToBits_mul hd bits (2 ^ k) 1
  rwa [Nat.one_mul, roundToBits_of_hasBits hk] at h

theorem spareBits_of_log2 {q : Nat} (hl : 2 ^ (bits + s) ≤ q) (hu : q < 2 ^ (bits + 1 + s)) :
    spareBits bits q = s + 1 := by
  have hq : q ≠ 0 := Nat.ne_of_gt (Nat.lt_of_lt_of_le (Nat.two_pow_pos _) hl)
  have h₁ := (Nat.le_log2 hq).mpr hl
  have h₂ := (Nat.log2_lt hq).mpr hu
  rw [spareBits]
  omega

-- What is rounded to less than a power of two is below the middle between this power and the number before it.
theorem roundToBits_lt_iff (hb : 0 < bits) (hd : 0 < den) :
    roundToBits bits num den < 2 ^ (bits + 1 + s) ↔ num < (2 ^ (bits + 1) - 1) * 2 ^ s * den := by
  have hp : 2 ^ bits < 2 ^ (bits + 1) := Nat.pow_lt_pow_succ (by decide)
  have hl : 2 ^ (bits + s) * den ≤ (2 ^ (bits + 1) - 1) * 2 ^ s * den := by
    rw [Nat.pow_add]
    exact Nat.mul_le_mul_right den (Nat.mul_le_mul_right _ (by omega))
  have hu : (2 ^ (bits + 1) - 1) * 2 ^ s * den ≤ 2 ^ (bits + 1 + s) * den := by
    rw [Nat.pow_add 2 (bits + 1)]
    exact Nat.mul_le_mul_right den (Nat.mul_le_mul_right _ (Nat.sub_le ..))
  by_cases hn : num < 2 ^ (bits + s) * den
  case pos =>
    have hr := roundToBits_mono bits den hb (Nat.le_of_lt hn)
    rw [roundToBits_two_pow hb hd] at hr
    have hs : 2 ^ (bits + s) < 2 ^ (bits + 1 + s) := Nat.pow_lt_pow_right (by decide) (by omega)
    exact iff_of_true (Nat.lt_of_le_of_lt hr hs) (Nat.lt_of_lt_of_le hn hl)
  by_cases hm : num < 2 ^ (bits + 1 + s) * den
  case neg =>
    have hr := roundToBits_mono bits den hb (Nat.le_of_not_lt hm)
    rw [roundToBits_two_pow hb hd] at hr
    exact iff_of_false (Nat.not_lt.mpr hr) fun h => hm (Nat.lt_of_lt_of_le h hu)
  case pos =>
    -- The quotient has one bit more than are kept and `s` more.
    have hq : spareBits bits (num / den) = s + 1 :=
      spareBits_of_log2 ((Nat.le_div_iff_mul_le hd).mpr (Nat.le_of_not_lt hn)) ((Nat.div_lt_iff_lt_mul hd).mpr hm)
    have he : 2 ^ bits % 2 = 0 := by
      rw [← Nat.sub_add_cancel hb, Nat.pow_succ, Nat.mul_mod_left]
    have hc : (2 * 2 ^ bits - 1) * (den * 2 ^ (s + 1)) = 2 * ((2 ^ (bits + 1) - 1) * 2 ^ s * den) := by
      rw [← Nat.pow_succ', Nat.pow_succ' (n := s)]
      ring
    have hs : 2 ^ (bits + 1 + s) = 2 ^ bits * 2 ^ (s + 1) := by
      rw [← Nat.pow_add]
      congr 1
      omega
    simp only [roundToBits, hq]
    rw [hs, Nat.mul_lt_mul_right (Nat.two_pow_pos _), roundHalfEven_lt_iff (by positivity) he, hc]
    exact Nat.mul_lt_mul_left (by decide)

end Rounding

namespace Binary64

variable {num den : Nat} {q : ℚ} {negative : Bool}

-- The middle between the largest number of the format and the next power of two.
def overflow : ℚ :=
  2 ^ 1024 - 2 ^ 970

-- For unnamed exponents, so that no large power is computed.
theorem sub_two_pow_mul {i j k m n : Nat} (hi : i = k + n) (hj : j = k + m) :
    ((2 : ℚ) ^ i - 2 ^ k) * (2 ^ m : Nat) = ((2 ^ n - 1) * 2 ^ j : Nat) := by
  rw [hi, hj, Nat.cast_mul, Nat.cast_sub Nat.one_le_two_pow, pow_add]
  push_cast
  ring

theorem overflow_mul_one : overflow * one = ((2 ^ (53 + 1) - 1) * 2 ^ 2044 : Nat) :=
  sub_two_pow_mul (by decide) (by decide)

theorem cast_one_pos : (0 : ℚ) < one := by
  exact_mod_cast Int.natCast_pos.mp one_pos

theorem one_le_overflow : 1 ≤ overflow := by
  have h : ∀ k n : Nat, (1 : ℚ) ≤ 2 ^ (k + (n + 1)) - 2 ^ k := by
    intro k n
    have hk : (1 : ℚ) ≤ 2 ^ k := one_le_pow₀ one_le_two
    have hn : (1 : ℚ) ≤ 2 ^ n := one_le_pow₀ one_le_two
    calc (1 : ℚ)
      _ ≤ 2 ^ k * (2 * 2 ^ n - 1) := one_le_mul_of_one_le_of_one_le hk (by linarith)
      _ = 2 ^ (k + (n + 1)) - 2 ^ k := by rw [pow_add, pow_succ]; ring
  exact h 970 53

theorem overflow_le : overflow ≤ 10 ^ (310 : Int) := by
  have h : ∀ {i j k : Nat}, 2 ^ i ≤ 10 ^ j → (2 : ℚ) ^ i - 2 ^ k ≤ 10 ^ (j : Int) := by
    intro i j k h
    have hc : (2 : ℚ) ^ i ≤ 10 ^ j := by exact_mod_cast h
    rw [zpow_natCast]
    exact (sub_le_self _ (by positivity)).trans hc
  exact h (by decide +kernel)

theorem ofRatio_eq_none_iff (hd : 0 < den) (h : (num : ℚ) / den = q * one) :
    ofRatio negative num den = none ↔ overflow ≤ q := by
  have hc : ceiling = 2 ^ (53 + 1 + 2044) := by decide +kernel
  have hn : ofRatio negative num den = none ↔ (2 ^ (53 + 1) - 1) * 2 ^ 2044 * den ≤ num := by
    rw [← Nat.not_lt, ← roundToBits_lt_iff (by decide) hd, ← hc, ofRatio]
    split
    case isTrue hl => exact iff_of_false (Option.some_ne_none _) (not_not_intro hl)
    case isFalse hl => exact iff_of_true rfl hl
  rw [hn, ← mul_le_mul_iff_left₀ cast_one_pos, ← h, overflow_mul_one, le_div_iff₀ (by exact_mod_cast hd)]
  exact_mod_cast Iff.rfl

end Binary64

namespace Decimal

open Binary64

variable {d : Decimal} {x : Binary64} {negative : Bool}

-- Where the first digit stands tells the size up to a factor of ten.
theorem value_bounds (h : d.coefficient ≠ 0) :
    (10 : ℚ) ^ d.magnitude ≤ d.value ∧ d.value < (10 : ℚ) ^ (d.magnitude + 1) := by
  have ⟨l, hl⟩ : ∃ l, (digits d.coefficient).length = l + 1 :=
    Nat.exists_eq_add_one.mpr (List.length_pos_iff.mpr digits_ne_nil)
  have hu : d.coefficient < 10 ^ (l + 1) := (Nat.length_toDigits_le_iff (by decide) (by omega)).mp hl.le
  have hb : 10 ^ l ≤ d.coefficient := by
    by_cases hz : l = 0
    case pos => rw [hz]; exact Nat.pos_of_ne_zero h
    case neg =>
      apply Nat.le_of_not_lt
      intro hlt
      have hle : (digits d.coefficient).length ≤ l :=
        (Nat.length_toDigits_le_iff (by decide) (Nat.pos_of_ne_zero hz)).mpr hlt
      omega
  have hm : ∀ k : Int, (10 : ℚ) ^ (d.magnitude + k) = 10 ^ (l + k) * 10 ^ d.exponent := by
    intro k
    rw [← zpow_add₀ (by norm_num), magnitude, hl]
    congr 1
    push_cast
    ring
  have hp : (0 : ℚ) < 10 ^ d.exponent := zpow_pos (by norm_num) _
  constructor
  case left =>
    rw [← Int.add_zero d.magnitude, hm, Int.add_zero, zpow_natCast, value]
    exact mul_le_mul_of_nonneg_right (by exact_mod_cast hb) hp.le
  case right =>
    rw [hm, ← Nat.cast_one, ← Nat.cast_add, zpow_natCast, value]
    exact mul_lt_mul_of_pos_right (by exact_mod_cast hu) hp

-- The numerals that are told without rounding are on the same sides as the others.
theorem toBinary64_eq_none_iff : d.toBinary64 negative = none ↔ overflow ≤ d.value := by
  rw [toBinary64]
  split
  case isTrue h =>
    refine iff_of_false (Option.some_ne_none _) (not_le.mpr ?_)
    by_cases hz : d.coefficient = 0
    case pos =>
      rw [value, hz, Nat.cast_zero, zero_mul]
      exact zero_lt_one.trans_le one_le_overflow
    case neg =>
      have hm : d.magnitude + 1 ≤ 0 := by omega
      have hp : (10 : ℚ) ^ (d.magnitude + 1) ≤ 1 := zpow_le_one_of_nonpos₀ (by norm_num) hm
      exact ((value_bounds hz).right.trans_le hp).trans_le one_le_overflow
  case isFalse h =>
    split
    case isTrue hm =>
      refine iff_of_true rfl (overflow_le.trans ?_)
      exact (zpow_le_zpow_right₀ (by norm_num) hm).trans (value_bounds fun hz => h (.inl hz)).left
    case isFalse =>
      split
      case isTrue he => exact ofRatio_eq_none_iff Nat.one_pos (value_of_nonneg he)
      case isFalse he => exact ofRatio_eq_none_iff (by positivity) (value_of_neg (Int.not_le.mp he))

-- Less than half a unit is rounded to none.
theorem roundsTo_zero_of_lt (h : d.value * one < 1 / 2) : d.RoundsTo 0 := by
  have ⟨num, den, hd, hq⟩ := d.exists_quotient
  refine roundsTo_of_roundToBits hd hq ?_
  have hp : (0 : ℚ) < den := by exact_mod_cast hd
  have hn : 2 * num < den := by
    rw [← hq, div_lt_div_iff₀ hp two_pos] at h
    have h : ((2 * num : Nat) : ℚ) < den := by
      push_cast
      linarith
    exact_mod_cast h
  have hz : num / den = 0 := Nat.div_eq_of_lt (by omega)
  have hs : spareBits 53 0 = 0 := by decide
  rw [roundToBits, hz, hs, Nat.pow_zero, Nat.mul_one, Nat.mul_one, roundHalfEven, hz, Nat.mod_eq_of_lt (by omega),
    if_pos hn]

theorem roundsTo_zero_of_magnitude (h : d.coefficient ≠ 0) (hm : d.magnitude < -330) : d.RoundsTo 0 := by
  apply roundsTo_zero_of_lt
  have hp : ∀ {k n : Nat}, 2 * 2 ^ n ≤ 10 ^ k → (10 : ℚ) ^ (-(k : Int)) * (2 ^ n : Nat) ≤ 1 / 2 := by
    intro k n hkn
    have hc : (2 : ℚ) * 2 ^ n ≤ 10 ^ k := by exact_mod_cast hkn
    rw [zpow_neg, zpow_natCast, inv_mul_le_iff₀ (by positivity)]
    push_cast
    linarith
  have hl : d.value < 10 ^ (-(329 : Nat) : Int) :=
    (value_bounds h).right.trans_le (zpow_le_zpow_right₀ (by norm_num) (by omega))
  exact (mul_lt_mul_of_pos_right hl cast_one_pos).trans_le (hp (by decide +kernel))

-- What is read is the number that the numeral rounds to.
theorem roundsTo_of_toBinary64 (h : d.toBinary64 negative = some x) : x.negative = negative ∧ d.RoundsTo x.units := by
  rw [toBinary64] at h
  split at h
  case isTrue hz =>
    cases h
    refine ⟨rfl, ?_⟩
    by_cases hc : d.coefficient = 0
    case pos => exact roundsTo_zero (by rw [value, hc, Nat.cast_zero, zero_mul])
    case neg => exact roundsTo_zero_of_magnitude hc (hz.resolve_left hc)
  case isFalse =>
    split at h
    case isTrue => contradiction
    case isFalse => exact roundsTo_of_ofRatio h

end Decimal
end RowPipeline
