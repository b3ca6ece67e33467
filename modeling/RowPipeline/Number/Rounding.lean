namespace RowPipeline

-- Powers of numbers are those of the core library, whatever else is imported.
local instance natPow : Pow Nat Nat :=
  instPowNat

-- The integer nearest to `num / den`. A half goes to the even neighbour.
def roundHalfEven (num den : Nat) : Nat :=
  let q := num / den
  let twice := 2 * (num % den)
  if twice < den then q
  else if den < twice then q + 1
  else q + q % 2

theorem le_roundHalfEven (num den : Nat) : num / den ≤ roundHalfEven num den := by
  simp only [roundHalfEven]
  split
  · exact Nat.le_refl _
  · split <;> omega

theorem roundHalfEven_le (num den : Nat) : roundHalfEven num den ≤ num / den + 1 := by
  simp only [roundHalfEven]
  split
  · omega
  · split <;> omega

theorem roundHalfEven_mono {m n : Nat} (den : Nat) (h : m ≤ n) :
    roundHalfEven m den ≤ roundHalfEven n den := by
  have hq : m / den ≤ n / den := Nat.div_le_div_right h
  by_cases hlt : m / den < n / den
  · exact Nat.le_trans (roundHalfEven_le m den) (Nat.le_trans hlt (le_roundHalfEven n den))
  · have he : m / den = n / den := by omega
    have hr : m % den ≤ n % den := by
      have hm := Nat.div_add_mod m den
      have hn := Nat.div_add_mod n den
      rw [he] at hm
      omega
    simp only [roundHalfEven, he]
    split <;> split <;> (try split) <;> (try split) <;> omega

-- How many of the low bits of `q` lie below its `bits` leading ones.
def spareBits (bits q : Nat) : Nat :=
  q.log2 + 1 - bits

-- The multiple of a power of two that is nearest to `num / den`, where the power is the one that
-- leaves the integer part of the quotient `bits` significant bits.
def roundToBits (bits num den : Nat) : Nat :=
  let spare := spareBits bits (num / den)
  roundHalfEven num (den * 2 ^ spare) * 2 ^ spare

-- `u` is zero or has at most `bits` bits between its first and its last one.
def HasBits (bits u : Nat) : Prop :=
  2 ^ spareBits bits u ∣ u

instance (bits u : Nat) : Decidable (HasBits bits u) :=
  inferInstanceAs (Decidable (_ ∣ _))

theorem div_lt_two_pow_spareBits (bits q : Nat) : q / 2 ^ spareBits bits q < 2 ^ bits := by
  rw [Nat.div_lt_iff_lt_mul (Nat.two_pow_pos _), ← Nat.pow_add]
  have h : q < 2 ^ (q.log2 + 1) := Nat.lt_log2_self
  exact Nat.lt_of_lt_of_le h (Nat.pow_le_pow_right (by decide) (by unfold spareBits; omega))

theorem roundHalfEven_le_two_pow (bits num den : Nat) :
    roundHalfEven num (den * 2 ^ spareBits bits (num / den)) ≤ 2 ^ bits := by
  have h₁ := roundHalfEven_le num (den * 2 ^ spareBits bits (num / den))
  have h₂ := div_lt_two_pow_spareBits bits (num / den)
  rw [Nat.div_div_eq_div_mul] at h₂
  omega

theorem log2_mono {m n : Nat} (h : m ≤ n) : m.log2 ≤ n.log2 := by
  by_cases hm : m = 0
  · simp [hm]
  · exact (Nat.le_log2 (by omega)).mpr (Nat.le_trans (Nat.log2_self_le hm) h)

-- Rounding keeps the order, also between numbers of different size.
theorem roundToBits_mono {m n : Nat} (bits den : Nat) (hbits : 0 < bits) (h : m ≤ n) :
    roundToBits bits m den ≤ roundToBits bits n den := by
  have hq : m / den ≤ n / den := Nat.div_le_div_right h
  have hs : spareBits bits (m / den) ≤ spareBits bits (n / den) := by
    have := log2_mono hq
    simp only [spareBits]
    omega
  by_cases hlt : spareBits bits (m / den) < spareBits bits (n / den)
  · have hm := roundHalfEven_le_two_pow bits m den
    have hn := le_roundHalfEven n (den * 2 ^ spareBits bits (n / den))
    have hlow : 2 ^ (bits - 1) ≤ n / (den * 2 ^ spareBits bits (n / den)) := by
      rw [← Nat.div_div_eq_div_mul, Nat.le_div_iff_mul_le (Nat.two_pow_pos _), ← Nat.pow_add]
      have hne : n / den ≠ 0 := by
        intro h0
        simp [spareBits, h0] at hlt
        omega
      refine Nat.le_trans (Nat.pow_le_pow_right (by decide) ?_) (Nat.log2_self_le hne)
      simp only [spareBits] at hlt ⊢
      omega
    simp only [roundToBits]
    calc
      _ ≤ 2 ^ bits * 2 ^ spareBits bits (m / den) := Nat.mul_le_mul_right _ hm
      _ = 2 ^ (bits + spareBits bits (m / den)) := (Nat.pow_add ..).symm
      _ ≤ 2 ^ (bits - 1 + spareBits bits (n / den)) :=
        Nat.pow_le_pow_right (by decide) (by omega)
      _ = 2 ^ (bits - 1) * 2 ^ spareBits bits (n / den) := Nat.pow_add ..
      _ ≤ _ := Nat.mul_le_mul_right _ (Nat.le_trans hlow hn)
  · have he : spareBits bits (m / den) = spareBits bits (n / den) := by omega
    simp only [roundToBits, he]
    exact Nat.mul_le_mul_right _ (roundHalfEven_mono _ h)

-- A number that has no more bits than asked for stays as it is.
theorem roundToBits_of_hasBits {bits u : Nat} (h : HasBits bits u) : roundToBits bits u 1 = u := by
  obtain ⟨k, hk⟩ := h
  simp only [roundToBits, Nat.div_one, Nat.one_mul]
  generalize spareBits bits u = s at hk
  subst hk
  have hs : 0 < 2 ^ s := Nat.two_pow_pos s
  simp only [roundHalfEven, Nat.mul_mod_left, if_pos hs, Nat.mul_div_cancel k hs, Nat.mul_comm]

-- A rounded quotient has as many bits as were asked for, also where rounding carried into one more.
theorem hasBits_roundToBits {bits : Nat} (num den : Nat) (h : 0 < bits) :
    HasBits bits (roundToBits bits num den) := by
  simp only [roundToBits]
  generalize hs : spareBits bits (num / den) = s
  generalize hm : roundHalfEven num (den * 2 ^ s) = m
  have hle : m ≤ 2 ^ bits := by
    rw [← hm, ← hs]
    exact roundHalfEven_le_two_pow bits num den
  unfold HasBits
  by_cases hz : m = 0
  · simp [hz]
  by_cases hlt : m < 2 ^ bits
  · have hlog : (m * 2 ^ s).log2 < bits + s := by
      rw [Nat.log2_lt (Nat.mul_ne_zero hz (Nat.ne_of_gt (Nat.two_pow_pos _))), Nat.pow_add]
      exact Nat.mul_lt_mul_of_pos_right hlt (Nat.two_pow_pos _)
    exact Nat.dvd_trans (Nat.pow_dvd_pow 2 (by unfold spareBits; omega)) (Nat.dvd_mul_left _ _)
  · have he : m = 2 ^ bits := by omega
    subst he
    rw [← Nat.pow_add]
    exact Nat.pow_dvd_pow 2 (by simp only [spareBits, Nat.log2_two_pow]; omega)

end RowPipeline
