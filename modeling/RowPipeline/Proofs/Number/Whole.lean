import RowPipeline.Proofs.Number.Rounding

namespace RowPipeline

section Bits

variable {bits k m : Nat}

theorem log2_mul_two_pow (hm : m ≠ 0) : (m * 2 ^ k).log2 = m.log2 + k := by
  induction k with
  | zero => simp
  | succ k ih =>
    have hk : m * 2 ^ k ≠ 0 := Nat.mul_ne_zero hm (Nat.ne_of_gt (Nat.two_pow_pos k))
    rw [Nat.pow_succ', Nat.mul_left_comm, Nat.log2_two_mul hk, ih, Nat.add_assoc]

theorem hasBits_of_log2 (h : m.log2 < bits) : HasBits bits m := by
  rw [HasBits, spareBits, Nat.sub_eq_zero_of_le h, Nat.pow_zero]
  exact Nat.one_dvd m

theorem HasBits.mul_two_pow (h : HasBits bits m) : HasBits bits (m * 2 ^ k) := by
  by_cases hm : m = 0
  case pos => simp [hm, HasBits]
  case neg =>
    have hs : spareBits bits (m * 2 ^ k) ≤ spareBits bits m + k := by
      rw [spareBits, spareBits, log2_mul_two_pow hm]
      omega
    exact (Nat.pow_dvd_pow 2 hs).trans (Nat.pow_add .. ▸ Nat.mul_dvd_mul_right h (2 ^ k))

-- The same bits are dropped at another place.
theorem roundToBits_mul_two_pow (bits m k : Nat) : roundToBits bits (m * 2 ^ k) 1 = roundToBits bits m 1 * 2 ^ k := by
  by_cases h : HasBits bits m
  case pos => rw [roundToBits_of_hasBits h, roundToBits_of_hasBits h.mul_two_pow]
  case neg =>
    have hm : m ≠ 0 := fun hm => h (hm ▸ Nat.dvd_zero _)
    have hl : bits ≤ m.log2 := Nat.le_of_not_lt (mt hasBits_of_log2 h)
    have hs : spareBits bits (m * 2 ^ k) = spareBits bits m + k := by
      rw [spareBits, spareBits, log2_mul_two_pow hm]
      omega
    simp only [roundToBits, Nat.div_one, Nat.one_mul, hs]
    rw [Nat.pow_add, roundHalfEven_mul (Nat.two_pow_pos k), Nat.mul_assoc]

end Bits

namespace Binary64

variable {x y : Binary64} {a b n k : Int} {ns : List Int}

theorem one_pos : (0 : Int) < one := by
  decide +kernel

theorem mul_one_neg_iff : n * one < 0 ↔ n < 0 := by
  have ho := one_pos
  generalize (one : Int) = o at ho ⊢
  exact ⟨fun h => Int.neg_of_mul_neg_left h ho, fun h => Int.mul_neg_of_neg_of_pos h ho⟩

theorem toInt?_eq_some : x.toInt? = some n ↔ x.signed = n * one := by
  have ho : (one : Int) ≠ 0 := Int.ne_of_gt one_pos
  have hu : ∀ k : Int, (x.units : Int) = k * one ↔ x.units % one = 0 ∧ ((x.units / one : Nat) : Int) = k := by
    intro k
    rw [Int.natCast_ediv, ← Int.natCast_inj, Int.natCast_mod, Int.natCast_zero]
    constructor
    case mp =>
      intro h
      rw [h]
      exact ⟨Int.mul_emod_left k one, Int.mul_ediv_cancel k ho⟩
    case mpr =>
      intro ⟨hm, hd⟩
      rw [← hd]
      exact (Int.ediv_mul_cancel (Int.dvd_of_emod_eq_zero hm)).symm
  rw [toInt?, signed]
  cases x.negative with
  | false =>
    simp only [Bool.false_eq_true, if_false, hu]
    split
    case isTrue h => rw [Option.some_inj, and_iff_right h]
    case isFalse h => exact iff_of_false nofun fun hc => h hc.left
  | true =>
    have hn : -(x.units : Int) = n * one ↔ (x.units : Int) = -n * one := by
      rw [Int.neg_mul]
      omega
    simp only [if_true, hn, hu]
    split
    case isTrue h => rw [Option.some_inj, and_iff_right h, Int.neg_eq_comm, eq_comm]
    case isFalse h => exact iff_of_false nofun fun hc => h hc.left

theorem units_of_signed (h : x.signed = n * one) : n.natAbs * one = x.units := by
  have ha : x.signed.natAbs = x.units := by
    rw [signed]
    split <;> simp
  rw [← ha, h, Int.natAbs_mul, Int.natAbs_natCast]

-- An integer that is a binary64 number is rounded to this number.
theorem signedOfInt_of_signed (h : x.signed = n * one) : signedOfInt n = x.signed := by
  have hn : n < 0 ↔ x.signed < 0 := by rw [h, mul_one_neg_iff]
  simp only [signedOfInt, units_of_signed h, roundToBits_of_hasBits x.bits, hn]
  rw [signed]
  split <;> split <;> omega

theorem eq_of_signed (h : x.signed = y.signed) (hx : x.signed ≠ 0) : x = y := by
  have hs : x.negative = y.negative ∧ x.units = y.units := by
    rw [signed] at h hx
    rw [signed] at h
    cases hn : x.negative <;> cases hm : y.negative <;> simp [hn, hm] at h hx ⊢ <;> omega
  cases x
  cases y
  cases hs.left
  cases hs.right
  rfl

-- The integer nearest to this one among the numbers of the format.
def nearestInt? (n : Int) : Option Int :=
  if roundToBits 53 n.natAbs 1 < 2 ^ 1024 then some (n.sign * roundToBits 53 n.natAbs 1) else none

-- The sum from left to right, with every term and every sum rounded.
def sumInts? (ns : List Int) : Option Int :=
  ns.foldl (fun total n => do nearestInt? ((← total) + (← nearestInt? n))) (some 0)

-- The integer is a number of the format.
def IsExact (n : Int) : Prop :=
  ∃ x : Binary64, x.toInt? = some n

-- The number is the integer, and both are there or none.
def Agree : Option Binary64 → Option Int → Prop :=
  Option.Rel fun x k => x.signed = k * one

theorem ceiling_eq : ceiling = 2 ^ 1024 * one := by
  decide +kernel

theorem roundToBits_mul_one (m : Nat) : roundToBits 53 (m * one) 1 = roundToBits 53 m 1 * one :=
  roundToBits_mul_two_pow 53 m 1074

theorem mul_one_lt_ceiling {m : Nat} : m * one < ceiling ↔ m < 2 ^ 1024 := by
  rw [ceiling_eq]
  exact Nat.mul_lt_mul_right (Int.natCast_pos.mp one_pos)

theorem agree_ofRatio {negative : Bool} (hn : n < 0 → negative = true) (hp : 0 < n → negative = false) :
    Agree (ofRatio negative (n.natAbs * one) 1) (nearestInt? n) := by
  have hc : roundToBits 53 (n.natAbs * one) 1 < ceiling ↔ roundToBits 53 n.natAbs 1 < 2 ^ 1024 := by
    rw [roundToBits_mul_one, mul_one_lt_ceiling]
  rw [ofRatio, nearestInt?]
  by_cases h : roundToBits 53 n.natAbs 1 < 2 ^ 1024
  case neg =>
    rw [dif_neg (mt hc.mp h), if_neg h]
    exact .none
  case pos =>
    rw [dif_pos (hc.mpr h), if_pos h]
    refine .some ?_
    simp only [signed, roundToBits_mul_one, Int.natCast_mul]
    rcases Int.lt_trichotomy n 0 with hl | rfl | hg
    case inl => rw [hn hl, if_pos rfl, Int.sign_eq_neg_one_of_neg hl, Int.neg_one_mul, Int.neg_mul]
    case inr.inl =>
      have hz : roundToBits 53 (Int.natAbs 0) 1 = 0 := by decide
      rw [hz, Int.natCast_zero, Int.zero_mul, Int.mul_zero, Int.zero_mul, Int.neg_zero, ite_self]
    case inr.inr => rw [hp hg, if_neg Bool.false_ne_true, Int.sign_eq_one_of_pos hg, Int.one_mul]

theorem agree_ofInt (n : Int) : Agree (ofInt n) (nearestInt? n) :=
  agree_ofRatio decide_eq_true fun h => decide_eq_false (not_lt_of_gt h)

theorem agree_add (hx : x.signed = a * one) (hy : y.signed = b * one) : Agree (x.add y) (nearestInt? (a + b)) := by
  have hs : x.signed + y.signed = (a + b) * one := by rw [hx, hy, Int.add_mul]
  have hu : ((a + b) * one).natAbs = (a + b).natAbs * one := by rw [Int.natAbs_mul, Int.natAbs_natCast]
  rw [add]
  simp only [hs, hu]
  refine agree_ofRatio (fun h => ?_) fun h => ?_
  case refine_1 =>
    have hm := mul_one_neg_iff.mpr h
    rw [if_neg (Int.ne_of_lt hm), decide_eq_true hm]
  case refine_2 =>
    have hm := Int.mul_pos h one_pos
    rw [if_neg (Int.ne_of_gt hm), decide_eq_false (not_lt_of_gt hm)]

theorem agree_sum (ns : List Int) : Agree (Binary64.sum (ns.map ofInt)) (sumInts? ns) := by
  rw [Binary64.sum, List.foldl_map]
  refine List.foldl_rel (.some ?_) fun n _ total k h => ?_
  case refine_1 => rw [Int.zero_mul]; rfl
  case refine_2 =>
    have hn := agree_ofInt n
    generalize ofInt n = y, nearestInt? n = m at hn ⊢
    cases h with
    | none => exact .none
    | some hx =>
      cases hn with
      | none => exact .none
      | some hy =>
        simp only [Option.bind_eq_bind, Option.bind_some]
        exact agree_add hx hy

theorem Agree.bind_toInt? {x : Option Binary64} {k : Option Int} (h : Agree x k) : x.bind toInt? = k := by
  cases h with
  | none => rfl
  | some hx => exact toInt?_eq_some.mpr hx

theorem isExact_iff : IsExact n ↔ nearestInt? n = some n := by
  constructor
  case mp =>
    intro ⟨x, hx⟩
    have hu := units_of_signed (toInt?_eq_some.mp hx)
    have hb : n.natAbs < 2 ^ 1024 := mul_one_lt_ceiling.mp (hu ▸ x.bounded)
    have hr : roundToBits 53 n.natAbs 1 = n.natAbs := by
      refine Nat.eq_of_mul_eq_mul_right (Int.natCast_pos.mp one_pos) ?_
      rw [← roundToBits_mul_one, hu, roundToBits_of_hasBits x.bits]
    rw [nearestInt?, hr, if_pos hb, Int.sign_mul_natAbs]
  case mpr =>
    intro h
    have ha := h ▸ agree_ofInt n
    generalize ofInt n = y at ha
    cases ha with
    | some hx => exact ⟨_, toInt?_eq_some.mpr hx⟩

-- All integers from -2 ^ 53 to 2 ^ 53 are numbers of the format.
theorem isExact_of_natAbs_le (h : n.natAbs ≤ 2 ^ 53) : IsExact n := by
  have hb : HasBits 53 n.natAbs := by
    rcases Nat.lt_or_eq_of_le h with h | h
    case inl =>
      refine hasBits_of_log2 ?_
      by_cases hz : n.natAbs = 0
      case pos => rw [hz]; decide
      case neg => exact (Nat.log2_lt hz).mpr h
    case inr => rw [h]; decide
  have hp : 2 ^ 53 < 2 ^ 1024 := by
    rw [Nat.pow_lt_pow_iff_right (by decide)]
    decide
  have hl : n.natAbs < 2 ^ 1024 := Nat.lt_of_le_of_lt h hp
  rw [isExact_iff, nearestInt?, roundToBits_of_hasBits hb, if_pos hl, Int.sign_mul_natAbs]

theorem sumInts?_concat (ns : List Int) (n : Int) :
    sumInts? (ns ++ [n]) = (do nearestInt? ((← sumInts? ns) + (← nearestInt? n))) := by
  rw [sumInts?, List.foldl_append]
  rfl

theorem sumInts?_of_isExact (hn : ∀ n ∈ ns, IsExact n) (hs : ∀ before, before <+: ns → IsExact before.sum) :
    sumInts? ns = some ns.sum := by
  induction ns using List.reverseRecOn with
  | nil => rfl
  | append_singleton ns n ih =>
    have hl := isExact_iff.mp (hn n (by simp))
    have hb := ih (fun m hm => hn m (List.mem_append_left _ hm)) fun before hp => hs before (hp.trans (List.prefix_append ..))
    have ht := isExact_iff.mp (hs _ List.prefix_rfl)
    rw [sumInts?_concat, hb, hl]
    simpa using ht

end Binary64
end RowPipeline
