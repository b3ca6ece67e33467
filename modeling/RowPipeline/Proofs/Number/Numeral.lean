import RowPipeline.Number.Numeral
import RowPipeline.Json.Reader
import RowPipeline.Proofs.Number.Rounding

namespace RowPipeline

namespace Decimal

theorem ofDigits_zeros_append (k : Nat) (ds : List Char) : ofDigits (List.replicate k '0' ++ ds) = ofDigits ds := by
  rw [ofDigits, Nat.ofDigitChars_append, Nat.ofDigitChars_replicate_zero, Nat.mul_zero]
  rfl

theorem ofDigits_append_zeros (ds : List Char) (k : Nat) :
    ofDigits (ds ++ List.replicate k '0') = 10 ^ k * ofDigits ds := by
  rw [ofDigits, Nat.ofDigitChars_append, Nat.ofDigitChars_replicate_zero]
  rfl

end Decimal

-- A number without sign: digits, digits after a point and a power of ten, of which the last two may be missing.
structure Numeral where
  whole    : List Char
  fraction : List Char
  power    : Option Int

namespace Numeral

open Decimal Document

def decimal (n : Numeral) : Decimal where
  coefficient := ofDigits (n.whole ++ n.fraction)
  exponent    := n.power.getD 0 - n.fraction.length

def fractionChars : List Char → List Char
  | [] => []
  | ds => '.' :: ds

def powerChars : Option Int → List Char
  | none => []
  | some k => 'e' :: (if k < 0 then '-' else '+') :: digits k.natAbs

def chars (n : Numeral) : List Char :=
  n.whole ++ (fractionChars n.fraction ++ powerChars n.power)

structure WellFormed (n : Numeral) : Prop where
  whole    : n.whole ≠ [] ∧ ∀ c ∈ n.whole, c.isDigit
  fraction : ∀ c ∈ n.fraction, c.isDigit

-- What a reader makes of the text of a number without sign.
def decimal? (cs : List Char) : Option Decimal := do
  let (whole, rest) := readDigits cs
  let (fraction, rest) ← readFraction rest
  let (power, _) ← readExponent rest
  return decimal ⟨whole, fraction, power⟩

variable {n : Numeral} {ds rest : List Char}

theorem fractionChars_of_ne_nil (h : ds ≠ []) : fractionChars ds = '.' :: ds := by
  cases ds with
  | nil => contradiction
  | cons => rfl

theorem readDigits_append (hd : ∀ c ∈ ds, c.isDigit) (hr : rest.head?.any Char.isDigit = false) :
    readDigits (ds ++ rest) = (ds, rest) := by
  have ht : rest.takeWhile Char.isDigit = [] ∧ rest.dropWhile Char.isDigit = rest := by
    cases rest with
    | nil => exact ⟨rfl, rfl⟩
    | cons c rest =>
      have hc : c.isDigit = false := hr
      exact ⟨List.takeWhile_cons_of_neg (by simp [hc]), List.dropWhile_cons_of_neg (by simp [hc])⟩
  rw [readDigits, List.takeWhile_append_of_pos hd, List.dropWhile_append_of_pos hd, ht.left, ht.right, List.append_nil]

theorem not_isDigit_powerChars (power : Option Int) : (powerChars power).head?.any Char.isDigit = false := by
  cases power with
  | none => rfl
  | some => rfl

theorem readFraction_append (hd : ∀ c ∈ ds, c.isDigit) (power : Option Int) :
    readFraction (fractionChars ds ++ powerChars power) = some (ds, powerChars power) := by
  cases ds with
  | nil =>
    cases power with
    | none => rfl
    | some => rfl
  | cons d ds =>
    have h := readDigits_append hd (not_isDigit_powerChars power)
    simp only [fractionChars, List.cons_append, readFraction]
    rw [← List.cons_append, h]
    exact if_neg (List.cons_ne_nil d ds)

theorem readExponent_powerChars (power : Option Int) : readExponent (powerChars power) = some (power, []) := by
  cases power with
  | none => rfl
  | some k =>
    have h : readDigits (digits k.natAbs) = (digits k.natAbs, []) := by
      have hd : ∀ c ∈ digits k.natAbs, c.isDigit := fun c => isDigit_of_mem_digits
      have h : readDigits (digits k.natAbs ++ []) = (digits k.natAbs, []) := readDigits_append hd rfl
      rwa [List.append_nil] at h
    by_cases hk : k < 0
    case pos =>
      have hn : -(k.natAbs : Int) = k := by omega
      simp only [powerChars, hk, readExponent, h, digits_ne_nil, ofDigits_digits, true_or, if_true, if_false, hn]
    case neg =>
      have hn : (k.natAbs : Int) = k := by omega
      simp only [powerChars, hk, readExponent, h, digits_ne_nil, ofDigits_digits, true_or, if_true, if_false, hn]
      rfl

theorem decimal?_chars (h : n.WellFormed) : decimal? n.chars = some n.decimal := by
  have hr : (fractionChars n.fraction ++ powerChars n.power).head?.any Char.isDigit = false := by
    cases hf : n.fraction with
    | nil => exact not_isDigit_powerChars n.power
    | cons => rfl
  simp only [decimal?, chars, readDigits_append h.whole.right hr, readFraction_append h.fraction, Option.bind_eq_bind,
    Option.bind_some, readExponent_powerChars]
  rfl

end Numeral

namespace NumeralStyle

open Decimal Numeral

variable {ds : List Char}

theorem isDigit_replicate (m : Nat) : ∀ c ∈ List.replicate m '0', c.isDigit := by
  intro c hc
  rw [List.eq_of_mem_replicate hc]
  rfl

-- The two layouts of digits at a magnitude are numerals of the same value.
theorem exists_positional (k : Int) (hn : ds ≠ []) (hd : ∀ c ∈ ds, c.isDigit) : ∃ n : Numeral, n.WellFormed ∧
    row.positional ds k = n.chars ∧ n.fraction ≠ [] ∧
      n.decimal.value = (ofDigits ds : ℚ) * 10 ^ (k + 1 - ds.length) := by
  rw [positional]
  split
  case isTrue hk =>
    have hf : List.replicate (k.natAbs - 1) '0' ++ ds ≠ [] := List.append_ne_nil_of_right_ne_nil _ hn
    have ho : ofDigits (['0'] ++ (List.replicate (k.natAbs - 1) '0' ++ ds)) = ofDigits ds :=
      (ofDigits_zeros_append 1 _).trans (ofDigits_zeros_append _ ds)
    have he : (0 : Int) - ((List.replicate (k.natAbs - 1) '0' ++ ds).length : Nat) = k + 1 - ds.length := by
      rw [List.length_append, List.length_replicate]
      omega
    refine ⟨⟨['0'], _, none⟩, ⟨⟨List.cons_ne_nil _ _, isDigit_replicate 1⟩, ?_⟩, ?_, hf, ?_⟩
    case refine_1 => exact List.forall_mem_append.mpr ⟨isDigit_replicate _, hd⟩
    case refine_2 => rw [Numeral.chars, fractionChars_of_ne_nil hf]; simp [powerChars]
    case refine_3 => rw [value, ← he, ← ho]; rfl
  case isFalse hk =>
    obtain ⟨m, rfl⟩ := Int.eq_ofNat_of_zero_le (Int.not_lt.mp hk)
    rw [Int.toNat_natCast]
    simp only []
    split
    case isTrue hl =>
      have ho : ofDigits (ds ++ List.replicate (m + 1 - ds.length) '0' ++ ['0']) =
          10 ^ (m + 1 - ds.length + 1) * ofDigits ds := by
        rw [List.append_assoc, ← List.replicate_succ', ofDigits_append_zeros]
      have he : (m : Int) + 1 - ds.length = (m + 1 - ds.length : Nat) := by omega
      refine ⟨⟨ds ++ List.replicate (m + 1 - ds.length) '0', ['0'], none⟩,
        ⟨⟨List.append_ne_nil_of_left_ne_nil hn _, ?_⟩, isDigit_replicate 1⟩, rfl, List.cons_ne_nil _ _, ?_⟩
      case refine_1 => exact List.forall_mem_append.mpr ⟨hd, isDigit_replicate _⟩
      case refine_2 =>
        rw [value, decimal, ho, he, zpow_natCast, pow_succ]
        push_cast
        simp
        ring
    case isFalse hl =>
      have hf : ds.drop (m + 1) ≠ [] := by
        intro h
        exact hl (List.drop_eq_nil_iff.mp h)
      have he : (0 : Int) - ((ds.drop (m + 1)).length : Nat) = m + 1 - ds.length := by
        rw [List.length_drop]
        omega
      refine ⟨⟨ds.take (m + 1), ds.drop (m + 1), none⟩, ⟨⟨?_, ?_⟩, ?_⟩, ?_, hf, ?_⟩
      case refine_1 => simpa using hn
      case refine_2 => exact fun c hc => hd c (List.mem_of_mem_take hc)
      case refine_3 => exact fun c hc => hd c (List.mem_of_mem_drop hc)
      case refine_4 => rw [Numeral.chars, fractionChars_of_ne_nil hf]; simp [powerChars]
      case refine_5 => rw [value, ← he, decimal, List.take_append_drop]; rfl

theorem exists_exponential (k : Int) (hn : ds ≠ []) (hd : ∀ c ∈ ds, c.isDigit) : ∃ n : Numeral, n.WellFormed ∧
    row.exponential ds k = n.chars ∧ n.power.isSome ∧
      n.decimal.value = (ofDigits ds : ℚ) * 10 ^ (k + 1 - ds.length) := by
  obtain ⟨d, ds, rfl⟩ := List.exists_cons_of_ne_nil hn
  have ⟨hd, hds⟩ := List.forall_mem_cons.mp hd
  refine ⟨⟨[d], ds, some k⟩, ⟨⟨List.cons_ne_nil _ _, List.forall_mem_singleton.mpr hd⟩, hds⟩, ?_, rfl, ?_⟩
  case refine_1 =>
    have hs : (if k < 0 then row.minus else row.plus) = [if k < 0 then '-' else '+'] := by
      split <;> rfl
    unfold exponential
    simp only [hs]
    cases ds with
    | nil => rfl
    | cons e ds => simp [Numeral.chars, fractionChars, powerChars, row]
  case refine_2 =>
    have he : k - (ds.length : Nat) = k + 1 - (d :: ds).length := by
      rw [List.length_cons]
      omega
    rw [value, ← he]
    rfl

def signChars (negative : Bool) : List Char :=
  if negative then ['-'] else []

-- The text of a number is a sign and a numeral that rounds to the number, with a point or a power of ten.
theorem exists_numeral (x : Binary64) : ∃ n : Numeral, n.WellFormed ∧ (n.fraction ≠ [] ∨ n.power.isSome) ∧
    n.decimal.RoundsTo x.units ∧ row.chars x = signChars x.negative ++ n.chars := by
  simp only [NumeralStyle.chars]
  split
  case isTrue hx =>
    refine ⟨⟨['0'], ['0'], none⟩, ⟨⟨List.cons_ne_nil _ _, isDigit_replicate 1⟩, isDigit_replicate 1⟩,
      .inl (List.cons_ne_nil _ _), ?_, rfl⟩
    rw [hx]
    exact roundsTo_zero (zero_mul _)
  case isFalse hx =>
    have hn : digits x.shortest.coefficient ≠ [] := digits_ne_nil
    have hd : ∀ c ∈ digits x.shortest.coefficient, c.isDigit := fun c => isDigit_of_mem_digits
    have hv : ∀ n : Numeral, n.decimal.value = (ofDigits (digits x.shortest.coefficient) : ℚ) *
        10 ^ (x.shortest.magnitude + 1 - (digits x.shortest.coefficient).length) → n.decimal.RoundsTo x.units := by
      intro n h
      have he : x.shortest.magnitude + 1 - (digits x.shortest.coefficient).length = x.shortest.exponent := by
        rw [magnitude]
        omega
      rw [ofDigits_digits, he] at h
      exact (Binary64.roundsTo_shortest hx).congr h.symm
    split
    case isTrue =>
      have ⟨n, hw, hc, hf, h⟩ := exists_positional x.shortest.magnitude hn hd
      exact ⟨n, hw, .inl hf, hv n h, by rw [hc]; rfl⟩
    case isFalse =>
      have ⟨n, hw, hc, hp, h⟩ := exists_exponential x.shortest.magnitude hn hd
      exact ⟨n, hw, .inr hp, hv n h, by rw [hc]; rfl⟩

theorem head?_numeral {n : Numeral} (h : n.WellFormed) : ∃ c, n.chars.head? = some c ∧ c.isDigit := by
  have ⟨c, cs, hc⟩ := List.exists_cons_of_ne_nil h.whole.left
  have hd := h.whole.right c (hc ▸ List.mem_cons_self)
  exact ⟨c, by rw [Numeral.chars, hc]; rfl, hd⟩

theorem signChars_append_inj {s t : Bool} {n m : Numeral} (hn : n.WellFormed) (hm : m.WellFormed)
    (h : signChars s ++ n.chars = signChars t ++ m.chars) : s = t ∧ n.chars = m.chars := by
  have hs : ∀ {k : Numeral}, k.WellFormed → k.chars.head? ≠ some '-' := by
    intro k hk hc
    have ⟨c, hc', hd⟩ := head?_numeral hk
    rw [hc, Option.some_inj] at hc'
    rw [← hc'] at hd
    contradiction
  cases s with
  | false =>
    cases t with
    | false => exact ⟨rfl, h⟩
    | true => exact absurd (congrArg List.head? h) (hs hn)
  | true =>
    cases t with
    | false => exact absurd (congrArg List.head? h).symm (hs hm)
    | true => exact ⟨rfl, List.tail_eq_of_cons_eq h⟩

-- Numbers of the same text are read as the same number.
theorem chars_injective {x y : Binary64} (h : row.chars x = row.chars y) : x = y := by
  have ⟨n, hn, _, hx, hcx⟩ := exists_numeral x
  have ⟨m, hm, _, hy, hcy⟩ := exists_numeral y
  rw [hcx, hcy] at h
  have ⟨hs, hc⟩ := signChars_append_inj hn hm h
  have hd : n.decimal = m.decimal := by
    have hd := decimal?_chars hn
    rw [hc, decimal?_chars hm] at hd
    exact (Option.some.inj hd).symm
  have hu : x.units = y.units := hx.unique hy (congrArg Decimal.value hd)
  cases x
  cases y
  cases hs
  cases hu
  rfl

end NumeralStyle

-- What numerals of integers consist of, and what other numerals have in addition.
section Characters

open Decimal NumeralStyle

variable {x : Binary64} {k : Int} {c : Char}

def isIntegerChar (c : Char) : Bool :=
  c.isDigit || c = '-'

def isNumeralChar (c : Char) : Bool :=
  isIntegerChar c || c = '.' || c = 'e' || c = '+'

theorem isIntegerChar_of_mem_intChars (h : c ∈ intChars k) : isIntegerChar c := by
  rw [intChars] at h
  split at h
  case isTrue =>
    rcases List.mem_cons.mp h with rfl | h
    case inl => rfl
    case inr => simp [isIntegerChar, isDigit_of_mem_digits h]
  case isFalse => simp [isIntegerChar, isDigit_of_mem_digits h]

theorem isNumeralChar_of_mem_intChars (h : c ∈ intChars k) : isNumeralChar c := by
  simp [isNumeralChar, isIntegerChar_of_mem_intChars h]

theorem exists_lead_chars (x : Binary64) : ∃ c cs, row.chars x = c :: cs ∧ isIntegerChar c := by
  have ⟨n, hn, _, _, hc⟩ := exists_numeral x
  rw [hc]
  cases x.negative with
  | true => exact ⟨'-', n.chars, rfl, rfl⟩
  | false =>
    have ⟨c, hc, hd⟩ := head?_numeral hn
    have ⟨cs, hcs⟩ := List.head?_eq_some_iff.mp hc
    exact ⟨c, cs, hcs, by simp [isIntegerChar, hd]⟩

theorem isNumeralChar_of_isDigit (h : c.isDigit) : isNumeralChar c := by
  simp [isNumeralChar, isIntegerChar, h]

theorem isNumeralChar_of_mem_chars (h : c ∈ row.chars x) : isNumeralChar c := by
  have ⟨n, hn, _, _, hc⟩ := exists_numeral x
  rw [hc, Numeral.chars, List.mem_append, List.mem_append, List.mem_append] at h
  rcases h with h | h | h | h
  case inl =>
    cases hs : x.negative with
    | false => rw [hs] at h; contradiction
    | true => rw [hs] at h; cases List.mem_singleton.mp h; rfl
  case inr.inl => exact isNumeralChar_of_isDigit (hn.whole.right c h)
  case inr.inr.inl =>
    by_cases hf : n.fraction = []
    case pos => rw [hf] at h; contradiction
    case neg =>
      rw [Numeral.fractionChars_of_ne_nil hf] at h
      rcases List.mem_cons.mp h with rfl | h
      case inl => rfl
      case inr => exact isNumeralChar_of_isDigit (hn.fraction c h)
  case inr.inr.inr =>
    cases hp : n.power with
    | none => rw [hp] at h; contradiction
    | some k =>
      rw [hp] at h
      rcases List.mem_cons.mp h with rfl | h
      case inl => rfl
      case inr =>
        rcases List.mem_cons.mp h with rfl | h
        case inl => split <;> rfl
        case inr => exact isNumeralChar_of_isDigit (isDigit_of_mem_digits h)

-- No integer has the numeral of a binary64 number.
theorem exists_not_isIntegerChar (x : Binary64) : ∃ c ∈ row.chars x, isIntegerChar c = false := by
  have ⟨n, _, hm, _, hc⟩ := exists_numeral x
  rw [hc, Numeral.chars]
  rcases hm with hf | hp
  case inl =>
    refine ⟨'.', ?_, rfl⟩
    simp [Numeral.fractionChars_of_ne_nil hf]
  case inr =>
    have ⟨k, hk⟩ := Option.isSome_iff_exists.mp hp
    refine ⟨'e', ?_, rfl⟩
    simp [hk, Numeral.powerChars]

theorem intChars_ne_chars (k : Int) (x : Binary64) : intChars k ≠ row.chars x := by
  intro h
  have ⟨c, hc, hn⟩ := exists_not_isIntegerChar x
  rw [isIntegerChar_of_mem_intChars (h ▸ hc)] at hn
  contradiction

theorem intChars_ne_nil (k : Int) : intChars k ≠ [] := by
  rw [intChars]
  split
  case isTrue => exact List.cons_ne_nil _ _
  case isFalse => exact digits_ne_nil

theorem intChars_injective {j k : Int} (h : intChars j = intChars k) : j = k := by
  have hd : ∀ i : Int, (intChars i).head? = some '-' ↔ i < 0 := by
    intro i
    rw [intChars]
    split
    case isTrue hi => exact iff_of_true rfl hi
    case isFalse hi =>
      apply iff_of_false _ hi
      intro hm
      have hd := isDigit_of_mem_digits (List.mem_of_head? hm)
      contradiction
  have hs : j < 0 ↔ k < 0 := by rw [← hd, ← hd, h]
  have hn : digits j.natAbs = digits k.natAbs := by
    by_cases hj : j < 0
    case pos =>
      rw [intChars, intChars, if_pos hj, if_pos (hs.mp hj)] at h
      exact List.tail_eq_of_cons_eq h
    case neg => rwa [intChars, intChars, if_neg hj, if_neg (mt hs.mpr hj)] at h
  have ha : j.natAbs = k.natAbs := by rw [← ofDigits_digits j.natAbs, hn, ofDigits_digits]
  omega

end Characters
end RowPipeline
