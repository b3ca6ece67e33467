import RowPipeline.Proofs.Clause.Stretches
import RowPipeline.Proofs.Number.Numeral
import RowPipeline.Proofs.Number.Overflow
import RowPipeline.Proofs.Row.Comparing

namespace RowPipeline

open Scan Decimal NumeralStyle

-- A sign, digits, and digits behind a point, if there is one.
structure NumberLiteral where
  negative : Bool
  whole    : List Char
  fraction : Option (List Char)

namespace NumberLiteral

def digits (l : NumberLiteral) : List Char :=
  l.whole ++ l.fraction.getD []

def chars (l : NumberLiteral) : List Char :=
  signChars l.negative ++ (l.whole ++ l.fraction.elim [] ('.' :: ·))

-- Digits may be missing on one side of the point.
structure WellFormed (l : NumberLiteral) : Prop where
  nonempty : l.digits ≠ []
  digits   : ∀ c ∈ l.digits, c.isDigit

-- The number without its sign.
def decimal (l : NumberLiteral) : Decimal where
  coefficient := ofDigits l.digits
  exponent    := -((l.fraction.getD []).length : Int)

-- Without a point, an integer of 64 bits. With a point, the binary64 number that is nearest.
def Denotes (l : NumberLiteral) (value : Value) : Prop :=
  match l.fraction with
  | none => value = .int (signed l.negative l.whole) ∧ Value.inInt64 (signed l.negative l.whole)
  | some _ => ∃ x : Binary64, value = .float x ∧ x.negative = l.negative ∧ l.decimal.RoundsTo x.units

-- There is a point, and the number lies beyond the middle between the largest one and the next power of two.
def TooLarge (l : NumberLiteral) : Prop :=
  l.fraction.isSome ∧ Binary64.overflow ≤ l.decimal.value

variable {l : NumberLiteral} {value : Value} {cursor next : Cursor}

theorem WellFormed.chars_ne_nil (h : l.WellFormed) : l.chars ≠ [] := by
  intro hc
  simp only [chars, List.append_eq_nil_iff] at hc
  apply h.nonempty
  rw [NumberLiteral.digits, hc.right.left]
  cases hf : l.fraction with
  | none => rfl
  | some ds => simp [hf] at hc

theorem Denotes.isNumber (h : l.Denotes value) : value.isNumber := by
  rw [Denotes] at h
  split at h
  case h_1 => rw [h.left]; rfl
  case h_2 =>
    obtain ⟨x, rfl, -⟩ := h
    rfl

theorem denotes_or_tooLarge {negative : Bool} {whole fraction : List Char} {x : Option Binary64}
    (h : (decimal ⟨negative, whole, some fraction⟩).toBinary64 negative = x) :
    let l : NumberLiteral := ⟨negative, whole, some fraction⟩
    l.TooLarge ∧ Value.ofFloat? x = .null ∨ ¬l.TooLarge ∧ l.Denotes (.ofFloat? x) := by
  cases x with
  | none => exact .inl ⟨⟨rfl, toBinary64_eq_none_iff.mp h⟩, rfl⟩
  | some x =>
    refine .inr ⟨fun ho => ?_, x, rfl, roundsTo_of_toBinary64 h⟩
    rw [toBinary64_eq_none_iff.mpr ho.right] at h
    contradiction

theorem rest_of_sign {b : Bool} (h : (char? '-').Yields cursor b next) : cursor.rest = signChars b ++ next.rest := by
  cases b with
  | true => exact rest_of_char? h
  | false =>
    obtain ⟨-, -, rfl⟩ := (yields_char?.mp h).resolve_left nofun
    rfl

theorem spelt_of_yields (h : numberLiteral.Yields cursor value next) :
    ∃ l : NumberLiteral, l.WellFormed ∧ cursor.rest = l.chars ++ next.rest ∧
      (l.TooLarge ∧ value = .null ∨ ¬l.TooLarge ∧ l.Denotes value) := by
  simp only [numberLiteral, yields_bind, yields_ite, not_yields_failAt, and_false, false_or, or_false,
    yields_pure, yields_position] at h
  obtain ⟨_, c₀, ⟨rfl, -⟩, negative, c₁, hs, whole, c₂, hw, point, c₃, hp, h⟩ := h
  have hr : c₀.rest = signChars negative ++ (whole ++ c₂.rest) := by
    rw [rest_of_sign hs, (rest_of_takeWhile hw).left]
  rcases h with ⟨rfl, fraction, c₄, hf, hn, rfl, rfl⟩ | ⟨hb, hn, ⟨hl, hu⟩, rfl, rfl⟩
  case inl =>
    refine ⟨⟨negative, whole, some fraction⟩, ⟨?_, ?_⟩, ?_, denotes_or_tooLarge rfl⟩
    case refine_1 => simpa [digits, List.isEmpty_iff] using hn
    case refine_2 => exact List.forall_mem_append.mpr ⟨(rest_of_takeWhile hw).right, (rest_of_takeWhile hf).right⟩
    case refine_3 =>
      rw [hr, rest_of_char? hp, (rest_of_takeWhile hf).left]
      simp [chars]
  case inr =>
    obtain ⟨-, -, rfl⟩ := (yields_char?.mp hp).resolve_left fun h => hb h.right.left
    refine ⟨⟨negative, whole, none⟩, ⟨?_, ?_⟩, ?_, .inr ⟨mt And.left Bool.false_ne_true, rfl, ?_⟩⟩
    case refine_1 => simpa [digits, List.isEmpty_iff] using hn
    case refine_2 => simpa [digits] using (rest_of_takeWhile hw).right
    case refine_3 => rw [hr]; simp [chars]
    case refine_4 => exact Bool.and_eq_true_iff.mpr ⟨decide_eq_true hl, decide_eq_true hu⟩

theorem reads_sign {negative : Bool} {text : List Char} (h : text.head? ≠ some '-') :
    (char? '-').Reads (· = signChars negative ++ text) negative (· = text) := by
  cases negative with
  | true => exact .char?
  | false => exact .char?_false (by rintro _ rfl; exact h)

-- All literals with a point are read, whatever their size.
theorem reads_chars {negative : Bool} {whole fraction rest : List Char}
    (hw : WellFormed ⟨negative, whole, some fraction⟩) (hr : rest.head?.any Char.isDigit = false) :
    numberLiteral.Reads (· = chars ⟨negative, whole, some fraction⟩ ++ rest)
      (.ofFloat? ((decimal ⟨negative, whole, some fraction⟩).toBinary64 negative)) (· = rest) := by
  have ⟨hd, hf⟩ := List.forall_mem_append.mp hw.digits
  have hc : chars ⟨negative, whole, some fraction⟩ ++ rest =
      signChars negative ++ (whole ++ '.' :: (fraction ++ rest)) := by simp [chars]
  have hm : (whole ++ '.' :: (fraction ++ rest)).head? ≠ some '-' := by
    cases whole with
    | nil => exact nofun
    | cons c whole =>
      rintro ⟨⟩
      exact absurd (hd '-' List.mem_cons_self) (by decide)
  rw [hc]
  refine .position_bind fun start => (reads_sign hm).bind ((Reads.takeWhile hd rfl).bind ?_)
  refine Reads.char?.bind (.ite_pos rfl ((Reads.takeWhile hf hr).bind (.ite_neg ?_ .pure)))
  simpa [digits, List.isEmpty_iff] using hw.nonempty

end NumberLiteral

namespace Scan

open NumberLiteral

variable {value : Value} {cursor next : Cursor}

-- What is read is null exactly if the literal is too large, and then it is equal to whatever is null.
theorem numberLiteral_denotes (h : numberLiteral.Yields cursor value next) :
    ∃ l : NumberLiteral, l.WellFormed ∧ cursor.rest = l.chars ++ next.rest ∧
      (value.isNumber ↔ ¬l.TooLarge) ∧ (value = .null ↔ l.TooLarge) ∧ (¬l.TooLarge → l.Denotes value) ∧
      ∀ (access : Access) (row : Value) (operand : Operand), operand.eval access row = .ok .null →
        (Filter.Compares access row .eq operand (.literal value) ↔ l.TooLarge) ∧
        (Filter.Compares access row .eq (.literal value) operand ↔ l.TooLarge) := by
  have ⟨l, hw, hr, hv⟩ := spelt_of_yields h
  have hn : value = .null ↔ l.TooLarge := by
    rcases hv with ⟨ho, hv⟩ | ⟨ho, hd⟩
    case inl => exact iff_of_true hv ho
    case inr => exact iff_of_false (fun hv => nomatch hv ▸ hd.isNumber) ho
  have hi : value.isNumber ↔ ¬l.TooLarge := by
    rcases hv with ⟨ho, rfl⟩ | ⟨ho, hd⟩
    case inl => exact iff_of_false nofun (not_not_intro ho)
    case inr => exact iff_of_true hd.isNumber ho
  refine ⟨l, hw, hr, hi, hn, fun ho => (hv.resolve_left fun h => ho h.left).right, ?_⟩
  intro access row operand he
  have hl : (Operand.literal value).eval access row = .ok value := by rw [Operand.eval]
  rw [Filter.compares_iff he hl, Filter.compares_iff hl he, ← hn]
  exact ⟨Value.null_equal_iff, Value.equal_null_iff⟩

-- One and 310 zeros before the point, one zero behind it.
def hugeLiteral : NumberLiteral where
  negative := false
  whole    := '1' :: List.replicate 310 '0'
  fraction := some ['0']

theorem yields_hugeLiteral : ∃ next, numberLiteral.Yields ⟨hugeLiteral.chars, 0⟩ .null next := by
  have hw : hugeLiteral.WellFormed := ⟨List.cons_ne_nil _ _, by decide +kernel⟩
  have hz : hugeLiteral.decimal.toBinary64 false = none := by decide +kernel
  have h : numberLiteral.Reads (· = hugeLiteral.chars ++ []) (.ofFloat? (hugeLiteral.decimal.toBinary64 false))
      (· = []) := reads_chars hw rfl
  rw [hz, List.append_nil] at h
  have ⟨next, hy, _⟩ := h ⟨hugeLiteral.chars, 0⟩ rfl
  exact ⟨next, hy⟩

-- It is equal to a member that is null.
theorem numberLiteral_denotes_huge : ∃ next, numberLiteral.Yields ⟨hugeLiteral.chars, 0⟩ .null next ∧
    Filter.Compares ⟨.exact, false⟩ (.object [("A", .null)]) .eq (.path ["A"]) (.literal .null) := by
  have ⟨next, hy⟩ := yields_hugeLiteral
  have ⟨l, _, _, _, hn, _, he⟩ := numberLiteral_denotes hy
  exact ⟨next, hy, (he _ _ _ rfl).left.mpr (hn.mp rfl)⟩

theorem not_isNumber_of_yields :
    ¬∀ cursor value next, numberLiteral.Yields cursor value next → value.isNumber := by
  intro h
  have ⟨next, hy⟩ := yields_hugeLiteral
  exact Bool.false_ne_true (h _ _ _ hy)

end Scan
end RowPipeline
