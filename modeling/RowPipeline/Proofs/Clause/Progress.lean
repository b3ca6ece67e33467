import RowPipeline.Proofs.Clause.GrammarLocality

namespace RowPipeline

open Scan

variable {text : String} {p : Nat}

-- The number of bytes of a text up to somewhere between two of its characters.
def IsPlace (text : String) (p : Nat) : Prop :=
  ∃ before after, text = before ++ after ∧ p = before.utf8ByteSize

namespace IsPlace

theorem le (h : IsPlace text p) : p ≤ text.utf8ByteSize := by
  obtain ⟨before, after, rfl, rfl⟩ := h
  rw [String.utf8ByteSize_append]
  exact Nat.le_add_right ..

-- Texts can be cut there.
theorem isValid (h : IsPlace text p) : (⟨p⟩ : String.Pos.Raw).IsValid text := by
  obtain ⟨before, after, rfl, rfl⟩ := h
  exact String.Pos.Raw.isValid_iff_exists_append.mpr ⟨before, after, rfl, rfl⟩

end IsPlace

namespace Cursor

variable {cursor next : Cursor}

-- The cursor is at a place of the text, and what is left is the text from there.
def StandsIn (cursor : Cursor) (text : String) : Prop :=
  ∃ before, text = before ++ String.ofList cursor.rest ∧ cursor.position = before.utf8ByteSize

theorem standsIn_ofString (text : String) : (ofString text).StandsIn text :=
  ⟨"", by simp [ofString], by simp [ofString]⟩

-- Something can always have been in front.
theorem exists_standsIn (cursor : Cursor) : ∃ text, cursor.StandsIn text := by
  refine ⟨_, String.ofList (List.replicate cursor.position 'a'), rfl, ?_⟩
  induction cursor.position with
  | zero => rfl
  | succ n ih =>
    rw [List.replicate_succ, String.ofList_cons, String.utf8ByteSize_append, ← ih, String.utf8ByteSize_singleton,
      Nat.add_comm]
    rfl

theorem StandsIn.isPlace (h : cursor.StandsIn text) : IsPlace text cursor.position := by
  obtain ⟨before, ht, hp⟩ := h
  exact ⟨before, _, ht, hp⟩

theorem foldl_utf8Size (cs : List Char) (p : Nat) :
    cs.foldl (fun bytes c => bytes + c.utf8Size) p = p + (String.ofList cs).utf8ByteSize := by
  induction cs generalizing p with
  | nil => simp
  | cons c cs ih =>
    rw [List.foldl_cons, ih, String.ofList_cons, String.utf8ByteSize_append, String.utf8ByteSize_singleton,
      Nat.add_assoc]

theorem position_advance (cursor : Cursor) (n : Nat) :
    (cursor.advance n).position = cursor.position + (String.ofList (cursor.rest.take n)).utf8ByteSize :=
  foldl_utf8Size _ _

theorem StandsIn.advance (h : cursor.StandsIn text) (n : Nat) : (cursor.advance n).StandsIn text := by
  obtain ⟨before, ht, hp⟩ := h
  refine ⟨before ++ String.ofList (cursor.rest.take n), ?_, ?_⟩
  case refine_1 =>
    rw [ht, String.append_assoc, ← String.ofList_append]
    exact congrArg (before ++ String.ofList ·) (List.take_append_drop n cursor.rest).symm
  case refine_2 => rw [position_advance, hp, String.utf8ByteSize_append]

theorem StandsIn.position_add (h : cursor.StandsIn text) :
    cursor.position + (String.ofList cursor.rest).utf8ByteSize = text.utf8ByteSize := by
  obtain ⟨before, rfl, hp⟩ := h
  rw [hp, String.utf8ByteSize_append]

-- The cursor moves by the bytes of what is read.
theorem StandsIn.position_of_rest {cs : List Char} (h : cursor.StandsIn text) (h' : next.StandsIn text)
    (hr : cursor.rest = cs ++ next.rest) : next.position = cursor.position + (String.ofList cs).utf8ByteSize := by
  have hp := h.position_add
  rw [← h'.position_add, hr, String.ofList_append, String.utf8ByteSize_append] at hp
  omega

-- In one text, what is left tells where the cursor is.
theorem StandsIn.eq_of_rest (h : cursor.StandsIn text) (h' : next.StandsIn text) (hr : next.rest = cursor.rest) :
    next = cursor := by
  have hp := h.position_add
  rw [← h'.position_add, hr] at hp
  cases cursor
  cases next
  cases hr
  exact congrArg _ (Nat.add_right_cancel hp).symm

theorem utf8ByteSize_lt_of_suffix {rest rest' : List Char} (h : rest' <:+ rest) (hl : rest'.length < rest.length) :
    (String.ofList rest').utf8ByteSize < (String.ofList rest).utf8ByteSize := by
  obtain ⟨cs, rfl⟩ := h
  cases cs with
  | nil => exact absurd hl (Nat.lt_irrefl _)
  | cons c cs =>
    have hc := c.utf8Size_pos
    rw [List.cons_append, String.ofList_cons, String.ofList_append, String.utf8ByteSize_append,
      String.utf8ByteSize_append, String.utf8ByteSize_singleton]
    omega

-- Less is left further ahead.
theorem StandsIn.position_lt (h : cursor.StandsIn text) (h' : next.StandsIn text) (hs : next.rest <:+ cursor.rest)
    (hl : next.rest.length < cursor.rest.length) : cursor.position < next.position := by
  have hb := utf8ByteSize_lt_of_suffix hs hl
  have hp := h.position_add
  have hp' := h'.position_add
  omega

end Cursor

namespace Scan

variable {α β σ : Type} {m : Scan α} {x : α} {cursor next : Cursor} {e : SyntaxError}

-- In each of its steps, the reader is at a place of the text. It never takes more characters than are left, and
-- places are what errors are reported at.
inductive Treads (text : String) : {α : Type} → Scan α → Cursor → Prop
  | pure {α : Type} {x : α} {cursor : Cursor} (h : cursor.StandsIn text) : Treads text (pure x : Scan α) cursor
  | look {cursor : Cursor} (h : cursor.StandsIn text) : Treads text (get : Scan Cursor) cursor
  | move {n : Nat} {cursor : Cursor} (h : cursor.StandsIn text) (hn : n ≤ cursor.rest.length) :
    Treads text (modify (·.advance n) : Scan PUnit) cursor
  | fail {α : Type} {p : Nat} {fault : SyntaxFault} {cursor : Cursor} (h : cursor.StandsIn text) (hp : IsPlace text p) :
    Treads text (failAt p fault : Scan α) cursor
  | bind {α β : Type} {m : Scan α} {f : α → Scan β} {cursor : Cursor} (hm : Treads text m cursor)
    (hf : ∀ {x next}, m.Yields cursor x next → Treads text (f x) next) : Treads text (m >>= f) cursor

namespace Treads

-- The reader never goes back.
theorem of_yields (h : Treads text m cursor) (hy : m.Yields cursor x next) :
    next.StandsIn text ∧ next.rest <:+ cursor.rest ∧ cursor.position ≤ next.position := by
  induction h generalizing next with
  | pure h =>
    obtain ⟨-, rfl⟩ := yields_pure.mp hy
    exact ⟨h, List.suffix_rfl, Nat.le_refl _⟩
  | look h =>
    obtain ⟨-, rfl⟩ := yields_get.mp hy
    exact ⟨h, List.suffix_rfl, Nat.le_refl _⟩
  | move h =>
    rw [yields_modify.mp hy]
    exact ⟨h.advance _, List.drop_suffix _ _, Cursor.position_advance .. ▸ Nat.le_add_right ..⟩
  | fail => exact absurd hy not_yields_failAt
  | bind _ _ ih ihf =>
    obtain ⟨x, mid, hx, hy⟩ := yields_bind.mp hy
    have ⟨_, hs, hp⟩ := ih hx
    have ⟨ht, hs', hp'⟩ := ihf hx hy
    exact ⟨ht, hs'.trans hs, hp.trans hp'⟩

theorem bind_eq_error {f : α → Scan β} (h : (m >>= f) cursor = .error e) :
    m cursor = .error e ∨ ∃ x next, m.Yields cursor x next ∧ f x next = .error e := by
  change (m cursor >>= fun p => f p.1 p.2) = .error e at h
  cases hm : m cursor with
  | error e' =>
    rw [hm] at h
    cases h
    exact .inl rfl
  | ok p =>
    rw [hm] at h
    exact .inr ⟨p.1, p.2, hm, h⟩

theorem of_error (h : Treads text m cursor) (he : m cursor = .error e) : IsPlace text e.position := by
  induction h with
  | pure | look | move => cases he
  | fail _ hp =>
    cases he
    exact hp
  | bind _ _ ih ihf =>
    rcases bind_eq_error he with he | ⟨x, next, hy, he⟩
    case inl => exact ih he
    case inr => exact ihf hy he

end Treads
end Scan
end RowPipeline
