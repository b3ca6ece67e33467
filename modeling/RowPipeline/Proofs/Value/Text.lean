import RowPipeline.Value.Order
import RowPipeline.Proofs.Number.Numeral

namespace RowPipeline.Value

open Document

section Quoted

variable {c d : Char} {cs ds r s : List Char}

-- The first character of a quoted text, with what follows it.
def unescape? : List Char → Option (Char × List Char)
  | '\x5c' :: 'u' :: a :: b :: c :: d :: rest => (hexUnit? [a, b, c, d]).map fun n => (Char.ofNat n, rest)
  | '\x5c' :: c :: rest => (simpleEscape? c).map fun c => (c, rest)
  | c :: rest => some (c, rest)
  | [] => none

theorem hexUnit?_digitChar :
    ∀ i < 2, ∀ j < 16, hexUnit? ['0', '0', Nat.digitChar i, Nat.digitChar j] = some (16 * i + j) := by
  decide

theorem unescape?_escapedChar (c : Char) (r : List Char) : unescape? (escapedChar c ++ r) = some (c, r) := by
  unfold escapedChar
  split
  case h_8 =>
    split
    case isTrue h =>
      have hn : 16 * (c.toNat / 16) + c.toNat % 16 = c.toNat := Nat.div_add_mod c.toNat 16
      simp only [List.cons_append, List.nil_append, unescape?]
      rw [hexUnit?_digitChar _ (by omega) _ (by omega), hn]
      simp
    case isFalse =>
      rename_i hb _ _ _ _ _ _
      rw [List.singleton_append, unescape?.eq_def]
      split
      case h_1 h => exact absurd (List.head_eq_of_cons_eq h) hb
      case h_2 h => exact absurd (List.head_eq_of_cons_eq h) hb
      case h_3 h => cases h; rfl
      case h_4 => contradiction
  all_goals rfl

theorem escapedChar_append_inj (h : escapedChar c ++ r = escapedChar d ++ s) : c = d ∧ r = s := by
  have hc := unescape?_escapedChar c r
  rw [h, unescape?_escapedChar] at hc
  cases hc
  exact ⟨rfl, rfl⟩

-- No character is written with a quote at its front.
theorem escapedChar_append_ne (c : Char) (r s : List Char) : escapedChar c ++ r ≠ '\x22' :: s := by
  unfold escapedChar
  split
  case h_8 =>
    split
    case isTrue => exact nofun
    case isFalse => intro h; cases h; contradiction
  all_goals exact nofun

theorem escaped_append_inj (h : cs.flatMap escapedChar ++ '\x22' :: r = ds.flatMap escapedChar ++ '\x22' :: s) :
    cs = ds ∧ r = s := by
  induction cs generalizing ds with
  | nil =>
    cases ds with
    | nil => exact ⟨rfl, List.tail_eq_of_cons_eq h⟩
    | cons d ds =>
      rw [List.flatMap_cons, List.append_assoc] at h
      exact absurd h.symm (escapedChar_append_ne _ _ _)
  | cons c cs ih =>
    cases ds with
    | nil =>
      rw [List.flatMap_cons, List.append_assoc] at h
      exact absurd h (escapedChar_append_ne _ _ _)
    | cons d ds =>
      rw [List.flatMap_cons, List.flatMap_cons, List.append_assoc, List.append_assoc] at h
      have ⟨hc, h⟩ := escapedChar_append_inj h
      have ⟨hcs, hr⟩ := ih h
      exact ⟨by rw [hc, hcs], hr⟩

theorem quoted_append_inj {t u : String} (h : quoted t ++ r = quoted u ++ s) : t = u ∧ r = s := by
  simp only [quoted, List.cons_append, List.append_assoc, List.cons.injEq, true_and] at h
  have ⟨ht, hr⟩ := escaped_append_inj h
  exact ⟨String.toList_inj.mp ht, hr⟩

end Quoted

-- The first character tells the kind of a value.
def leadRank (c : Char) : Nat :=
  if c = 'n' then 0
  else if c = 't' ∨ c = 'f' then 1
  else if c = '\x22' then 3
  else if c = '[' then 4
  else if c = '{' then 5
  else if isIntegerChar c then 2
  else 6

theorem leadRank_of_isIntegerChar {c : Char} (h : isIntegerChar c) : leadRank c = 2 := by
  have hn : ∀ {d : Char}, isIntegerChar d = false → c ≠ d := by
    rintro _ hd rfl
    rw [h] at hd
    contradiction
  rw [leadRank, if_neg (hn rfl), if_neg (not_or.mpr ⟨hn rfl, hn rfl⟩), if_neg (hn rfl), if_neg (hn rfl), if_neg (hn rfl),
    if_pos h]

theorem exists_lead (v : Value) : ∃ c cs, v.chars = c :: cs ∧ leadRank c = v.rank := by
  cases v with
  | null => exact ⟨_, _, rfl, rfl⟩
  | bool b => cases b <;> exact ⟨_, _, rfl, rfl⟩
  | int n =>
    have ⟨c, cs, hc⟩ := List.exists_cons_of_ne_nil (intChars_ne_nil n)
    have hi : isIntegerChar c := isIntegerChar_of_mem_intChars (hc ▸ List.mem_cons_self)
    exact ⟨c, cs, by rw [chars, hc], leadRank_of_isIntegerChar hi⟩
  | float x =>
    have ⟨c, cs, hc, hi⟩ := exists_lead_chars x
    exact ⟨c, cs, by rw [chars, hc], leadRank_of_isIntegerChar hi⟩
  | string s => exact ⟨_, _, rfl, rfl⟩
  | array vs => cases vs <;> exact ⟨_, _, rfl, rfl⟩
  | object ms => cases ms <;> exact ⟨_, _, rfl, rfl⟩

-- What follows a value inside of others.
def EndsValue (rest : List Char) : Prop :=
  ∀ c ∈ rest.head?, c = ',' ∨ c = ']' ∨ c = '}'

variable {a b v w : Value} {r s : List Char}

theorem rank_eq_of_append (h : a.chars ++ r = b.chars ++ s) : a.rank = b.rank := by
  have ⟨c, cs, hc, ha⟩ := exists_lead a
  have ⟨d, ds, hd, hb⟩ := exists_lead b
  rw [hc, hd] at h
  rw [← ha, ← hb, List.head_eq_of_cons_eq h]

theorem not_endsValue_chars (v : Value) (r : List Char) : ¬EndsValue (v.chars ++ r) := by
  have ⟨c, cs, hc, hr⟩ := exists_lead v
  intro he
  have hn : leadRank c ≠ 6 := by
    rw [hr]
    cases v <;> exact Nat.ne_of_beq_eq_false rfl
  rw [hc] at he
  rcases he c rfl with rfl | rfl | rfl
  all_goals exact hn (by decide)

section Numbers

variable {cs ds : List Char}

theorem isNumeralChar_of_endsValue (h : EndsValue r) : r.head?.any isNumeralChar = false := by
  cases r with
  | nil => rfl
  | cons c r =>
    rcases h c rfl with rfl | rfl | rfl
    all_goals rfl

-- Numerals end where a value ends.
theorem numeral_append_inj (hc : ∀ c ∈ cs, isNumeralChar c) (hd : ∀ c ∈ ds, isNumeralChar c) (hr : EndsValue r)
    (hs : EndsValue s) (h : cs ++ r = ds ++ s) : cs = ds ∧ r = s := by
  have ht : ∀ {cs r : List Char}, (∀ c ∈ cs, isNumeralChar c) → EndsValue r →
      (cs ++ r).takeWhile isNumeralChar = cs := by
    intro cs r hc hr
    have hn : r.takeWhile isNumeralChar = [] := by
      have hr := isNumeralChar_of_endsValue hr
      cases r with
      | nil => rfl
      | cons c r => exact List.takeWhile_cons_of_neg (by simpa using hr)
    rw [List.takeWhile_append_of_pos hc, hn, List.append_nil]
  have he : cs = ds := by rw [← ht hc hr, h, ht hd hs]
  subst he
  exact ⟨rfl, List.append_cancel_left h⟩

theorem number_append_inj (ha : a.rank = 2) (hb : b.rank = 2) (hr : EndsValue r) (hs : EndsValue s)
    (h : a.chars ++ r = b.chars ++ s) : a = b ∧ r = s := by
  have hn : ∀ {v : Value}, v.rank = 2 → ∀ c ∈ v.chars, isNumeralChar c := by
    intro v hv
    cases v with
    | int n => rw [chars]; exact fun c => isNumeralChar_of_mem_intChars
    | float x => rw [chars]; exact fun c => isNumeralChar_of_mem_chars
    | _ => cases hv
  have ⟨hc, hr⟩ := numeral_append_inj (hn ha) (hn hb) hr hs h
  refine ⟨?_, hr⟩
  cases a with
  | int m =>
    cases b with
    | int n => rw [chars, chars] at hc; rw [intChars_injective hc]
    | float x => rw [chars, chars] at hc; exact absurd hc (intChars_ne_chars m x)
    | _ => cases hb
  | float x =>
    cases b with
    | int n => rw [chars, chars] at hc; exact absurd hc.symm (intChars_ne_chars n x)
    | float y => rw [chars, chars] at hc; rw [NumeralStyle.chars_injective hc]
    | _ => cases hb
  | _ => cases ha

end Numbers

theorem endsValue_itemChars (vs : List Value) (r : List Char) : EndsValue (itemChars vs ++ ']' :: r) := by
  cases vs with
  | nil => rintro _ ⟨⟩; exact .inr (.inl rfl)
  | cons v vs => rintro _ ⟨⟩; exact .inl rfl

theorem endsValue_memberChars (ms : Members) (r : List Char) : EndsValue (memberChars ms ++ '}' :: r) := by
  cases ms with
  | nil => rintro _ ⟨⟩; exact .inr (.inr rfl)
  | cons m ms => rintro _ ⟨⟩; exact .inl rfl

theorem chars_array_cons (v : Value) (vs : List Value) (r : List Char) :
    (array (v :: vs)).chars ++ r = '[' :: (v.chars ++ (itemChars vs ++ ']' :: r)) := by
  simp [chars]

theorem itemChars_cons_append (v : Value) (vs : List Value) (r : List Char) :
    itemChars (v :: vs) ++ r = ',' :: (v.chars ++ (itemChars vs ++ r)) := by
  simp [itemChars]

theorem chars_object_cons (name : String) (v : Value) (ms : Members) (r : List Char) :
    (object ((name, v) :: ms)).chars ++ r =
      '{' :: (quoted name ++ ':' :: (v.chars ++ (memberChars ms ++ '}' :: r))) := by
  simp [chars]

theorem memberChars_cons_append (name : String) (v : Value) (ms : Members) (r : List Char) :
    memberChars ((name, v) :: ms) ++ r = ',' :: (quoted name ++ ':' :: (v.chars ++ (memberChars ms ++ r))) := by
  simp [memberChars]

-- No container that has something in it is closed at once.
theorem chars_append_ne_bracket (v : Value) : v.chars ++ r ≠ ']' :: s := by
  intro h
  have he : EndsValue (']' :: s) := endsValue_itemChars [] s
  exact not_endsValue_chars v r (h ▸ he)

-- Texts of values that are followed by what ends a value are only equal piece by piece.
mutual
theorem chars_append_inj : (a b : Value) → {r s : List Char} → EndsValue r → EndsValue s →
    a.chars ++ r = b.chars ++ s → a = b ∧ r = s
  | .null, b, r, s, _, _, h => by
    have hb := rank_eq_of_append h
    cases b with
    | null => exact ⟨rfl, List.append_cancel_left h⟩
    | _ => cases hb
  | .bool p, b, r, s, _, _, h => by
    have hb := rank_eq_of_append h
    cases b with
    | bool q =>
      cases p <;> cases q
      case false.false | true.true => exact ⟨rfl, List.append_cancel_left h⟩
      case false.true | true.false => exact absurd (List.head_eq_of_cons_eq h) (by decide)
    | _ => cases hb
  | .int m, b, r, s, hr, hs, h => number_append_inj rfl (rank_eq_of_append h).symm hr hs h
  | .float x, b, r, s, hr, hs, h => number_append_inj rfl (rank_eq_of_append h).symm hr hs h
  | .string t, b, r, s, _, _, h => by
    have hb := rank_eq_of_append h
    cases b with
    | string u =>
      have ⟨ht, hrs⟩ := quoted_append_inj h
      exact ⟨by rw [ht], hrs⟩
    | _ => cases hb
  | .array as, b, r, s, _, _, h => by
    have hb := rank_eq_of_append h
    cases b with
    | array bs =>
      have ⟨hi, hrs⟩ := arrayChars_append_inj as bs h
      exact ⟨by rw [hi], hrs⟩
    | _ => cases hb
  | .object as, b, r, s, _, _, h => by
    have hb := rank_eq_of_append h
    cases b with
    | object bs =>
      have ⟨hm, hrs⟩ := objectChars_append_inj as bs h
      exact ⟨by rw [hm], hrs⟩
    | _ => cases hb

theorem arrayChars_append_inj :
    (as bs : List Value) → {r s : List Char} → (array as).chars ++ r = (array bs).chars ++ s → as = bs ∧ r = s
  | [], [], r, s, h => ⟨rfl, List.append_cancel_left h⟩
  | [], b :: bs, r, s, h => absurd (List.tail_eq_of_cons_eq (chars_array_cons b bs s ▸ h)).symm (chars_append_ne_bracket b)
  | a :: as, [], r, s, h => absurd (List.tail_eq_of_cons_eq (chars_array_cons a as r ▸ h)) (chars_append_ne_bracket a)
  | a :: as, b :: bs, r, s, h => by
    rw [chars_array_cons, chars_array_cons] at h
    have ⟨hv, h⟩ := chars_append_inj a b (endsValue_itemChars as r) (endsValue_itemChars bs s) (List.tail_eq_of_cons_eq h)
    have ⟨hvs, hrs⟩ := itemChars_append_inj as bs h
    exact ⟨by rw [hv, hvs], hrs⟩

theorem itemChars_append_inj :
    (as bs : List Value) → {r s : List Char} → itemChars as ++ ']' :: r = itemChars bs ++ ']' :: s → as = bs ∧ r = s
  | [], [], r, s, h => ⟨rfl, List.tail_eq_of_cons_eq h⟩
  | [], _ :: _, r, s, h => by cases h
  | _ :: _, [], r, s, h => by cases h
  | a :: as, b :: bs, r, s, h => by
    rw [itemChars_cons_append, itemChars_cons_append] at h
    have ⟨hv, h⟩ := chars_append_inj a b (endsValue_itemChars as r) (endsValue_itemChars bs s) (List.tail_eq_of_cons_eq h)
    have ⟨hvs, hrs⟩ := itemChars_append_inj as bs h
    exact ⟨by rw [hv, hvs], hrs⟩

theorem objectChars_append_inj :
    (as bs : Members) → {r s : List Char} → (object as).chars ++ r = (object bs).chars ++ s → as = bs ∧ r = s
  | [], [], r, s, h => ⟨rfl, List.append_cancel_left h⟩
  | [], (n, b) :: bs, r, s, h => by cases List.tail_eq_of_cons_eq (chars_object_cons n b bs s ▸ h)
  | (m, a) :: as, [], r, s, h => by cases List.tail_eq_of_cons_eq (chars_object_cons m a as r ▸ h)
  | (m, a) :: as, (n, b) :: bs, r, s, h => by
    rw [chars_object_cons, chars_object_cons] at h
    have ⟨hn, h⟩ := quoted_append_inj (List.tail_eq_of_cons_eq h)
    have ⟨hv, h⟩ := chars_append_inj a b (endsValue_memberChars as r) (endsValue_memberChars bs s)
      (List.tail_eq_of_cons_eq h)
    have ⟨hms, hrs⟩ := memberChars_append_inj as bs h
    exact ⟨by rw [hn, hv, hms], hrs⟩

theorem memberChars_append_inj :
    (as bs : Members) → {r s : List Char} → memberChars as ++ '}' :: r = memberChars bs ++ '}' :: s → as = bs ∧ r = s
  | [], [], r, s, h => ⟨rfl, List.tail_eq_of_cons_eq h⟩
  | [], (_, _) :: _, r, s, h => by cases h
  | (_, _) :: _, [], r, s, h => by cases h
  | (m, a) :: as, (n, b) :: bs, r, s, h => by
    rw [memberChars_cons_append, memberChars_cons_append] at h
    have ⟨hn, h⟩ := quoted_append_inj (List.tail_eq_of_cons_eq h)
    have ⟨hv, h⟩ := chars_append_inj a b (endsValue_memberChars as r) (endsValue_memberChars bs s)
      (List.tail_eq_of_cons_eq h)
    have ⟨hms, hrs⟩ := memberChars_append_inj as bs h
    exact ⟨by rw [hn, hv, hms], hrs⟩
end

theorem text_injective : Function.Injective text := by
  intro a b h
  have hc : a.chars ++ [] = b.chars ++ [] := by
    rw [List.append_nil, List.append_nil]
    exact String.ofList_injective h
  have he : EndsValue [] := fun _ => nofun
  exact (chars_append_inj a b he he hc).left

-- The characters of a text that has been written, none of which is a control character.
section Plain

variable {c : Char}

def Plain (cs : List Char) : Prop :=
  ∀ c ∈ cs, 0x20 ≤ c.toNat

theorem plain_nil : Plain [] :=
  nofun

theorem plain_cons {cs : List Char} (h : 0x20 ≤ c.toNat) (hs : Plain cs) : Plain (c :: cs) :=
  List.forall_mem_cons.mpr ⟨h, hs⟩

theorem plain_append {cs ds : List Char} (hc : Plain cs) (hd : Plain ds) : Plain (cs ++ ds) :=
  List.forall_mem_append.mpr ⟨hc, hd⟩

theorem le_of_isNumeralChar (h : isNumeralChar c) : 0x20 ≤ c.toNat := by
  simp only [isNumeralChar, isIntegerChar, Bool.or_eq_true, decide_eq_true_eq] at h
  rcases h with (((h | rfl) | rfl) | rfl) | rfl
  case inl.inl.inl.inl =>
    have hd : 48 ≤ c.toNat ∧ c.toNat ≤ 57 := by
      simpa [Char.isDigit, UInt32.le_iff_toNat_le] using h
    omega
  all_goals decide

theorem plain_escapedChar (c : Char) : Plain (escapedChar c) := by
  have hd : ∀ i < 16, 0x20 ≤ (Nat.digitChar i).toNat := by decide
  unfold escapedChar
  split
  case h_8 =>
    split
    case isTrue h =>
      have hl : Plain ['\x5c', 'u', '0', '0'] := by unfold Plain; decide
      exact plain_append hl (plain_cons (hd _ (by omega)) (plain_cons (hd _ (by omega)) plain_nil))
    case isFalse h => exact plain_cons (Nat.not_lt.mp h) plain_nil
  all_goals unfold Plain; decide

theorem plain_quoted (s : String) : Plain (quoted s) := by
  apply plain_cons (by decide)
  apply plain_append _ (plain_cons (by decide) plain_nil)
  intro c hc
  have ⟨d, _, hd⟩ := List.mem_flatMap.mp hc
  exact plain_escapedChar d c hd

mutual
theorem plain_chars : (v : Value) → Plain v.chars
  | .null => by unfold Plain; decide
  | .bool true => by unfold Plain; decide
  | .bool false => by unfold Plain; decide
  | .int _ => by rw [chars]; exact fun _ hc => le_of_isNumeralChar (isNumeralChar_of_mem_intChars hc)
  | .float _ => by rw [chars]; exact fun _ hc => le_of_isNumeralChar (isNumeralChar_of_mem_chars hc)
  | .string s => plain_quoted s
  | .array [] => by unfold Plain; decide
  | .array (v :: vs) => by
    rw [chars]
    have hc : Plain [']'] := plain_cons (by decide) plain_nil
    exact plain_cons (by decide) (plain_append (plain_append (plain_chars v) (plain_itemChars vs)) hc)
  | .object [] => by unfold Plain; decide
  | .object ((name, v) :: ms) => by
    rw [chars]
    have hc : Plain ['}'] := plain_cons (by decide) plain_nil
    have hv : Plain (':' :: v.chars) := plain_cons (by decide) (plain_chars v)
    have hm := plain_append (plain_append (plain_quoted name) hv) (plain_memberChars ms)
    exact plain_cons (by decide) (plain_append hm hc)

theorem plain_itemChars : (vs : List Value) → Plain (itemChars vs)
  | [] => plain_nil
  | v :: vs => plain_cons (by decide) (plain_append (plain_chars v) (plain_itemChars vs))

theorem plain_memberChars : (ms : Members) → Plain (memberChars ms)
  | [] => plain_nil
  | (name, v) :: ms => by
    have hv : Plain (':' :: v.chars) := plain_cons (by decide) (plain_chars v)
    exact plain_cons (by decide) (plain_append (plain_append (plain_quoted name) hv) (plain_memberChars ms))
end

theorem le_of_mem_text {v : Value} (h : c ∈ v.text.toList) : 0x20 ≤ c.toNat := by
  rw [text, String.toList_ofList] at h
  exact plain_chars v c h

end Plain

end RowPipeline.Value
