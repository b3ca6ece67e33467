import RowPipeline.Proofs.Clause.Tokens
import RowPipeline.Proofs.Clause.WellFormed

namespace RowPipeline

open Scan

namespace Token

def IsBlank (gap : List Char) : Prop :=
  ∀ c ∈ gap, Text.isBlank c

def IsToken (t : String) : Prop :=
  ∃ c ∈ t.toList.head?, ¬Text.isBlank c

-- What follows a token does not go on with the identifier at its end.
def Apart (t : String) (text : List Char) : Prop :=
  t.toList.getLast?.any isIdentifierChar → text.head?.any isIdentifierChar = false

-- The text consists of the tokens with blanks before, between and after them.
inductive Spells : List String → List Char → Prop
  | nil {gap} : IsBlank gap → Spells [] gap
  | cons {gap t ts text} : IsBlank gap → IsToken t → Apart t text → Spells ts text →
    Spells (t :: ts) (gap ++ (t.toList ++ text))

-- The text starts with the first token at once.
def Starts (tokens : List String) (text : List Char) : Prop :=
  Spells tokens text ∧ ∀ c ∈ text.head?, ¬Text.isBlank c

def leadChar : List String → Option Char
  | [] => none
  | t :: _ => t.toList.head?

def leadWord : List String → List Char
  | [] => []
  | t :: _ => t.toList.takeWhile isIdentifierChar

variable {t : String} {ts : List String} {text : List Char} {c : Char}

theorem not_isBlank_of_isIdentifierChar (h : isIdentifierChar c) : ¬Text.isBlank c := by
  have h : (c == '_' || c == '$' || ((decide ('A'.val ≤ c.val ∧ c.val ≤ 'Z'.val) ||
      decide ('a'.val ≤ c.val) && decide (c.val ≤ 'z'.val)) ||
        decide ('0'.val ≤ c.val) && decide (c.val ≤ '9'.val))) := h
  simp only [Bool.or_eq_true, Bool.and_eq_true, beq_iff_eq, decide_eq_true_eq, UInt32.le_iff_toNat_le] at h
  simp only [Text.isBlank, Text.blankRanges, List.any_cons, List.any_nil, Bool.or_false, Bool.or_eq_true,
    Bool.and_eq_true, decide_eq_true_eq]
  change ((c = '_' ∨ c = '$') ∨ ((65 ≤ c.toNat ∧ c.toNat ≤ 90) ∨ (97 ≤ c.toNat ∧ c.toNat ≤ 122)) ∨
    (48 ≤ c.toNat ∧ c.toNat ≤ 57)) at h
  rcases h with (rfl | rfl) | h
  case inl.inl => decide
  case inl.inr => decide
  case inr => omega

theorem takeWhile_eq_nil_of_head? {p : Char → Bool} {cs : List Char} (h : cs.head?.any p = false) :
    cs.takeWhile p = [] := by
  cases cs <;> simp_all

theorem Starts.of_spells (h : Spells ts text) : Starts ts (text.dropWhile Text.isBlank) := by
  cases h with
  | nil hg =>
    rw [List.dropWhile_eq_nil_iff.mpr hg]
    exact ⟨.nil nofun, nofun⟩
  | @cons gap t ts text hg ht ha hs =>
    obtain ⟨c, hc, hb⟩ := ht
    rw [List.dropWhile_append_of_pos hg]
    obtain ⟨cs, ht'⟩ := List.head?_eq_some_iff.mp hc
    have h : (t.toList ++ text).dropWhile Text.isBlank = t.toList ++ text := by simp [ht', hb]
    rw [h]
    refine ⟨List.nil_append (t.toList ++ text) ▸ .cons nofun ⟨c, hc, hb⟩ ha hs, ?_⟩
    simp [ht', hb]

theorem Starts.cons (h : Starts (t :: ts) text) :
    ∃ rest, text = t.toList ++ rest ∧ IsToken t ∧ Apart t rest ∧ Spells ts rest := by
  obtain ⟨hs, hb⟩ := h
  cases hs with
  | @cons gap _ _ rest hg ht ha hs =>
    cases gap with
    | nil => exact ⟨rest, rfl, ht, ha, hs⟩
    | cons c gap => exact absurd (hg c List.mem_cons_self) (hb c rfl)

theorem Starts.nil (h : Starts [] text) : text = [] := by
  obtain ⟨hs, hb⟩ := h
  cases hs with
  | nil hg =>
    cases text with
    | nil => rfl
    | cons c text => exact absurd (hg c List.mem_cons_self) (hb c rfl)

theorem Starts.head? (h : Starts ts text) : text.head? = leadChar ts := by
  cases ts with
  | nil => rw [h.nil]; rfl
  | cons t ts =>
    obtain ⟨rest, rfl, ⟨c, hc, _⟩, -, -⟩ := h.cons
    simp [leadChar, Option.mem_def.mp hc]

theorem Starts.takeWhile (h : Starts ts text) : text.takeWhile isIdentifierChar = leadWord ts := by
  cases ts with
  | nil => rw [h.nil]; rfl
  | cons t ts =>
    obtain ⟨rest, rfl, ⟨c, hc, _⟩, ha, -⟩ := h.cons
    rw [List.takeWhile_append, leadWord]
    split
    case isTrue hl =>
      -- The whole token can be read as an identifier, and nothing after it belongs to this.
      have hw : t.toList.takeWhile isIdentifierChar = t.toList :=
        (List.takeWhile_prefix _).eq_of_length hl
      have ht : t.toList ≠ [] := by rintro h; simp [h] at hc
      have hl : isIdentifierChar (t.toList.getLast ht) :=
        List.all_eq_true.mp (hw ▸ List.all_takeWhile) _ (List.getLast_mem ht)
      rw [takeWhile_eq_nil_of_head? (ha (by simp [List.getLast?_eq_some_getLast ht, hl])), hw, List.append_nil]
    case isFalse => rfl

theorem IsToken.length_pos (h : IsToken t) : 0 < t.toList.length := by
  obtain ⟨c, hc, -⟩ := h
  exact List.length_pos_of_mem (List.mem_of_head? hc)

theorem Spells.length_le (h : Spells ts text) : ts.length ≤ text.length := by
  induction h with
  | nil => exact Nat.zero_le _
  | cons _ ht _ _ ih => have := ht.length_pos; simp only [List.length_cons, List.length_append]; omega

-- A character that is not blank is only in front if the first token starts with it.
theorem Spells.leadChar_eq (h : Spells ts text) (hc : text.head? = some c) (hb : ¬Text.isBlank c) :
    leadChar ts = some c := by
  have hs : Starts ts text := ⟨h, by rintro d hd; cases hd.symm.trans hc; exact hb⟩
  rw [← hs.head?, hc]

end Token

open Token

-- From every text with the first property, the step yields the result and leaves a text with the second.
def Scan.Reads {α : Type} (m : Scan α) (before : List Char → Prop) (x : α) (after : List Char → Prop) : Prop :=
  ∀ cursor : Cursor, before cursor.rest → ∃ next, m.Yields cursor x next ∧ after next.rest

namespace Scan.Reads

variable {α β : Type} {P Q R : List Char → Prop} {m : Scan α} {f : α → Scan β} {x : α} {y : β}

theorem pure : Reads (Pure.pure x : Scan α) P x P :=
  fun cursor h => ⟨cursor, yields_pure.mpr ⟨rfl, rfl⟩, h⟩

theorem bind (hm : Reads m P x Q) (hf : Reads (f x) Q y R) : Reads (m >>= f) P y R := by
  intro cursor h
  obtain ⟨mid, hx, hq⟩ := hm cursor h
  obtain ⟨next, hy, hr⟩ := hf mid hq
  exact ⟨next, yields_bind.mpr ⟨x, mid, hx, hy⟩, hr⟩

theorem discard (hm : Reads m P x Q) : Reads (discard m) P () Q := by
  intro cursor h
  obtain ⟨next, hx, hq⟩ := hm cursor h
  exact ⟨next, yields_discard.mpr ⟨x, hx⟩, hq⟩

theorem mono {P' Q' : List Char → Prop} (hm : Reads m P x Q) (hp : ∀ cs, P' cs → P cs)
    (hq : ∀ cs, Q cs → Q' cs) : Reads m P' x Q' := by
  intro cursor h
  obtain ⟨next, hx, h⟩ := hm cursor (hp _ h)
  exact ⟨next, hx, hq _ h⟩

theorem ite_pos {p : Prop} [Decidable p] {m' : Scan α} (hp : p) (hm : Reads m P x Q) :
    Reads (if p then m else m') P x Q := by
  rwa [if_pos hp]

theorem ite_neg {p : Prop} [Decidable p] {m' : Scan α} (hp : ¬p) (hm : Reads m P x Q) :
    Reads (if p then m' else m) P x Q := by
  rwa [if_neg hp]

-- What is read after the cursor has been looked at may hang on it.
theorem get_bind {f : Cursor → Scan β} (hf : ∀ cursor, P cursor.rest → Reads (f cursor) (· = cursor.rest) y Q) :
    Reads (get >>= f) P y Q := by
  intro cursor h
  obtain ⟨next, hy, hq⟩ := hf cursor h cursor rfl
  exact ⟨next, yields_bind.mpr ⟨cursor, cursor, yields_get.mpr ⟨rfl, rfl⟩, hy⟩, hq⟩

theorem position_bind {f : Nat → Scan β} (hf : ∀ n, Reads (f n) P y Q) : Reads (position >>= f) P y Q := by
  intro cursor h
  obtain ⟨next, hy, hq⟩ := hf cursor.position cursor h
  exact ⟨next, yields_bind.mpr ⟨_, cursor, yields_position.mpr ⟨rfl, rfl⟩, hy⟩, hq⟩

theorem peek {o : Option Char} (h : ∀ cs, P cs → cs.head? = o) : Reads Scan.peek P o P :=
  fun cursor hp => ⟨cursor, yields_peek.mpr ⟨rfl, (h _ hp).symm⟩, hp⟩

theorem char?_false {c : Char} (h : ∀ cs, P cs → cs.head? ≠ some c) : Reads (Scan.char? c) P false P :=
  fun cursor hp => ⟨cursor, yields_char?.mpr (.inr ⟨h _ hp, rfl, rfl⟩), hp⟩

theorem skipBlank {text : List Char} : Reads Scan.skipBlank (·.dropWhile Text.isBlank = text) () (· = text) := by
  intro cursor h
  have hn : Scan.skipBlank.Yields cursor () _ := yields_skipBlank.mpr rfl
  exact ⟨_, hn, (rest_of_skipBlank hn).trans h⟩

theorem skipBlank_of_eq {text rest : List Char} (h : text.dropWhile Text.isBlank = rest) :
    Reads Scan.skipBlank (· = text) () (· = rest) :=
  skipBlank.mono (by rintro _ rfl; exact h) fun _ => id

theorem keyword_false {w : String} {text : List Char} (hw : IsIdentifier w)
    (ht : text.head?.any isIdentifierChar = false) : Reads (Scan.keyword w) (· = text) false (· = text) := by
  intro cursor h
  refine ⟨cursor, (yields_keyword hw.right).mpr (.inr ⟨?_, rfl, rfl⟩), h⟩
  rw [h, takeWhile_eq_nil_of_head? ht]
  exact fun hn => hw.left (String.toList_eq_nil_iff.mp hn.symm)

-- Steps that go over some characters and leave a given rest.
section Over

variable {c : Char} {rest : List Char}

theorem rest_advance {cursor : Cursor} (cs : List Char) (h : cursor.rest = cs ++ rest) :
    (cursor.advance cs.length).rest = rest := by
  simp [Cursor.advance, h]

theorem char? : Reads (Scan.char? c) (· = c :: rest) true (· = rest) :=
  fun cursor h => ⟨_, yields_char?.mpr (.inl ⟨by simp [h], rfl, rfl⟩), rest_advance [c] h⟩

theorem expect : Reads (Scan.expect c) (· = c :: rest) () (· = rest) :=
  char?.bind (.ite_pos rfl .pure)

theorem takeWhile {p : Char → Bool} {cs : List Char} (hc : ∀ c ∈ cs, p c) (hr : rest.head?.any p = false) :
    Reads (Scan.takeWhile p) (· = cs ++ rest) cs (· = rest) := by
  intro cursor h
  have ht : cursor.rest.takeWhile p = cs := by
    rw [h, List.takeWhile_append_of_pos hc, takeWhile_eq_nil_of_head? hr, List.append_nil]
  exact ⟨_, yields_takeWhile.mpr ⟨ht.symm, rfl⟩, rest_advance cs h⟩

theorem keyword {w : String} (hw : ∀ c ∈ w.toList, isIdentifierChar c)
    (hr : rest.head?.any isIdentifierChar = false) :
    Reads (Scan.keyword w) (· = w.toList ++ rest) true (· = rest) := by
  intro cursor h
  have ht : cursor.rest.takeWhile isIdentifierChar = w.toList := by
    rw [h, List.takeWhile_append_of_pos hw, takeWhile_eq_nil_of_head? hr, List.append_nil]
  exact ⟨_, (yields_keyword hw).mpr (.inl ⟨ht, rfl, rfl⟩), String.length_toList (s := w) ▸ rest_advance w.toList h⟩

theorem identifier {name : String} (hn : IsIdentifier name) (hr : rest.head?.any isIdentifierChar = false) :
    Reads Scan.identifier (· = name.toList ++ rest) name (· = rest) := by
  intro cursor h
  obtain ⟨next, hx, h⟩ := takeWhile hn.right hr cursor h
  have hx := yields_takeWhile.mp hx
  exact ⟨next, yields_identifier.mpr ⟨hx.left, hn.left, hx.right⟩, h⟩

end Over

section Many

variable {σ : Type} {again : Scan Bool} {item : σ → Scan α} {step : σ → α → σ} {s : σ} {xs : List α} {n : Nat}

theorem manyAfter_nil (h : Reads again P false Q) : Reads (manyAfter again item step (n + 1) s) P [] Q :=
  h.bind (.ite_neg nofun .pure)

theorem manyAfter_cons {P' : List Char → Prop} (ha : Reads again P true Q) (hi : Reads (item s) Q x R)
    (hm : Reads (manyAfter again item step n (step s x)) R xs P') :
    Reads (manyAfter again item step (n + 1) s) P (x :: xs) P' :=
  ha.bind (.ite_pos rfl (hi.bind (hm.bind .pure)))

theorem many {item : Scan α}
    (hm : ∀ cs, P cs → Reads (manyAfter again (fun _ => item) (fun _ _ => ()) cs.length ()) P xs Q) :
    Reads (Scan.many again item) P xs Q :=
  .get_bind fun _ h => (hm _ h).mono (by rintro _ rfl; exact h) fun _ => id

end Many

end Scan.Reads

namespace Token

variable {t : String} {ts : List String} {c : Char}

theorem reads_skipBlank : skipBlank.Reads (Spells ts) () (Starts ts) := by
  intro cursor h
  obtain ⟨next, hn⟩ : ∃ next, skipBlank.Yields cursor () next := ⟨_, yields_skipBlank.mpr rfl⟩
  exact ⟨next, hn, rest_of_skipBlank hn ▸ .of_spells h⟩

-- What goes over the characters of the first token of a text leaves a text of the others.
theorem reads_of_over {m : Scan α} {x : α}
    (h : ∀ rest, Apart t rest → Spells ts rest → m.Reads (· = t.toList ++ rest) x (· = rest)) :
    m.Reads (Starts (t :: ts)) x (Spells ts) := by
  intro cursor hs
  obtain ⟨rest, hr, -, ha, hs⟩ := hs.cons
  obtain ⟨next, hx, rfl⟩ := h rest ha hs cursor hr
  exact ⟨next, hx, hs⟩

theorem reads_no_char? (h : leadChar ts ≠ some c) : (char? c).Reads (Starts ts) false (Starts ts) :=
  .char?_false fun _ hs => hs.head? ▸ h

theorem reads_char? (ht : t.toList = [c]) : (char? c).Reads (Starts (t :: ts)) true (Spells ts) :=
  reads_of_over fun _ _ _ => by simpa [ht] using Reads.char?

theorem reads_expect (ht : t.toList = [c]) : (expect c).Reads (Starts (t :: ts)) () (Spells ts) :=
  (reads_char? ht).bind (.ite_pos rfl .pure)

theorem Apart.of_isIdentifier {rest : List Char} (h : Apart t rest) (ht : IsIdentifier t) :
    rest.head?.any isIdentifierChar = false := by
  have hne : t.toList ≠ [] := by simpa using ht.left
  exact h (by simp [List.getLast?_eq_some_getLast hne, ht.right _ (List.getLast_mem hne)])

theorem reads_keyword (ht : IsIdentifier t) : (keyword t).Reads (Starts (t :: ts)) true (Spells ts) :=
  reads_of_over fun _ ha _ => .keyword ht.right (ha.of_isIdentifier ht)

theorem reads_no_keyword (ht : ∀ c ∈ t.toList, isIdentifierChar c) (h : leadWord ts ≠ t.toList) :
    (keyword t).Reads (Starts ts) false (Starts ts) :=
  fun cursor hs => ⟨cursor, (yields_keyword ht).mpr (.inr ⟨hs.takeWhile ▸ h, rfl, rfl⟩), hs⟩

theorem reads_identifier (ht : IsIdentifier t) : identifier.Reads (Starts (t :: ts)) t (Spells ts) :=
  reads_of_over fun _ ha _ => .identifier ht (ha.of_isIdentifier ht)

-- One of some tokens comes next.
def Follows (ends ts : List String) : Prop :=
  ∃ t ∈ ends, ts.head? = some t

section Follows

variable {ends : List String}

theorem Follows.cons (h : t ∈ ends) : Follows ends (t :: ts) :=
  ⟨t, h, rfl⟩

theorem Follows.ne_nil (h : Follows ends ts) : ts ≠ [] := by
  obtain ⟨t, -, h⟩ := h
  rintro rfl
  cases h

theorem Follows.mono {ends' : List String} (h : Follows ends ts) (he : ∀ t ∈ ends, t ∈ ends') : Follows ends' ts := by
  obtain ⟨t, ht, h⟩ := h
  exact ⟨t, he t ht, h⟩

theorem Follows.leadChar_ne (h : Follows ends ts) (hc : ∀ t ∈ ends, t.toList.head? ≠ some c) :
    leadChar ts ≠ some c := by
  obtain ⟨t, ht, h⟩ := h
  obtain ⟨ts, rfl⟩ := List.head?_eq_some_iff.mp h
  exact hc t ht

theorem Follows.leadWord_ne {word : List Char} (h : Follows ends ts)
    (hw : ∀ t ∈ ends, t.toList.takeWhile isIdentifierChar ≠ word) : leadWord ts ≠ word := by
  obtain ⟨t, ht, h⟩ := h
  obtain ⟨ts, rfl⟩ := List.head?_eq_some_iff.mp h
  exact hw t ht

end Follows

-- Items that follow a mark each. What comes after an item is the mark of the next one, or what comes after all.
-- From the tokens of `x` the result `g x` is read.
section Marked

variable {ι σ : Type} {again : Scan Bool} {item : Scan α} {mark : String} {f : ι → List String} {g : ι → α}
  {x : ι} {xs : List ι}

theorem head?_marked :
    (xs.flatMap (mark :: f ·) ++ ts).head? = some mark ∨ xs.flatMap (mark :: f ·) ++ ts = ts := by
  cases xs with
  | nil => exact .inr rfl
  | cons => exact .inl rfl

theorem length_le_marked {text : List Char} (h : Spells (xs.flatMap (mark :: f ·) ++ ts) text) :
    xs.length + ts.length ≤ text.length := by
  have hl : xs.length ≤ (xs.flatMap (mark :: f ·)).length := by
    clear h
    induction xs with
    | nil => exact Nat.zero_le _
    | cons x xs ih => simp only [List.flatMap_cons, List.length_append, List.length_cons]; omega
  have := h.length_le
  simp only [List.length_append] at this
  omega

theorem reads_marked {item : σ → Scan α} {step : σ → α → σ} {s : σ} {n : Nat} {Q : List Char → Prop}
    (hs : ∀ x, step s (g x) = s) (hm : ∀ us, again.Reads (Spells (mark :: us)) true (Spells us))
    (hi : ∀ x ∈ xs, ∀ us, us.head? = some mark ∨ us = ts → (item s).Reads (Spells (f x ++ us)) (g x) (Spells us))
    (he : (manyAfter again item step n s).Reads (Spells ts) [] Q) :
    (manyAfter again item step (xs.length + n) s).Reads (Spells (xs.flatMap (mark :: f ·) ++ ts)) (xs.map g) Q := by
  induction xs
  case nil => simpa using he
  case cons x xs ih =>
    obtain ⟨hx, hxs⟩ := List.forall_mem_cons.mp hi
    rw [List.length_cons, Nat.add_right_comm, List.flatMap_cons, List.append_assoc, List.cons_append]
    refine .manyAfter_cons (hm _) (hx _ head?_marked) ?_
    rw [hs]
    exact ih hxs

theorem reads_many {Q : List Char → Prop} (hts : ts ≠ [])
    (hm : ∀ us, again.Reads (Spells (mark :: us)) true (Spells us)) (he : again.Reads (Spells ts) false Q)
    (hi : ∀ x ∈ xs, ∀ us, us.head? = some mark ∨ us = ts → item.Reads (Spells (f x ++ us)) (g x) (Spells us)) :
    (many again item).Reads (Spells (xs.flatMap (mark :: f ·) ++ ts)) (xs.map g) Q := by
  refine .many fun cs h => ?_
  have hl := length_le_marked h
  have ht : 0 < ts.length := List.length_pos_of_ne_nil hts
  obtain ⟨n, hn⟩ : ∃ n, cs.length = xs.length + (n + 1) := ⟨cs.length - xs.length - 1, by omega⟩
  rw [hn]
  exact reads_marked (fun _ => rfl) hm hi (.manyAfter_nil he)

variable {c : Char}

theorem reads_blank_char? {us : List String} (hm : mark.toList = [c]) :
    (do skipBlank; char? c : Scan Bool).Reads (Spells (mark :: us)) true (Spells us) :=
  reads_skipBlank.bind (reads_char? hm)

theorem reads_blank_no_char? (h : leadChar ts ≠ some c) :
    (do skipBlank; char? c : Scan Bool).Reads (Spells ts) false (Starts ts) :=
  reads_skipBlank.bind (reads_no_char? h)

theorem reads_blank_keyword {word : String} {us : List String} (hw : IsIdentifier word) :
    (do skipBlank; keyword word : Scan Bool).Reads (Spells (word :: us)) true (Spells us) :=
  reads_skipBlank.bind (reads_keyword hw)

theorem reads_blank_no_keyword {word : String} (hw : ∀ c ∈ word.toList, isIdentifierChar c)
    (hc : leadWord ts ≠ word.toList) :
    (do skipBlank; keyword word : Scan Bool).Reads (Spells ts) false (Starts ts) :=
  reads_skipBlank.bind (reads_no_keyword hw hc)

theorem separated_cons :
    separated mark ((x :: xs).map f) ++ ts = f x ++ (xs.flatMap (mark :: f ·) ++ ts) := by
  simp [separated, List.flatMap_map]

theorem enclosed_append {tokens : List String} : enclosed tokens ++ ts = "(" :: (tokens ++ ")" :: ts) := by
  simp [enclosed]

theorem length_le_separated (mark : String) {item : List String} {items : List (List String)} (h : item ∈ items) :
    item.length ≤ (separated mark items).length := by
  cases items with
  | nil => cases h
  | cons first items =>
    rw [separated, List.length_append]
    rcases List.mem_cons.mp h with rfl | h
    case inl => omega
    case inr =>
      have hs : (mark :: item).Sublist (items.flatMap (mark :: ·)) := 
        List.sublist_flatten_of_mem (List.mem_map_of_mem h)
      have := hs.length_le
      simp only [List.length_cons] at this
      omega

theorem reads_listBy_map (hne : xs ≠ [])
    (hi : ∀ x ∈ xs, ∀ us, Follows [",", ")"] us → item.Reads (Spells (f x ++ us)) (g x) (Spells us)) :
    (listBy ',' item).Reads (Spells (separated "," (xs.map f) ++ ")" :: ts)) (xs.map g) (Starts (")" :: ts)) := by
  obtain ⟨x, xs, rfl⟩ := List.exists_cons_of_ne_nil hne
  have hi : ∀ y ∈ x :: xs, ∀ us, us.head? = some "," ∨ us = ")" :: ts →
      item.Reads (Spells (f y ++ us)) (g y) (Spells us) := by
    rintro y hy us (hu | rfl)
    case inl => exact hi y hy us ⟨",", by decide, hu⟩
    case inr => exact hi y hy _ (.cons (by decide))
  obtain ⟨hx, hxs⟩ := List.forall_mem_cons.mp hi
  rw [separated_cons]
  have hc : leadChar (")" :: ts) ≠ some ',' := show ")".toList.head? ≠ some ',' by decide
  have hm := reads_many (List.cons_ne_nil _ _) (fun _ => reads_blank_char? rfl) (reads_blank_no_char? hc) hxs
  exact (hx _ head?_marked).bind (hm.bind .pure)

theorem reads_listBy {xs : List α} {f : α → List String} (hne : xs ≠ [])
    (hi : ∀ x ∈ xs, ∀ us, Follows [",", ")"] us → item.Reads (Spells (f x ++ us)) x (Spells us)) :
    (listBy ',' item).Reads (Spells (separated "," (xs.map f) ++ ")" :: ts)) xs (Starts (")" :: ts)) := by
  simpa using reads_listBy_map (g := id) hne hi

theorem reads_chain {x : α} {xs : List α} {f : α → List String} {word : String} {ends : List String}
    {combine : α → α → α} (hw : IsIdentifier word)
    (ht : Follows ends ts) (hc : ∀ t ∈ ends, t.toList.takeWhile isIdentifierChar ≠ word.toList)
    (hi : ∀ y ∈ x :: xs, ∀ us, Follows (word :: ends) us → item.Reads (Spells (f y ++ us)) y (Spells us)) :
    (chain word combine item).Reads (Spells (separated word ((x :: xs).map f) ++ ts)) (xs.foldl combine x)
      (Starts ts) := by
  have hi : ∀ y ∈ x :: xs, ∀ us, us.head? = some word ∨ us = ts →
      item.Reads (Spells (f y ++ us)) y (Spells us) := by
    rintro y hy us (hu | rfl)
    case inl => exact hi y hy us ⟨word, List.mem_cons_self, hu⟩
    case inr => exact hi y hy _ (ht.mono fun _ => List.mem_cons_of_mem _)
  obtain ⟨hx, hxs⟩ := List.forall_mem_cons.mp hi
  rw [separated_cons]
  have hm := reads_many (g := id) ht.ne_nil (fun _ => reads_blank_keyword hw)
    (reads_blank_no_keyword hw.right (ht.leadWord_ne hc)) hxs
  rw [List.map_id] at hm
  exact (hx _ head?_marked).bind (hm.bind .pure)

end Marked

end Token
end RowPipeline
