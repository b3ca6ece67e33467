import RowPipeline.Proofs.Clause.Words

namespace RowPipeline

open Scan Token

namespace Scan

variable {α β σ : Type} {more : List Char} {cursor next : Cursor}

-- Nothing follows but what closes a parenthesis.
def Closes (more : List Char) : Prop :=
  ∀ c ∈ more.head?, c = ')'

-- From here, what `m` reads is what `m'` reads with more text behind. What is left is a part of the text, and
-- only when nothing is left of it `m'` may read on, if what follows does not close a parenthesis.
def LocalAt (more : List Char) (cursor : Cursor) (m m' : Scan α) : Prop :=
  ∀ x next, m.Yields cursor x next → next.rest <:+ cursor.rest ∧
    (next.rest ≠ [] ∨ Closes more → m'.Reads (· = cursor.rest ++ more) x (· = next.rest ++ more))

def Local (more : List Char) (m m' : Scan α) : Prop :=
  ∀ cursor, LocalAt more cursor m m'

namespace Closes

variable {p : Char → Bool} {c : Char}

theorem head?_any (h : Closes more) (hp : p ')' = false) : more.head?.any p = false := by
  cases more with
  | nil => rfl
  | cons d more =>
    cases h d rfl
    exact hp

theorem head?_ne (h : Closes more) (hc : c ≠ ')') : more.head? ≠ some c :=
  fun hm => hc (h c hm)

end Closes

-- What is seen at the same place with more text behind it: the same, or what closes a parenthesis around the text.
def Sees (o o' : Option Char) : Prop :=
  o' = o ∨ o = none ∧ o' = some ')'

namespace Sees

variable {o o' : Option Char} {p : Char → Bool} {c : Char}

theorem eq_some_iff (h : Sees o o') (hc : c ≠ ')') : o = some c ↔ o' = some c := by
  rcases h with rfl | ⟨rfl, rfl⟩
  case inl => rfl
  case inr => simp [hc.symm]

theorem any_iff (h : Sees o o') (hp : p ')' = false) : o.any p ↔ o'.any p := by
  rcases h with rfl | ⟨rfl, rfl⟩
  case inl => rfl
  case inr => simp [hp]

end Sees

theorem sees_append {text : List Char} (h : text ≠ [] ∨ Closes more) : Sees text.head? (text ++ more).head? := by
  cases text with
  | cons => exact .inl rfl
  | nil =>
    cases hm : more.head? with
    | none => exact .inl hm
    | some c =>
      cases h.resolve_left (· rfl) c hm
      exact .inr ⟨rfl, hm⟩

-- Who leaves something has been given something.
theorem leaves_of_suffix {rest text : List Char} (hs : rest <:+ text) (h : rest ≠ [] ∨ Closes more) :
    text ≠ [] ∨ Closes more :=
  h.imp_left fun hn he => hn (List.suffix_nil.mp (he ▸ hs))

namespace LocalAt

variable {m m' : Scan α}

theorem pure {x : α} : LocalAt more cursor (pure x) (Pure.pure x) := by
  intro y next h
  have ⟨hy, hn⟩ := yields_pure.mp h
  subst hy hn
  exact ⟨List.suffix_rfl, fun _ => .pure⟩

theorem bind {f f' : α → Scan β} (hm : LocalAt more cursor m m') (hf : ∀ x, Local more (f x) (f' x)) :
    LocalAt more cursor (m >>= f) (m' >>= f') := by
  intro y next h
  have ⟨x, mid, hx, hy⟩ := yields_bind.mp h
  have ⟨hs, hr⟩ := hm x mid hx
  have ⟨hs', hr'⟩ := hf x mid y next hy
  exact ⟨hs'.trans hs, fun hn => (hr (leaves_of_suffix hs' hn)).bind (hr' hn)⟩

theorem failAt {p : Nat} {fault : SyntaxFault} : LocalAt more cursor (Scan.failAt p fault) m' :=
  fun _ _ h => absurd h not_yields_failAt

theorem fail {fault : SyntaxFault} : LocalAt more cursor (Scan.fail fault) m' :=
  fun _ _ h => absurd h not_yields_fail

theorem ite {c : Prop} [Decidable c] {n n' : Scan α} (hm : LocalAt more cursor m m')
    (hn : LocalAt more cursor n n') : LocalAt more cursor (if c then m else n) (if c then m' else n') := by
  split
  case isTrue => exact hm
  case isFalse => exact hn

theorem get_bind {f f' : Cursor → Scan α}
    (hf : ∀ cursor', cursor'.rest = cursor.rest ++ more → LocalAt more cursor (f cursor) (f' cursor')) :
    LocalAt more cursor (get >>= f) (get >>= f') := by
  intro x next h
  have ⟨_, _, hg, hx⟩ := yields_bind.mp h
  have ⟨hc, hm⟩ := yields_get.mp hg
  rw [hc, hm] at hx
  have ⟨hs, _⟩ := hf ⟨cursor.rest ++ more, 0⟩ rfl x next hx
  refine ⟨hs, fun hn => .get_bind fun cursor' hc => ?_⟩
  have ⟨_, hr⟩ := hf cursor' hc x next hx
  exact (hr hn).mono (by rintro _ rfl; exact hc) fun _ => id

-- Positions differ, but they only occur in errors.
theorem position_bind {f f' : Nat → Scan α} (hf : ∀ p p', LocalAt more cursor (f p) (f' p')) :
    LocalAt more cursor (position >>= f) (position >>= f') := by
  intro x next h
  have ⟨_, _, hp, hx⟩ := yields_bind.mp h
  have ⟨hn, hp⟩ := yields_position.mp hp
  subst hn hp
  have ⟨hs, _⟩ := hf _ 0 x next hx
  exact ⟨hs, fun hn => .position_bind fun p' => (hf _ p' x next hx).right hn⟩

end LocalAt

namespace Local

variable {m m' : Scan α}

theorem pure {x : α} : Local more (pure x) (Pure.pure x) :=
  fun _ => .pure

theorem bind {f f' : α → Scan β} (hm : Local more m m') (hf : ∀ x, Local more (f x) (f' x)) :
    Local more (m >>= f) (m' >>= f') :=
  fun cursor => (hm cursor).bind hf

theorem failAt {p : Nat} {fault : SyntaxFault} : Local more (Scan.failAt p fault) m' :=
  fun _ => .failAt

theorem fail {fault : SyntaxFault} : Local more (Scan.fail fault) m' :=
  fun _ => .fail

theorem ite {c : Prop} [Decidable c] {n n' : Scan α} (hm : Local more m m') (hn : Local more n n') :
    Local more (if c then m else n) (if c then m' else n') :=
  fun cursor => .ite (hm cursor) (hn cursor)

theorem ite_of_iff {c c' : Prop} [Decidable c] [Decidable c'] {n n' : Scan α} (h : c ↔ c') (hm : Local more m m')
    (hn : Local more n n') : Local more (if c then m else n) (if c' then m' else n') := by
  by_cases hc : c
  case pos => rwa [if_pos hc, if_pos (h.mp hc)]
  case neg => rwa [if_neg hc, if_neg (mt h.mpr hc)]

theorem position_bind {f f' : Nat → Scan α} (hf : ∀ p p', Local more (f p) (f' p')) :
    Local more (position >>= f) (position >>= f') :=
  fun cursor => .position_bind fun p p' => hf p p' cursor

theorem map {f : α → β} (hm : Local more m m') : Local more (f <$> m) (f <$> m') := by
  simp only [map_eq_pure_bind]
  exact hm.bind fun _ => .pure

theorem discard (hm : Local more m m') : Local more (discard m) (Functor.discard m') :=
  hm.map

-- What is bounded by the length of the text may be bounded by that of a longer one.
theorem length_bind {f f' : Nat → Scan α} (hf : ∀ {n n'}, n ≤ n' → Local more (f n) (f' n')) :
    Local more (get >>= fun cursor => f cursor.rest.length) (get >>= fun cursor => f' cursor.rest.length) := by
  intro cursor
  apply LocalAt.get_bind
  intro cursor' hc
  have hl : cursor.rest.length ≤ cursor'.rest.length := by rw [hc, List.length_append]; omega
  exact hf hl cursor

section Characters

variable {p : Char → Bool} {c : Char}

theorem takeWhile_append_of_not_head? (he : more.head?.any p = false) (text : List Char) :
    (text ++ more).takeWhile p = text.takeWhile p := by
  rw [List.takeWhile_append, takeWhile_eq_nil_of_head? he, List.append_nil]
  split
  case isTrue h => exact ((List.takeWhile_prefix p).eq_of_length h).symm
  case isFalse => rfl

theorem takeWhile (hp : p ')' = false) : Local more (Scan.takeWhile p) (Scan.takeWhile p) := by
  intro cursor cs next h
  have ⟨hc, hn⟩ := yields_takeWhile.mp h
  have hr : next.rest = cursor.rest.dropWhile p := by
    rw [hn, hc]
    exact drop_length_takeWhile p cursor.rest
  refine ⟨hr ▸ List.dropWhile_suffix p, fun hl cursor' hc' => ?_⟩
  refine ⟨_, yields_takeWhile.mpr ⟨?_, rfl⟩, ?_⟩
  case refine_1 =>
    rw [hc', hc]
    rcases hl with hl | hl
    case inl =>
      have hd : cursor.rest.dropWhile p ≠ [] := hr ▸ hl
      have ht : (cursor.rest.takeWhile p).length ≠ cursor.rest.length := by
        intro he
        apply hd
        rw [← drop_length_takeWhile, he, List.drop_length]
      rw [List.takeWhile_append, if_neg ht]
    case inr => rw [takeWhile_append_of_not_head? (hl.head?_any hp)]
  case refine_2 =>
    have hl : cs.length ≤ cursor.rest.length := hc ▸ (List.takeWhile_prefix p).length_le
    change cursor'.rest.drop cs.length = _
    rw [hc', List.drop_append_of_le_length hl, hr, hc, drop_length_takeWhile]

theorem skipBlank : Local more Scan.skipBlank Scan.skipBlank :=
  discard (takeWhile rfl)

theorem peek_bind {f f' : Option Char → Scan α} (hf : ∀ {o o'}, Sees o o' → Local more (f o) (f' o')) :
    Local more (peek >>= f) (peek >>= f') := by
  intro cursor x next h
  have ⟨_, mid, ho, hx⟩ := yields_bind.mp h
  have ⟨hm, ho⟩ := yields_peek.mp ho
  subst hm ho
  have ⟨hs, _⟩ := hf (.inl rfl) mid x next hx
  refine ⟨hs, fun hd => ?_⟩
  have ⟨_, hr⟩ := hf (sees_append (leaves_of_suffix hs hd)) mid x next hx
  exact (Reads.peek (by rintro _ rfl; rfl)).bind (hr hd)

theorem char? (hc : c ≠ ')') : Local more (Scan.char? c) (Scan.char? c) := by
  intro cursor b next h
  rcases yields_char?.mp h with ⟨hc, rfl, rfl⟩ | ⟨hn, rfl, rfl⟩
  case inl =>
    have ⟨cs, hcs⟩ := List.head?_eq_some_iff.mp hc
    have hr : (cursor.advance 1).rest = cs := by simp [Cursor.advance, hcs]
    rw [hr, hcs]
    exact ⟨List.suffix_cons c cs, fun _ => .char?⟩
  case inr =>
    refine ⟨List.suffix_rfl, fun hl => .char?_false ?_⟩
    rintro _ rfl
    exact mt ((sees_append hl).eq_some_iff hc).mpr hn

theorem expect : Local more (Scan.expect c) (Scan.expect c) := by
  intro cursor u next h
  rw [rest_of_expect h]
  exact ⟨List.suffix_cons c next.rest, fun _ => .expect⟩

theorem identifier : Local more Scan.identifier Scan.identifier :=
  (takeWhile rfl).bind fun _ => .ite .fail .pure

theorem integer : Local more Scan.integer Scan.integer :=
  position_bind fun _ _ => (char? (by decide)).bind fun _ => (takeWhile rfl).bind fun _ =>
    .ite .failAt (.ite .pure .failAt)

theorem numberLiteral : Local more Scan.numberLiteral Scan.numberLiteral := by
  apply position_bind
  intro start start'
  refine (char? (by decide)).bind fun negative => (takeWhile rfl).bind fun whole => ?_
  refine (char? (by decide)).bind fun point => .ite ?_ ?_
  case refine_1 => exact (takeWhile rfl).bind fun _ => .ite .failAt .pure
  case refine_2 => exact .ite .failAt (.ite .pure .failAt)

end Characters

section Quoted

-- A quote that something follows is the last one of the text or it is not, whatever comes behind.
theorem quotedBody?_append {text s : List Char} {n : Nat} (h : quotedBody? text = some (s, n)) :
    n ≤ text.length ∧ (text.drop n ≠ [] ∨ more.head? ≠ some '\x27' → quotedBody? (text ++ more) = some (s, n)) := by
  induction text using quotedBody?.induct generalizing s n with
  | case1 => cases h
  | case2 rest ih =>
    simp only [quotedBody?, Option.map_eq_some_iff] at h
    obtain ⟨⟨s', n'⟩, hb, he⟩ := h
    cases he
    obtain ⟨hn, hl⟩ := ih hb
    refine ⟨by simp only [List.length_cons]; omega, fun hd => ?_⟩
    simp [quotedBody?, hl hd]
  | case3 rest hq =>
    rw [quotedBody?, if_pos rfl] at h
    case x_1 => exact fun rest' _ hr => hq rest' rfl hr
    cases h
    refine ⟨by simp, fun hd => ?_⟩
    rw [List.cons_append, quotedBody?, if_pos rfl]
    rintro rest' _ hr
    cases rest with
    | nil => exact hd.resolve_left (· rfl) (by rw [← List.nil_append more, hr]; rfl)
    | cons d rest =>
      cases hr
      exact hq _ rfl rfl
  | case4 c rest hq hc ih =>
    rw [quotedBody?, if_neg hc, Option.map_eq_some_iff] at h
    case x_1 => exact fun rest' hc' _ => hc hc'
    obtain ⟨⟨s', n'⟩, hb, he⟩ := h
    cases he
    obtain ⟨hn, hl⟩ := ih hb
    refine ⟨by simp only [List.length_cons]; omega, fun hd => ?_⟩
    rw [List.cons_append, quotedBody?, if_neg hc, hl hd]
    · rfl
    · exact fun rest' hc' _ => hc hc'

theorem quotedString : Local more Scan.quotedString Scan.quotedString := by
  refine position_bind fun start start' => expect.bind fun _ cursor => ?_
  apply LocalAt.get_bind
  intro cursor' hc
  cases hb : quotedBody? cursor.rest with
  | none => exact .failAt
  | some body =>
    obtain ⟨s, n⟩ := body
    intro x next h
    have ⟨_, _, hm, hx⟩ := yields_bind.mp h
    have ⟨hx, hn⟩ := yields_pure.mp hx
    rw [yields_modify.mp hm] at hn
    have ⟨hl, ha⟩ : _ ∧ (_ → quotedBody? (cursor.rest ++ more) = _) := quotedBody?_append hb
    subst hx hn
    refine ⟨List.drop_suffix n cursor.rest, fun hd => ?_⟩
    have hb' : quotedBody? cursor'.rest = some (s, n) := hc ▸ ha (hd.imp_right fun hm => hm.head?_ne (by decide))
    simp only [hb']
    have hr : Reads (modify (·.advance n)) (· = cursor.rest ++ more) PUnit.unit (· = cursor.rest.drop n ++ more) := by
      have hr : Reads (modify (·.advance (cursor.rest.take n).length))
          (· = cursor.rest.take n ++ (cursor.rest.drop n ++ more)) PUnit.unit (· = cursor.rest.drop n ++ more) :=
        Reads.advance
      rwa [← List.append_assoc, List.take_append_drop, List.length_take_of_le hl] at hr
    exact hr.bind .pure

end Quoted

-- Words end where no identifier goes on, so what comes behind a text must not go on with its last word.
section Words

variable {word : String}

theorem length_le_of_takeWhile {p : Char → Bool} {text : List Char} (h : text.takeWhile p = word.toList) :
    word.length ≤ text.length := by
  rw [← String.length_toList, ← h]
  exact (List.takeWhile_prefix p).length_le

theorem keyword (he : more.head?.any isIdentifierChar = false) (hw : ∀ c ∈ word.toList, isIdentifierChar c) :
    Local more (Scan.keyword word) (Scan.keyword word) := by
  intro cursor b next h
  rcases (yields_keyword hw).mp h with ⟨ht, rfl, rfl⟩ | ⟨ht, rfl, rfl⟩
  case inl =>
    have hl := length_le_of_takeWhile ht
    refine ⟨List.drop_suffix word.length cursor.rest, fun _ cursor' hc => ?_⟩
    refine ⟨_, (yields_keyword hw).mpr (.inl ⟨?_, rfl, rfl⟩), ?_⟩
    case refine_1 => rw [hc, takeWhile_append_of_not_head? he, ht]
    case refine_2 =>
      change cursor'.rest.drop word.length = _
      rw [hc, List.drop_append_of_le_length hl]
      rfl
  case inr =>
    refine ⟨List.suffix_rfl, fun _ cursor' hc => ⟨cursor', (yields_keyword hw).mpr (.inr ⟨?_, rfl, rfl⟩), hc⟩⟩
    rwa [hc, takeWhile_append_of_not_head? he]

-- An identifier is read in the same way even if nothing is left of the text.
theorem reads_identifier (he : more.head?.any isIdentifierChar = false) {name : String}
    (h : Scan.identifier.Yields cursor name next) :
    Scan.identifier.Reads (· = cursor.rest ++ more) name (· = next.rest ++ more) := by
  intro cursor' hc
  have ⟨hn, hne, ha⟩ := yields_identifier.mp h
  have hl : name.toList.length ≤ cursor.rest.length := hn ▸ (List.takeWhile_prefix _).length_le
  refine ⟨_, yields_identifier.mpr ⟨?_, hne, rfl⟩, ?_⟩
  case refine_1 => rw [hn, hc, takeWhile_append_of_not_head? he]
  case refine_2 =>
    change cursor'.rest.drop name.toList.length = _
    rw [hc, ha, List.drop_append_of_le_length hl]
    rfl

end Words

-- What stands between the items of a repetition: it takes a character, and none of an empty text.
structure Separates (more : List Char) (again : Scan Bool) : Prop where
  keeps    : Local more again again
  consumes : ∀ {cursor next}, again.Yields cursor true next → next.rest.length < cursor.rest.length
  stops    : again.Reads (· = []) false (· = [])

namespace Separates

variable {mark : Char} {word : String}

theorem length_lt_of_char? (h : (Scan.char? mark).Yields cursor true next) : next.rest.length < cursor.rest.length := by
  rcases yields_char?.mp h with ⟨hc, -, rfl⟩ | ⟨-, hb, -⟩
  case inl =>
    have ⟨cs, hcs⟩ := List.head?_eq_some_iff.mp hc
    simp [Cursor.advance, hcs]
  case inr => contradiction

theorem length_lt_of_keyword (hw : IsIdentifier word) (h : (Scan.keyword word).Yields cursor true next) :
    next.rest.length < cursor.rest.length := by
  rcases (yields_keyword hw.right).mp h with ⟨ht, -, rfl⟩ | ⟨-, hb, -⟩
  case inl =>
    have hl := length_le_of_takeWhile ht
    have hp : word.length ≠ 0 := by simpa [String.length_eq_zero_iff] using hw.left
    simp only [Cursor.advance, List.length_drop]
    omega
  case inr => contradiction

theorem char? (hm : mark ≠ ')') : Separates more (Scan.char? mark) where
  keeps := Local.char? hm
  consumes := length_lt_of_char?
  stops := .char?_false (by rintro _ rfl; exact nofun)

-- What follows the text is not read either.
theorem reads_false {again : Scan Bool} (h : Separates more again) (hm : Closes more) :
    again.Reads (· = more) false (· = more) := by
  have ⟨next, hy, hn⟩ := h.stops ⟨[], 0⟩ rfl
  have ⟨_, hr⟩ := h.keeps _ _ _ hy
  rw [hn] at hr
  exact hr (.inr hm)

-- Blanks in front change nothing.
theorem afterBlank {again : Scan Bool} (h : Separates more again) : Separates more (do Scan.skipBlank; again) where
  keeps := Local.skipBlank.bind fun _ => h.keeps
  consumes := by
    intro cursor next hy
    have ⟨u, mid, hb, hy⟩ := yields_bind.mp hy
    have hs : mid.rest.length ≤ cursor.rest.length := by
      rw [rest_of_skipBlank hb]
      exact (List.dropWhile_suffix _).length_le
    exact Nat.lt_of_lt_of_le (h.consumes hy) hs
  stops := (Reads.skipBlank_of_eq rfl).bind h.stops

theorem keyword (he : more.head?.any isIdentifierChar = false) (hw : IsIdentifier word) :
    Separates more (Scan.keyword word) where
  keeps := Local.keyword he hw.right
  consumes := length_lt_of_keyword hw
  stops := .keyword_false hw rfl

end Separates

section Many

variable {again : Scan Bool} {item item' : σ → Scan α} {step : σ → α → σ} {s : σ} {n n' : Nat}

-- A bound above the length of the text is not used up, so a greater one makes no difference.
theorem manyAfter (ha : Separates more again) (hi : ∀ s, Local more (item s) (item' s))
    (hl : cursor.rest.length ≤ n) (hn : n ≤ n') :
    LocalAt more cursor (Scan.manyAfter again item step n s) (Scan.manyAfter again item' step n' s) := by
  induction n generalizing cursor s n' with
  | zero =>
    intro xs next h
    have ⟨hx, hc⟩ := yields_manyAfter_zero.mp h
    have hr : cursor.rest = [] := List.length_eq_zero_iff.mp (Nat.le_zero.mp hl)
    subst hx hc
    refine ⟨List.suffix_rfl, fun hd => ?_⟩
    rw [hr]
    cases n' with
    | zero => exact .pure
    | succ n' => exact .manyAfter_nil (ha.reads_false (hd.resolve_left (· hr)))
  | succ n ih =>
    obtain ⟨n', rfl⟩ := Nat.exists_eq_add_one.mpr (Nat.zero_lt_of_lt hn)
    intro xs next h
    rcases yields_manyAfter_succ.mp h with ⟨c₁, hc, x, c₂, hx, xs, hxs, rfl⟩ | ⟨hc, rfl⟩
    case inl =>
      have hlt := ha.consumes hc
      have ⟨hs₁, hr₁⟩ := ha.keeps cursor _ _ hc
      have ⟨hs₂, hr₂⟩ := hi s c₁ _ _ hx
      have hle := hs₂.length_le
      have hl : LocalAt more c₂ (Scan.manyAfter again item step n (step s x))
          (Scan.manyAfter again item' step n' (step s x)) := ih (by omega) (by omega)
      have ⟨hs₃, hr₃⟩ := hl xs next hxs
      refine ⟨hs₃.trans (hs₂.trans hs₁), fun hd => ?_⟩
      have hd₂ := leaves_of_suffix hs₃ hd
      have hd₁ := leaves_of_suffix hs₂ hd₂
      exact .manyAfter_cons (hr₁ hd₁) (hr₂ hd₂) (hr₃ hd)
    case inr =>
      have ⟨hs, hr⟩ := ha.keeps cursor _ _ hc
      exact ⟨hs, fun hd => .manyAfter_nil (hr hd)⟩

-- The bound is the length of the text that is left at the start.
theorem repeated_bind {k k' : List α → Scan β} (ha : Separates more again) (hi : ∀ s, Local more (item s) (item' s))
    (hk : ∀ xs, Local more (k xs) (k' xs)) :
    Local more (do let xs ← Scan.manyAfter again item step (← get).rest.length s; k xs)
      (do let xs ← Scan.manyAfter again item' step (← get).rest.length s; k' xs) := by
  intro cursor
  apply LocalAt.get_bind
  intro cursor' hc
  have hn : cursor.rest.length ≤ cursor'.rest.length := by rw [hc, List.length_append]; omega
  exact (manyAfter ha hi (Nat.le_refl _) hn).bind hk

end Many

section Joined

variable {again : Scan Bool} {item item' : Scan α} {mark : Char}

theorem many (ha : Separates more again) (hi : Local more item item') :
    Local more (Scan.many again item) (Scan.many again item') := by
  intro cursor
  apply LocalAt.get_bind
  intro cursor' hc
  have hn : cursor.rest.length ≤ cursor'.rest.length := by rw [hc, List.length_append]; omega
  exact manyAfter ha (fun _ => hi) (Nat.le_refl _) hn

theorem joinedBy (hm : mark ≠ ')') (hi : Local more item item') :
    Local more (Scan.joinedBy mark item) (Scan.joinedBy mark item') :=
  hi.bind fun _ => (many (.char? hm) hi).bind fun _ => .pure

theorem listBy (hm : mark ≠ ')') (hi : Local more item item') :
    Local more (Scan.listBy mark item) (Scan.listBy mark item') :=
  hi.bind fun _ => (many (Separates.char? hm).afterBlank hi).bind fun _ => .pure

theorem chain {word : String} {combine : α → α → α} (he : more.head?.any isIdentifierChar = false)
    (hw : IsIdentifier word) (hi : Local more item item') :
    Local more (Scan.chain word combine item) (Scan.chain word combine item') :=
  hi.bind fun _ => (many (Separates.keyword he hw).afterBlank hi).bind fun _ => .pure

theorem qualifiedName : Local more Scan.qualifiedName Scan.qualifiedName :=
  (joinedBy (by decide) identifier).bind fun _ => .pure

end Joined

end Local
end Scan
end RowPipeline
