import RowPipeline.Proofs.Clause.NumberLiteral
import RowPipeline.Proofs.Clause.Progress

namespace RowPipeline.Scan

variable {α β σ : Type} {text : String} {gain bound : Nat} {cursor next : Cursor}

-- The reader had not the depth that it needs from here.
def Exhausted (m : Scan α) (cursor : Cursor) : Prop :=
  ∃ p, m cursor = .error ⟨p, .tooDeep⟩

-- From here, `m` treads on places of the text, and what it yields leaves `gain` characters less at least. If less than
-- `bound` characters are left, it has all the depth that it needs, and does what `m'` does, which may go deeper.
structure SteadyAt (text : String) (gain bound : Nat) (cursor : Cursor) (m m' : Scan α) : Prop where
  treads : Treads text m cursor
  gains  : ∀ {x next}, m.Yields cursor x next → next.rest.length + gain ≤ cursor.rest.length
  agrees : cursor.rest.length < bound → m' cursor = m cursor
  lasts  : cursor.rest.length < bound → ¬Exhausted m cursor

def Steady (text : String) (gain bound : Nat) (m m' : Scan α) : Prop :=
  ∀ cursor : Cursor, cursor.StandsIn text → SteadyAt text gain bound cursor m m'

namespace SteadyAt

variable {m m' : Scan α} {f f' : α → Scan β}

theorem mono {gain' bound' : Nat} (h : SteadyAt text gain bound cursor m m') (hg : gain' ≤ gain) (hb : bound' ≤ bound) :
    SteadyAt text gain' bound' cursor m m' where
  treads := h.treads
  gains hy := (Nat.add_le_add_left hg _).trans (h.gains hy)
  agrees hl := h.agrees (hl.trans_le hb)
  lasts hl := h.lasts (hl.trans_le hb)

-- A reader does what it does itself.
theorem self {bound' : Nat} (h : SteadyAt text gain bound cursor m m') (hl : cursor.rest.length < bound) :
    SteadyAt text gain bound' cursor m m :=
  { h with agrees := fun _ => rfl, lasts := fun _ => h.lasts hl }

theorem exhausted_bind (h : Exhausted (m >>= f) cursor) :
    Exhausted m cursor ∨ ∃ x next, m.Yields cursor x next ∧ Exhausted (f x) next := by
  obtain ⟨p, hp⟩ := h
  rcases Treads.bind_eq_error hp with hm | ⟨x, next, hy, hf⟩
  case inl => exact .inl ⟨p, hm⟩
  case inr => exact .inr ⟨x, next, hy, p, hf⟩

theorem bind_congr (hm : m' cursor = m cursor) (hf : ∀ {x next}, m.Yields cursor x next → f' x next = f x next) :
    (m' >>= f') cursor = (m >>= f) cursor := by
  change (m' cursor >>= fun p => f' p.1 p.2) = (m cursor >>= fun p => f p.1 p.2)
  rw [hm]
  cases h : m cursor with
  | error => rfl
  | ok p => exact hf h

-- What the first reader gains the second one need not gain, and its bound may be smaller by that.
theorem bind (hm : SteadyAt text 0 bound cursor m m')
    (hf : ∀ {x next}, m.Yields cursor x next → next.StandsIn text → next.rest.length ≤ cursor.rest.length →
      SteadyAt text (gain - (cursor.rest.length - next.rest.length)) (bound - (cursor.rest.length - next.rest.length))
        next (f x) (f' x)) :
    SteadyAt text gain bound cursor (m >>= f) (m' >>= f') := by
  have hs : ∀ {x next}, m.Yields cursor x next → next.StandsIn text := fun hy => (hm.treads.of_yields hy).left
  refine ⟨.bind hm.treads fun hy => (hf hy (hs hy) (hm.gains hy)).treads, fun h => ?_, fun hl => ?_, fun hl h => ?_⟩
  case refine_1 =>
    obtain ⟨x, mid, hx, hy⟩ := yields_bind.mp h
    have hl := hm.gains hx
    have hg := (hf hx (hs hx) hl).gains hy
    omega
  case refine_2 =>
    refine bind_congr (hm.agrees hl) fun hy => ?_
    have hl := hm.gains hy
    exact (hf hy (hs hy) hl).agrees (by omega)
  case refine_3 =>
    rcases exhausted_bind h with h | ⟨x, mid, hy, h⟩
    case inl => exact hm.lasts hl h
    case inr =>
      have hle := hm.gains hy
      exact (hf hy (hs hy) hle).lasts (by omega) h

theorem andThen (hm : SteadyAt text 0 bound cursor m m')
    (hf : ∀ {x next}, m.Yields cursor x next → next.StandsIn text → SteadyAt text gain bound next (f x) (f' x)) :
    SteadyAt text gain bound cursor (m >>= f) (m' >>= f') :=
  hm.bind fun hy hs _ => (hf hy hs).mono (Nat.sub_le ..) (Nat.sub_le ..)

theorem pure {x : α} (h : cursor.StandsIn text) : SteadyAt text 0 bound cursor (pure x) (Pure.pure x) where
  treads := .pure h
  gains hy := (yields_pure.mp hy).right ▸ Nat.le_refl _
  agrees _ := rfl
  lasts _ := nofun

theorem look (h : cursor.StandsIn text) : SteadyAt text 0 bound cursor get get where
  treads := .look h
  gains hy := (yields_get.mp hy).right ▸ Nat.le_refl _
  agrees _ := rfl
  lasts _ := nofun

-- As many characters less are left as have been taken.
theorem take {n : Nat} {x : α} (h : cursor.StandsIn text) (hn : n ≤ cursor.rest.length) :
    SteadyAt text n bound cursor (do modify (·.advance n); return x) (do modify (·.advance n); return x) where
  treads := .bind (.move h hn) fun hy => .pure (yields_modify.mp hy ▸ h.advance n)
  gains hy := by
    obtain ⟨_, mid, hm, hy⟩ := yields_bind.mp hy
    rw [(yields_pure.mp hy).right, yields_modify.mp hm, Cursor.advance, List.length_drop]
    omega
  agrees _ := rfl
  lasts _ := nofun

theorem failAt {p : Nat} {fault : SyntaxFault} (h : cursor.StandsIn text) (hp : IsPlace text p)
    (hf : fault ≠ .tooDeep) : SteadyAt text gain bound cursor (failAt p fault : Scan α) (Scan.failAt p fault) where
  treads := .fail h hp
  gains hy := absurd hy not_yields_failAt
  agrees _ := rfl
  lasts _ := fun ⟨_, he⟩ => hf (congrArg SyntaxError.fault (Except.error.inj he))

theorem get_bind {f f' : Cursor → Scan α} (h : cursor.StandsIn text)
    (hf : SteadyAt text gain bound cursor (f cursor) (f' cursor)) :
    SteadyAt text gain bound cursor (get >>= f) (get >>= f') := by
  refine (look h).andThen fun hy _ => ?_
  obtain ⟨rfl, rfl⟩ := yields_get.mp hy
  exact hf

theorem peek_bind {f f' : Option Char → Scan α} (h : cursor.StandsIn text)
    (hf : SteadyAt text gain bound cursor (f cursor.rest.head?) (f' cursor.rest.head?)) :
    SteadyAt text gain bound cursor (peek >>= f) (peek >>= f') := by
  have hp : SteadyAt text 0 bound cursor peek peek := .get_bind h (.pure h)
  refine hp.andThen fun hy _ => ?_
  obtain ⟨rfl, rfl⟩ := yields_peek.mp hy
  exact hf

end SteadyAt

namespace Steady

variable {m m' n n' : Scan α} {f f' : α → Scan β}

theorem mono {gain' bound' : Nat} (h : Steady text gain bound m m') (hg : gain' ≤ gain) (hb : bound' ≤ bound) :
    Steady text gain' bound' m m' :=
  fun cursor hs => (h cursor hs).mono hg hb

theorem weaken (h : Steady text gain bound m m') : Steady text 0 bound m m' :=
  h.mono (Nat.zero_le _) (Nat.le_refl _)

theorem bind (hm : Steady text 0 bound m m') (hf : ∀ x, Steady text gain bound (f x) (f' x)) :
    Steady text gain bound (m >>= f) (m' >>= f') :=
  fun _ h => (hm _ h).andThen fun _ hs => hf _ _ hs

theorem bind_rest (hm : Steady text gain bound m m') (hf : ∀ x, Steady text 0 bound (f x) (f' x)) :
    Steady text gain bound (m >>= f) (m' >>= f') := by
  intro cursor h
  refine (hm.weaken _ h).bind fun hy hs _ => ?_
  have hg := (hm _ h).gains hy
  exact (hf _ _ hs).mono (by omega) (Nat.sub_le ..)

-- Once a character has been taken, the rest may be read to a lesser depth.
theorem bind_gain (hm : Steady text 1 bound m m') (hf : ∀ x, Steady text 0 (bound - 1) (f x) (f' x)) :
    Steady text 1 bound (m >>= f) (m' >>= f') := by
  intro cursor h
  refine (hm.weaken _ h).bind fun hy hs hl => ?_
  have hg := (hm _ h).gains hy
  exact (hf _ _ hs).mono (by omega) (by omega)

-- A bound of no characters says nothing of depths, nor of the other reader.
theorem zero (h : Steady text gain bound m m') : Steady text gain 0 m n' := by
  intro cursor hs
  have hn : ∀ {p : Prop}, cursor.rest.length < 0 → p := fun hl => absurd hl (Nat.not_lt_zero _)
  exact { h cursor hs with agrees := hn, lasts := hn }

theorem pure {x : α} : Steady text 0 bound (pure x) (Pure.pure x) :=
  fun _ h => .pure h

theorem failAt {p : Nat} {fault : SyntaxFault} (hp : IsPlace text p) (hf : fault ≠ .tooDeep := by simp) :
    Steady text gain bound (Scan.failAt p fault : Scan α) (Scan.failAt p fault) :=
  fun _ h => .failAt h hp hf

theorem position_bind {f f' : Nat → Scan α} (hf : ∀ p, IsPlace text p → Steady text gain bound (f p) (f' p)) :
    Steady text gain bound (position >>= f) (position >>= f') := by
  intro cursor h
  have hp : SteadyAt text 0 bound cursor position position := .get_bind h (.pure h)
  refine hp.andThen fun hy _ => ?_
  obtain ⟨rfl, rfl⟩ := yields_position.mp hy
  exact hf _ h.isPlace _ h

theorem fail {fault : SyntaxFault} (hf : fault ≠ .tooDeep := by simp) :
    Steady text gain bound (Scan.fail fault : Scan α) (Scan.fail fault) :=
  position_bind fun _ hp => failAt hp hf

-- Without any depth.
theorem tooDeep : Steady text gain 0 (Scan.fail .tooDeep : Scan α) m' := by
  have hf : ∀ p, IsPlace text p →
      Steady text gain 0 (Scan.failAt p .tooDeep : Scan α) (Scan.failAt p .tooDeep) := by
    intro p hp cursor h
    have hn : ∀ {p : Prop}, cursor.rest.length < 0 → p := fun hl => absurd hl (Nat.not_lt_zero _)
    exact { treads := .fail h hp, gains := fun hy => absurd hy not_yields_failAt, agrees := hn, lasts := hn }
  exact (position_bind hf).zero

-- What depends on the number of characters left.
theorem length_bind {f : Nat → Scan α} (hf : ∀ n, Steady text gain (n + 1) (f n) (f n)) :
    Steady text gain bound (get >>= fun cursor => f cursor.rest.length) (get >>= fun cursor => f cursor.rest.length) :=
  fun cursor h => .get_bind h ((hf _ cursor h).self (Nat.lt_succ_self _))

theorem ite {c : Prop} [Decidable c] (hm : Steady text gain bound m m') (hn : Steady text gain bound n n') :
    Steady text gain bound (if c then m else n) (if c then m' else n') := by
  split
  case isTrue => exact hm
  case isFalse => exact hn

theorem discard (hm : Steady text 0 bound m m') : Steady text 0 bound (discard m) (Functor.discard m') := by
  change Steady text 0 bound (Function.const α PUnit.unit <$> m) (Function.const α PUnit.unit <$> m')
  simp only [map_eq_pure_bind]
  exact hm.bind fun _ => .pure

section Characters

variable {c : Char} {p : Char → Bool} {word : String}

theorem takeWhile : Steady text 0 bound (Scan.takeWhile p) (Scan.takeWhile p) := by
  intro cursor h
  have ht : (cursor.rest.takeWhile p).length ≤ cursor.rest.length := (List.takeWhile_prefix p).length_le
  exact .get_bind h ((SteadyAt.take h ht).mono (Nat.zero_le _) (Nat.le_refl _))

theorem skipBlank : Steady text 0 bound Scan.skipBlank Scan.skipBlank :=
  discard takeWhile

theorem peek : Steady text 0 bound Scan.peek Scan.peek :=
  fun _ h => .get_bind h (.pure h)

theorem char? : Steady text 0 bound (Scan.char? c) (Scan.char? c) := by
  intro cursor h
  apply SteadyAt.peek_bind h
  split
  case isTrue hc =>
    obtain ⟨cs, hcs⟩ := List.head?_eq_some_iff.mp hc
    exact (SteadyAt.take h (by simp [hcs])).mono (Nat.zero_le 1) (Nat.le_refl _)
  case isFalse => exact .pure h

theorem keyword : Steady text 0 bound (Scan.keyword word) (Scan.keyword word) := by
  intro cursor h
  apply SteadyAt.get_bind h
  simp only []
  split
  case isTrue hc =>
    have hp : word.toList <+: cursor.rest := List.isPrefixOf_iff_prefix.mp (Bool.and_eq_true_iff.mp hc).left
    have hl : word.length ≤ cursor.rest.length := String.length_toList ▸ hp.length_le
    exact (SteadyAt.take h hl).mono (Nat.zero_le _) (Nat.le_refl _)
  case isFalse => exact .pure h

-- A reader that takes a character whenever it succeeds.
theorem gaining (hm : Steady text 0 bound m m')
    (hg : ∀ {cursor x next}, m.Yields cursor x next → next.rest.length < cursor.rest.length) :
    Steady text 1 bound m m' :=
  fun cursor h => { hm cursor h with gains := hg }

theorem expect : Steady text 1 bound (Scan.expect c) (Scan.expect c) := by
  refine gaining (char?.bind fun _ => .ite .pure .fail) fun hy => ?_
  rw [rest_of_expect hy]
  exact Nat.lt_succ_self _

theorem identifier : Steady text 1 bound Scan.identifier Scan.identifier := by
  refine gaining (takeWhile.bind fun _ => .ite .fail .pure) fun hy => ?_
  have ⟨_, hn, _⟩ := yields_identifier.mp hy
  have hl := List.length_pos_of_ne_nil (mt String.toList_eq_nil_iff.mp hn)
  rw [rest_of_identifier hy, List.length_append]
  omega

theorem integer : Steady text 0 bound Scan.integer Scan.integer :=
  position_bind fun _ hp => char?.bind fun _ => takeWhile.bind fun _ => .ite (.failAt hp) (.ite .pure (.failAt hp))

theorem numberLiteral : Steady text 1 bound Scan.numberLiteral Scan.numberLiteral := by
  refine gaining (position_bind fun start hp => ?_) fun hy => ?_
  case refine_1 =>
    refine char?.bind fun _ => takeWhile.bind fun _ => char?.bind fun _ => .ite ?_ ?_
    case refine_1 => exact takeWhile.bind fun _ => .ite (.failAt hp) .pure
    case refine_2 => exact .ite (.failAt hp) (.ite .pure (.failAt hp))
  case refine_2 =>
    have ⟨l, hw, hr, _⟩ := NumberLiteral.spelt_of_yields hy
    have hl := List.length_pos_of_ne_nil hw.chars_ne_nil
    rw [hr, List.length_append]
    omega

theorem quotedString : Steady text 1 bound Scan.quotedString Scan.quotedString := by
  refine position_bind fun start hp => expect.bind_gain fun _ cursor h => .get_bind h ?_
  cases hb : quotedBody? cursor.rest with
  | none => exact .failAt h hp (by simp)
  | some body =>
    have hl : body.2 ≤ cursor.rest.length := (@Local.quotedBody?_append [] _ _ _ hb).left
    exact (SteadyAt.take h hl).mono (Nat.zero_le _) (Nat.le_refl _)

end Characters

-- One of two ways, the first of them behind something that takes a character.
theorem branch {again : Scan Bool} (ha : Steady text 0 bound again again)
    (hg : ∀ {cursor next}, again.Yields cursor true next → next.rest.length < cursor.rest.length)
    (hm : Steady text 0 (bound - 1) m m') (hn : Steady text 1 bound n n') :
    Steady text 1 bound (do if ← again then m else n) (do if ← again then m' else n') := by
  intro cursor h
  refine (ha _ h).bind fun {b next} hy hs _ => ?_
  cases b with
  | true =>
    have hl := hg hy
    exact (hm _ hs).mono (by omega) (by omega)
  | false => exact (hn _ hs).mono (Nat.sub_le ..) (Nat.sub_le ..)

end Steady

-- What stands between the items of a repetition, in addition to what is said of it for reading with more text behind.
structure Separates (text : String) (again : Scan Bool) : Prop extends Local.Separates [] again where
  steady : ∀ bound, Steady text 0 bound again again

namespace Separates

variable {mark : Char} {word : String} {again : Scan Bool}

theorem char? (hm : mark ≠ ')') : Separates text (Scan.char? mark) where
  toSeparates := .char? hm
  steady _ := .char?

theorem keyword (hw : IsIdentifier word) : Separates text (Scan.keyword word) where
  toSeparates := .keyword rfl hw
  steady _ := .keyword

theorem afterBlank (h : Separates text again) : Separates text (do skipBlank; again) where
  toSeparates := h.toSeparates.afterBlank
  steady bound := Steady.skipBlank.bind fun _ => h.steady bound

-- At the end of the text, it stays where it is.
theorem yields_false (h : Separates text again) (hs : cursor.StandsIn text) (hr : cursor.rest = []) :
    again.Yields cursor false cursor := by
  have ⟨next, hy, hn⟩ := h.stops cursor hr
  have ⟨hs', _⟩ := ((h.steady 0) cursor hs).treads.of_yields hy
  rwa [hs.eq_of_rest hs' (hn.trans hr.symm)] at hy

end Separates

section Many

variable {again : Scan Bool} {item item' : σ → Scan α} {step : σ → α → σ} {s : σ} {n n' : Nat} {xs : List α}

theorem SteadyAt.manyAfter (ha : Separates text again) (hi : ∀ s, Steady text 0 bound (item s) (item' s))
    (hs : cursor.StandsIn text) :
    SteadyAt text 0 bound cursor (manyAfter again item step n s) (manyAfter again item' step n s) := by
  induction n generalizing cursor s with
  | zero => exact .pure hs
  | succ n ih =>
    refine (ha.steady _ _ hs).andThen fun {b mid} _ hs => ?_
    cases b with
    | false => exact .pure hs
    | true => exact (hi s _ hs).andThen fun _ hs => (ih hs).andThen fun _ hs => .pure hs

-- A turn of the loop ends at a place of the text, with one character less at least.
theorem turn_goes_ahead {mid : Cursor} {x : α} (ha : Separates text again) (hi : Steady text 0 0 (item s) (item s))
    (hs : cursor.StandsIn text) (hc : again.Yields cursor true mid) (hx : (item s).Yields mid x next) :
    next.StandsIn text ∧ next.rest.length < cursor.rest.length := by
  have hlt := ha.consumes hc
  have ⟨hm, _⟩ := (ha.steady 0 _ hs).treads.of_yields hc
  have hle := (hi _ hm).gains hx
  have ⟨hn, _⟩ := (hi _ hm).treads.of_yields hx
  exact ⟨hn, by omega⟩

-- So a loop does not take more turns than characters are left.
theorem manyAfter_of_le (ha : Separates text again) (hi : ∀ s, Steady text 0 0 (item s) (item s))
    (hs : cursor.StandsIn text) (hl : cursor.rest.length ≤ n) (hn : n ≤ n') :
    manyAfter again item step n' s cursor = manyAfter again item step n s cursor := by
  induction n generalizing cursor s n' with
  | zero =>
    have hr : cursor.rest = [] := List.length_eq_zero_iff.mp (Nat.le_zero.mp hl)
    cases n' with
    | zero => rfl
    | succ n' => exact yields_manyAfter_succ.mpr (.inr ⟨ha.yields_false hs hr, rfl⟩)
  | succ n ih =>
    obtain ⟨n', rfl⟩ := Nat.exists_eq_add_one.mpr (Nat.zero_lt_of_lt hn)
    refine SteadyAt.bind_congr rfl fun {b mid} hy => ?_
    cases b with
    | false => rfl
    | true =>
      refine SteadyAt.bind_congr rfl fun hx => ?_
      have ⟨hs, hlt⟩ := turn_goes_ahead ha (hi s) hs hy hx
      exact SteadyAt.bind_congr (ih hs (by omega) (by omega)) fun _ => rfl

-- What ends it is that nothing more follows.
theorem exists_yields_false_of_manyAfter (ha : Separates text again) (hi : ∀ s, Steady text 0 0 (item s) (item s))
    (hs : cursor.StandsIn text) (hl : cursor.rest.length ≤ n)
    (h : (manyAfter again item step n s).Yields cursor xs next) : ∃ before, again.Yields before false next := by
  induction n generalizing cursor s xs with
  | zero =>
    obtain ⟨-, rfl⟩ := yields_manyAfter_zero.mp h
    exact ⟨_, ha.yields_false hs (List.length_eq_zero_iff.mp (Nat.le_zero.mp hl))⟩
  | succ n ih =>
    rcases yields_manyAfter_succ.mp h with ⟨c₁, hc, x, c₂, hx, xs, hxs, -⟩ | ⟨hc, -⟩
    case inl =>
      have ⟨hs, hlt⟩ := turn_goes_ahead ha (hi s) hs hc hx
      exact ih hs (by omega) hxs
    case inr => exact ⟨cursor, hc⟩

theorem length_le_of_manyAfter (ha : Separates text again) (hi : ∀ s, Steady text 0 0 (item s) (item s))
    (hs : cursor.StandsIn text) (h : (manyAfter again item step n s).Yields cursor xs next) :
    xs.length + next.rest.length ≤ cursor.rest.length := by
  induction n generalizing cursor s xs with
  | zero =>
    obtain ⟨rfl, rfl⟩ := yields_manyAfter_zero.mp h
    exact (Nat.zero_add _).le
  | succ n ih =>
    rcases yields_manyAfter_succ.mp h with ⟨c₁, hc, x, c₂, hx, xs, hxs, rfl⟩ | ⟨hc, rfl⟩
    case inl =>
      have ⟨hs, hlt⟩ := turn_goes_ahead ha (hi s) hs hc hx
      have hl := ih hs hxs
      rw [List.length_cons]
      omega
    case inr => exact (Nat.zero_add _).le.trans ((ha.steady 0 _ hs).gains hc)

-- The bound is the number of characters that are left at the start.
theorem Steady.repeated_bind {k k' : List α → Scan β} (ha : Separates text again)
    (hi : ∀ s, Steady text 0 bound (item s) (item' s)) (hk : ∀ xs, Steady text 0 bound (k xs) (k' xs)) :
    Steady text 0 bound (do let xs ← Scan.manyAfter again item step (← get).rest.length s; k xs)
      (do let xs ← Scan.manyAfter again item' step (← get).rest.length s; k' xs) :=
  fun _ h => .get_bind h ((SteadyAt.manyAfter ha hi h).andThen fun _ hs => hk _ _ hs)

end Many

namespace Steady

variable {again : Scan Bool} {item item' : Scan α} {mark : Char}

theorem many (ha : Separates text again) (hi : Steady text 0 bound item item') :
    Steady text 0 bound (Scan.many again item) (Scan.many again item') :=
  fun _ h => .get_bind h (.manyAfter ha (fun _ => hi) h)

theorem joinedBy (hm : mark ≠ ')') (hi : Steady text gain bound item item') :
    Steady text gain bound (Scan.joinedBy mark item) (Scan.joinedBy mark item') :=
  hi.bind_rest fun _ => (many (.char? hm) hi.weaken).bind fun _ => .pure

theorem listBy (hm : mark ≠ ')') (hi : Steady text gain bound item item') :
    Steady text gain bound (Scan.listBy mark item) (Scan.listBy mark item') :=
  hi.bind_rest fun _ => (many (Separates.char? hm).afterBlank hi.weaken).bind fun _ => .pure

theorem chain {word : String} {combine : α → α → α} (hw : IsIdentifier word) (hi : Steady text gain bound item item') :
    Steady text gain bound (Scan.chain word combine item) (Scan.chain word combine item') :=
  hi.bind_rest fun _ => (many (Separates.keyword hw).afterBlank hi.weaken).bind fun _ => .pure

theorem qualifiedName : Steady text 1 bound Scan.qualifiedName Scan.qualifiedName :=
  (joinedBy (by decide) identifier).bind_rest fun _ => .pure

end Steady
end RowPipeline.Scan
