import RowPipeline.Clause.Cursor

namespace RowPipeline.Scan

-- What is said of the characters in a text is decided by looking at these, not at all characters.
instance (priority := high) (P : Char → Prop) [DecidablePred P] (cs : List Char) : Decidable (∀ c ∈ cs, P c) :=
  List.decidableBAll P cs

instance (priority := high) (P : Char → Prop) [DecidablePred P] (c? : Option Char) : Decidable (∀ c ∈ c?, P c) :=
  Option.decidableForallMem c?

variable {α β σ : Type} {cursor next : Cursor}

-- The step succeeds at a cursor, with a result and the cursor at which it ends.
def Yields (m : Scan α) (cursor : Cursor) (x : α) (next : Cursor) : Prop :=
  m cursor = .ok (x, next)

theorem run'_eq_ok {m : Scan α} {x : α} :
    m.run' cursor = .ok x ↔ ∃ next, m.Yields cursor x next := by
  change Prod.fst <$> m cursor = .ok x ↔ _
  simp only [Yields]
  cases m cursor with
  | error e => simp [Functor.map, Except.map]
  | ok p =>
    simp only [Functor.map, Except.map, Except.ok.injEq]
    constructor
    case mp => rintro rfl; exact ⟨p.2, rfl⟩
    case mpr => rintro ⟨next, rfl⟩; rfl

@[simp]
theorem yields_bind {m : Scan α} {f : α → Scan β} {y : β} :
    (m >>= f).Yields cursor y next ↔ ∃ x mid, m.Yields cursor x mid ∧ (f x).Yields mid y next := by
  change (m cursor >>= fun p => f p.1 p.2) = .ok (y, next) ↔ _
  simp only [Yields]
  cases m cursor with
  | error e => simp [bind, Except.bind]
  | ok p =>
    simp only [bind, Except.bind, Except.ok.injEq]
    constructor
    case mp => exact fun h => ⟨p.1, p.2, rfl, h⟩
    case mpr => rintro ⟨x, mid, rfl, h⟩; exact h

@[simp]
theorem yields_pure {x y : α} : (pure x : Scan α).Yields cursor y next ↔ y = x ∧ next = cursor := by
  change Except.ok (x, cursor) = .ok (y, next) ↔ _
  simp only [Except.ok.injEq, Prod.mk.injEq]
  exact and_congr eq_comm eq_comm

@[simp]
theorem yields_get {c : Cursor} : (get : Scan Cursor).Yields cursor c next ↔ c = cursor ∧ next = cursor :=
  yields_pure

@[simp]
theorem yields_modify {f : Cursor → Cursor} {u : PUnit} :
    (modify f : Scan PUnit).Yields cursor u next ↔ next = f cursor := by
  change Except.ok (PUnit.unit, f cursor) = .ok (u, next) ↔ _
  simp only [Except.ok.injEq, Prod.mk.injEq, true_and]
  exact eq_comm

@[simp]
theorem not_yields_failAt {p : Nat} {fault : SyntaxFault} {x : α} :
    ¬(failAt p fault : Scan α).Yields cursor x next :=
  nofun

@[simp]
theorem not_yields_fail {fault : SyntaxFault} {x : α} :
    ¬(fail fault : Scan α).Yields cursor x next :=
  nofun

@[simp]
theorem yields_map {m : Scan α} {f : α → β} {y : β} :
    (f <$> m).Yields cursor y next ↔ ∃ x, m.Yields cursor x next ∧ y = f x := by
  simp only [map_eq_pure_bind, yields_bind, yields_pure]
  constructor
  case mp => rintro ⟨x, mid, h, hy, rfl⟩; exact ⟨x, h, hy⟩
  case mpr => rintro ⟨x, h, hy⟩; exact ⟨x, next, h, hy, rfl⟩

@[simp]
theorem yields_discard {m : Scan α} {u : PUnit} :
    (discard m).Yields cursor u next ↔ ∃ x, m.Yields cursor x next := by
  change (Function.const α PUnit.unit <$> m).Yields cursor u next ↔ _
  simp

@[simp]
theorem yields_ite {p : Prop} [Decidable p] {m₁ m₂ : Scan α} {x : α} :
    (if p then m₁ else m₂).Yields cursor x next ↔
      (p ∧ m₁.Yields cursor x next) ∨ (¬p ∧ m₂.Yields cursor x next) := by
  split <;> simp_all

@[simp]
theorem yields_position {p : Nat} :
    position.Yields cursor p next ↔ next = cursor ∧ p = cursor.position := by
  simp [position, and_assoc]

@[simp]
theorem yields_peek {o : Option Char} :
    peek.Yields cursor o next ↔ next = cursor ∧ o = cursor.rest.head? := by
  simp [peek, and_assoc]

theorem yields_takeWhile {p : Char → Bool} {cs : List Char} :
    (takeWhile p).Yields cursor cs next ↔
      cs = cursor.rest.takeWhile p ∧ next = cursor.advance cs.length := by
  simp only [takeWhile, bind_pure_comp, yields_bind, yields_map, yields_modify, yields_get, and_assoc,
    exists_and_left, exists_eq_left, exists_const]
  constructor
  case mp => rintro ⟨rfl, rfl⟩; exact ⟨rfl, rfl⟩
  case mpr => rintro ⟨rfl, rfl⟩; exact ⟨rfl, rfl⟩

theorem drop_length_takeWhile (p : α → Bool) (cs : List α) :
    cs.drop (cs.takeWhile p).length = cs.dropWhile p :=
  calc cs.drop (cs.takeWhile p).length
    _ = (cs.takeWhile p ++ cs.dropWhile p).drop (cs.takeWhile p).length := by
        rw [List.takeWhile_append_dropWhile]
    _ = cs.dropWhile p := List.drop_left

theorem yields_skipBlank {u : Unit} :
    skipBlank.Yields cursor u next ↔
      next = cursor.advance (cursor.rest.takeWhile Text.isBlank).length := by
  simp [skipBlank, yields_takeWhile]

theorem rest_of_skipBlank {u : Unit} (h : skipBlank.Yields cursor u next) :
    next.rest = cursor.rest.dropWhile Text.isBlank := by
  rw [yields_skipBlank.mp h]
  exact drop_length_takeWhile _ _

theorem yields_char? {c : Char} {b : Bool} :
    (char? c).Yields cursor b next ↔
      (cursor.rest.head? = some c ∧ b = true ∧ next = cursor.advance 1) ∨
      (cursor.rest.head? ≠ some c ∧ b = false ∧ next = cursor) := by
  simp [char?, and_assoc, and_comm]

theorem yields_expect {c : Char} {u : Unit} :
    (expect c).Yields cursor u next ↔ cursor.rest.head? = some c ∧ next = cursor.advance 1 := by
  simp [expect, yields_char?]

theorem rest_of_expect {c : Char} {u : Unit} (h : (expect c).Yields cursor u next) :
    cursor.rest = c :: next.rest := by
  have ⟨hc, hn⟩ := yields_expect.mp h
  have ⟨cs, hcs⟩ := List.head?_eq_some_iff.mp hc
  simp [hn, Cursor.advance, hcs]

theorem yields_identifier {name : String} :
    identifier.Yields cursor name next ↔
      name.toList = cursor.rest.takeWhile isIdentifierChar ∧ name ≠ "" ∧
        next = cursor.advance name.toList.length := by
  simp only [identifier, yields_bind, yields_takeWhile, yields_ite, not_yields_fail, and_false, false_or,
    yields_pure, List.isEmpty_iff, and_assoc, exists_and_left, exists_eq_left]
  constructor
  case mp => rintro ⟨hne, rfl, rfl⟩; simp [hne]
  case mpr =>
    rintro ⟨hn, hne, rfl⟩
    simp [← hn, hne]

-- Some characters with a property are all with which a text starts, if the text goes on with none.
theorem takeWhile_eq_iff {p : α → Bool} {w cs : List α} (hw : ∀ c ∈ w, p c) :
    cs.takeWhile p = w ↔ w <+: cs ∧ (cs.drop w.length).head?.any p = false := by
  constructor
  case mp =>
    rintro rfl
    refine ⟨List.takeWhile_prefix p, ?_⟩
    rw [drop_length_takeWhile]
    have h := List.head?_dropWhile_not p cs
    cases hd : (cs.dropWhile p).head? <;> simp_all
  case mpr =>
    rintro ⟨⟨t, rfl⟩, ht⟩
    rw [List.drop_left] at ht
    rw [List.takeWhile_append_of_pos hw]
    cases t <;> simp_all

-- A word is there if it is all that can be read as an identifier.
theorem yields_keyword {word : String} {b : Bool} (hw : ∀ c ∈ word.toList, isIdentifierChar c) :
    (keyword word).Yields cursor b next ↔
      (cursor.rest.takeWhile isIdentifierChar = word.toList ∧ b = true ∧
        next = cursor.advance word.length) ∨
      (cursor.rest.takeWhile isIdentifierChar ≠ word.toList ∧ b = false ∧ next = cursor) := by
  rw [ne_eq, takeWhile_eq_iff hw, String.length_toList]
  simp only [keyword, bind_pure_comp, yields_bind, yields_get, yields_ite, yields_map, yields_modify,
    yields_pure, Bool.and_eq_true, List.isPrefixOf_iff_prefix, Bool.not_eq_true', and_assoc,
    exists_and_left, exists_eq_left, exists_const]
  rw [and_comm (a := next = _)]

def signed (negative : Bool) (digits : List Char) : Int :=
  if negative then -(Decimal.ofDigits digits : Int) else Decimal.ofDigits digits

theorem yields_integer {k : Int} :
    integer.Yields cursor k next ↔
      ∃ negative mid, (char? '-').Yields cursor negative mid ∧ mid.rest.takeWhile Char.isDigit ≠ [] ∧
        k = signed negative (mid.rest.takeWhile Char.isDigit) ∧
        (-9223372036854775808 ≤ k ∧ k < 9223372036854775808) ∧
        next = mid.advance (mid.rest.takeWhile Char.isDigit).length := by
  simp only [integer, signed, yields_bind, yields_position, yields_takeWhile, and_assoc, exists_and_left,
    exists_eq_left, yields_ite, not_yields_failAt, and_false, false_or, or_false, yields_pure,
    List.isEmpty_iff]
  constructor
  case mp =>
    rintro ⟨negative, mid, hc, hne, hl, hr, rfl, rfl⟩
    exact ⟨negative, mid, hc, hne, rfl, hl, hr, rfl⟩
  case mpr =>
    rintro ⟨negative, mid, hc, hne, rfl, hl, hr, rfl⟩
    exact ⟨negative, mid, hc, hne, hl, hr, rfl, rfl⟩

-- Repetitions: what holds of every item holds of all that are read.
section Many

variable {again : Scan Bool} {item : σ → Scan α} {step : σ → α → σ} {s : σ} {xs : List α} {n : Nat}

@[simp]
theorem yields_manyAfter_zero :
    (manyAfter again item step 0 s).Yields cursor xs next ↔ xs = [] ∧ next = cursor :=
  yields_pure

theorem yields_manyAfter_succ :
    (manyAfter again item step (n + 1) s).Yields cursor xs next ↔
      (∃ c₁, again.Yields cursor true c₁ ∧ ∃ x c₂, (item s).Yields c₁ x c₂ ∧
        ∃ more, (manyAfter again item step n (step s x)).Yields c₂ more next ∧ xs = x :: more) ∨
      (again.Yields cursor false next ∧ xs = []) := by
  simp only [manyAfter, yields_bind, yields_ite, yields_pure, Bool.exists_bool, Bool.false_eq_true,
    false_and, not_false_eq_true, true_and, false_or, not_true_eq_false, or_false, bind_pure_comp, yields_map]
  rw [or_comm]
  refine or_congr Iff.rfl ?_
  constructor
  case mp => rintro ⟨mid, h, rfl, rfl⟩; exact ⟨h, rfl⟩
  case mpr => rintro ⟨h, rfl⟩; exact ⟨next, h, rfl, rfl⟩

theorem forall_of_manyAfter {P : α → Prop} (hi : ∀ {s c x c'}, (item s).Yields c x c' → P x)
    (h : (manyAfter again item step n s).Yields cursor xs next) : ∀ x ∈ xs, P x := by
  induction n generalizing cursor s xs
  case zero =>
    rw [yields_manyAfter_zero] at h
    simp [h.left]
  case succ n ih =>
    rcases yields_manyAfter_succ.mp h with ⟨_, _, x, _, hx, more, hm, rfl⟩ | ⟨_, rfl⟩
    case inl => exact List.forall_mem_cons.mpr ⟨hi hx, ih hm⟩
    case inr => simp

end Many

section Joined

variable {again : Scan Bool} {item : Scan α} {P : α → Prop} {xs : List α}

theorem forall_of_many (hi : ∀ {c x c'}, item.Yields c x c' → P x)
    (h : (many again item).Yields cursor xs next) : ∀ x ∈ xs, P x := by
  simp only [many, yields_bind, yields_get] at h
  obtain ⟨_, _, _, h⟩ := h
  exact forall_of_manyAfter hi h

theorem yields_joinedBy {mark : Char} :
    (joinedBy mark item).Yields cursor xs next ↔
      ∃ x c', item.Yields cursor x c' ∧
        ∃ more, (many (char? mark) item).Yields c' more next ∧ xs = x :: more := by
  simp [joinedBy]

theorem yields_listBy {mark : Char} :
    (listBy mark item).Yields cursor xs next ↔
      ∃ x c', item.Yields cursor x c' ∧
        ∃ more, (many (do skipBlank; char? mark) item).Yields c' more next ∧ xs = x :: more := by
  simp [listBy]

theorem yields_chain {word : String} {combine : α → α → α} {x : α} :
    (chain word combine item).Yields cursor x next ↔
      ∃ first c', item.Yields cursor first c' ∧
        ∃ more, (many (do skipBlank; keyword word) item).Yields c' more next ∧
          x = more.foldl combine first := by
  simp [chain]

theorem forall_of_joinedBy {mark : Char} (hi : ∀ {c x c'}, item.Yields c x c' → P x)
    (h : (joinedBy mark item).Yields cursor xs next) : xs ≠ [] ∧ ∀ x ∈ xs, P x := by
  obtain ⟨x, _, hx, more, hm, rfl⟩ := yields_joinedBy.mp h
  exact ⟨List.cons_ne_nil _ _, List.forall_mem_cons.mpr ⟨hi hx, forall_of_many hi hm⟩⟩

theorem forall_of_listBy {mark : Char} (hi : ∀ {c x c'}, item.Yields c x c' → P x)
    (h : (listBy mark item).Yields cursor xs next) : xs ≠ [] ∧ ∀ x ∈ xs, P x := by
  obtain ⟨x, _, hx, more, hm, rfl⟩ := yields_listBy.mp h
  exact ⟨List.cons_ne_nil _ _, List.forall_mem_cons.mpr ⟨hi hx, forall_of_many hi hm⟩⟩

theorem of_chain {word : String} {combine : α → α → α} {x : α}
    (hi : ∀ {c x c'}, item.Yields c x c' → P x) (hc : ∀ {x y}, P x → P y → P (combine x y))
    (h : (chain word combine item).Yields cursor x next) : P x := by
  obtain ⟨first, _, hf, more, hm, rfl⟩ := yields_chain.mp h
  exact List.foldlRecOn more combine (hi hf) fun _ hx y hy => hc hx (forall_of_many hi hm y hy)

end Joined

end RowPipeline.Scan
