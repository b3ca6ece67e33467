import RowPipeline.Proofs.Clause.GrammarProgress

namespace RowPipeline

open Scan

variable {gain bound : Nat}

namespace Scan

variable {α σ : Type} {cursor next : Cursor}

-- Counting in bytes: one for every character of names and numbers, and as many as they have for marks and words.
section Bytes

variable {m : Scan α} {x : α} {c : Char} {cs : List Char} {name word : String}

theorem position_of_yields (hm : ∀ text, Steady text 0 0 m m) (h : m.Yields cursor x next)
    (hr : cursor.rest = cs ++ next.rest) : next.position = cursor.position + (String.ofList cs).utf8ByteSize := by
  have ⟨text, hs⟩ := cursor.exists_standsIn
  have ⟨hs', _⟩ := (hm text cursor hs).treads.of_yields h
  exact hs.position_of_rest hs' hr

theorem val_le_of_isAlphanum (h : c.isAlphanum) : c.val ≤ 127 := by
  have h : ((decide ('A'.val ≤ c.val ∧ c.val ≤ 'Z'.val) || ('a'.val ≤ c.val && c.val ≤ 'z'.val)) ||
    ('0'.val ≤ c.val && c.val ≤ '9'.val)) = true := h
  simp only [Bool.or_eq_true, Bool.and_eq_true, decide_eq_true_eq] at h
  grind

theorem utf8Size_of_isIdentifierChar (h : isIdentifierChar c) : c.utf8Size = 1 := by
  simp only [isIdentifierChar, Bool.or_eq_true, beq_iff_eq] at h
  rcases h with (rfl | rfl) | h
  case inl.inl | inl.inr => decide
  case inr => exact Char.utf8Size_eq_one_iff.mpr (val_le_of_isAlphanum h)

theorem utf8ByteSize_of_identifierChars (h : ∀ c ∈ cs, isIdentifierChar c) :
    (String.ofList cs).utf8ByteSize = cs.length := by
  induction cs with
  | nil => simp
  | cons c cs ih =>
    have ⟨hc, hcs⟩ := List.forall_mem_cons.mp h
    rw [String.ofList_cons, String.utf8ByteSize_append, String.utf8ByteSize_singleton, ih hcs,
      utf8Size_of_isIdentifierChar hc, List.length_cons, Nat.add_comm]

theorem position_of_identifier (h : identifier.Yields cursor name next) :
    next.position = cursor.position + name.length := by
  have hn : ∀ c ∈ name.toList, isIdentifierChar c := by
    rw [(yields_identifier.mp h).left]
    exact List.all_eq_true.mp List.all_takeWhile
  rw [position_of_yields (fun _ => Steady.identifier.weaken) h (rest_of_identifier h),
    utf8ByteSize_of_identifierChars hn, String.length_toList]

-- How far the readers move the cursor, in bytes: one for every character of names and numbers, and as many as
-- they have for words and marks.
structure CountsBytes : Prop where
  name  : ∀ {cursor name next}, identifier.Yields cursor name next → next.position = cursor.position + name.length
  digit : ∀ {cursor ds next}, (takeWhile Char.isDigit).Yields cursor ds next →
    next.position = cursor.position + ds.length
  word  : ∀ {word cursor next}, (∀ c ∈ word.toList, isIdentifierChar c) → (keyword word).Yields cursor true next →
    next.position = cursor.position + word.utf8ByteSize
  mark  : ∀ {c cursor next}, (char? c).Yields cursor true next → next.position = cursor.position + c.utf8Size

theorem countsBytes : CountsBytes where
  name := position_of_identifier
  digit h := by
    have ⟨hr, hd⟩ := rest_of_takeWhile h
    rw [position_of_yields (fun _ => Steady.takeWhile) h hr,
      utf8ByteSize_of_identifierChars fun c hc => Token.isIdentifierChar_of_isDigit (hd c hc)]
  word hw h := by
    rw [position_of_yields (fun _ => Steady.keyword) h (rest_of_keyword hw h), String.ofList_toList]
  mark {c _ _} h := by
    have hr : _ = [c] ++ _ := rest_of_char? h
    rw [position_of_yields (fun _ => Steady.char?) h hr, String.ofList_cons, String.utf8ByteSize_append,
      String.utf8ByteSize_singleton]
    rfl

end Bytes

-- The reader goes from place to place in every text, and ahead if it succeeds.
structure Progresses (m : Scan α) : Prop where
  treads   : ∀ {text cursor}, cursor.StandsIn text → Treads text m cursor
  advances : ∀ {cursor x next}, m.Yields cursor x next → cursor.position < next.position

theorem progresses_of_steady {m : Scan α} (h : ∀ text, Steady text 1 0 m m) : Progresses m where
  treads hs := (h _ _ hs).treads
  advances {cursor _ _} hy := by
    have ⟨text, hs⟩ := cursor.exists_standsIn
    have hm := h text cursor hs
    have ⟨hs', hr, _⟩ := hm.treads.of_yields hy
    exact hs.position_lt hs' hr (hm.gains hy)

-- A bound above `n` makes no difference.
def EndsWithin (n : Nat) (reader : Nat → Scan α) (cursor : Cursor) : Prop :=
  ∀ n', n ≤ n' → reader n' cursor = reader n cursor

-- Every level takes a character, so one level more than characters are left is as deep as the reader goes. It never
-- gets to the bottom from there, or from a greater depth.
structure DepthEnds (reader : Nat → Scan α) (cursor : Cursor) : Prop where
  ends  : EndsWithin (cursor.rest.length + 1) reader cursor
  lasts : ∀ depth, cursor.rest.length < depth → ¬Exhausted (reader depth) cursor

theorem depthEnds_of_steady {reader : Nat → Scan α}
    (h : ∀ {text depth depth'}, depth ≤ depth' → Steady text gain depth (reader depth) (reader depth')) :
    DepthEnds reader cursor := by
  have ⟨text, hs⟩ := cursor.exists_standsIn
  constructor
  case ends => exact fun depth hd => (h hd cursor hs).agrees (Nat.lt_succ_self _)
  case lasts => exact fun depth hd => (h (Nat.le_refl _) cursor hs).lasts hd

-- Every turn of the loop takes a character, so there are no more turns than characters left. With that bound or a
-- greater one, it is not the bound that ends a loop, but that nothing more follows.
structure LoopEnds (again : Scan Bool) (item : σ → Scan α) (step : σ → α → σ) (s : σ) (cursor : Cursor) : Prop where
  ends  : EndsWithin cursor.rest.length (fun n => manyAfter again item step n s) cursor
  takes : ∀ {n xs next}, (manyAfter again item step n s).Yields cursor xs next →
    xs.length + next.rest.length ≤ cursor.rest.length
  stops : ∀ {n xs next}, cursor.rest.length ≤ n → (manyAfter again item step n s).Yields cursor xs next →
    ∃ before, again.Yields before false next

-- The loop of `many`.
def ManyEnds (again : Scan Bool) (item : Scan α) (cursor : Cursor) : Prop :=
  LoopEnds again (fun _ => item) (fun _ _ => ()) () cursor

section Loops

variable {again : Scan Bool} {item : σ → Scan α} {step : σ → α → σ} {s : σ}

theorem loopEnds (ha : ∀ text, Separates text again) (hi : ∀ text s, Steady text gain 0 (item s) (item s)) :
    LoopEnds again item step s cursor := by
  have ⟨text, hs⟩ := cursor.exists_standsIn
  have hi : ∀ s, Steady text 0 0 (item s) (item s) := fun s => (hi text s).weaken
  constructor
  case ends => exact fun n hn => manyAfter_of_le (ha text) hi hs (Nat.le_refl _) hn
  case takes => exact length_le_of_manyAfter (ha text) hi hs
  case stops => exact exists_yields_false_of_manyAfter (ha text) hi hs

theorem manyEnds {item : Scan α} (ha : ∀ text, Separates text again) (hi : ∀ text, Steady text gain 0 item item) :
    ManyEnds again item cursor :=
  loopEnds ha fun text _ => hi text

end Loops
end Scan

-- What is read of a clause goes ahead.
structure ReadersProgress (binding : Option Binding) : Prop where
  transformation : ∀ depth, Progresses (Transformation.scan depth binding)
  sequence       : ∀ depth, Progresses (Transformation.sequenceOf (Transformation.scan depth) binding)
  filter         : Progresses (Filter.scan binding)
  condition      : ∀ depth, Progresses (Filter.scanUnary binding depth)
  operand        : ∀ depth, Progresses (Operand.scan binding depth)
  path           : Progresses (PropertyPath.scan binding)
  orderItem      : Progresses (OrderItem.scan binding)
  aggregate      : Progresses (Aggregate.scan binding)

theorem readersProgress (binding : Option Binding) : ReadersProgress binding where
  transformation _ := progresses_of_steady fun _ => (Transformation.steady_scan (Nat.le_refl _)).zero
  sequence _ := progresses_of_steady fun _ =>
    (Transformation.steady_sequenceOf fun _ => Transformation.steady_scan (Nat.le_refl _)).zero
  filter := progresses_of_steady fun _ => Filter.steady_scan
  condition _ := progresses_of_steady fun _ => (Filter.steady_scanUnary (Nat.le_refl _)).zero
  operand _ := progresses_of_steady fun _ => (Operand.steady_scan (Nat.le_refl _)).zero
  path := progresses_of_steady fun _ => PropertyPath.steady_scan
  orderItem := progresses_of_steady fun _ => OrderItem.steady_scan
  aggregate := progresses_of_steady fun _ => Aggregate.steady_scan

-- Concatenations, conditions and calls are not nested deeper than there are characters left.
structure DepthsEnd (binding : Option Binding) (cursor : Cursor) : Prop where
  transformation : DepthEnds (Transformation.scan · binding) cursor
  condition      : DepthEnds (Filter.scanUnary binding) cursor
  operand        : DepthEnds (Operand.scan binding) cursor

theorem depthsEnd (binding : Option Binding) (cursor : Cursor) : DepthsEnd binding cursor where
  transformation := depthEnds_of_steady Transformation.steady_scan
  condition := depthEnds_of_steady Filter.steady_scanUnary
  operand := depthEnds_of_steady Operand.steady_scan

-- Repetitions do not take more turns than there are characters left, whatever the depth of their items.
structure LoopsEnd (binding : Option Binding) (depth : Nat) (cursor : Cursor) : Prop where
  names      : ManyEnds (char? '/') identifier cursor
  parts      : ManyEnds (char? '.') identifier cursor
  paths      : ManyEnds (do skipBlank; char? ',') (PropertyPath.scan binding) cursor
  orderItems : ManyEnds (do skipBlank; char? ',') (OrderItem.scan binding) cursor
  aggregates : ManyEnds (do skipBlank; char? ',') (Aggregate.scan binding) cursor
  arguments  : ManyEnds (do skipBlank; char? ',') (Operand.scan binding depth) cursor
  conjuncts  : ManyEnds (do skipBlank; keyword "and") (Filter.scanUnary binding depth) cursor
  disjuncts  : ManyEnds (do skipBlank; keyword "or") (chain "and" .and (Filter.scanUnary binding depth)) cursor
  branches   : ManyEnds (do skipBlank; char? ',') (Transformation.sequenceOf (Transformation.scan depth) binding) cursor
  steps      : LoopEnds (do skipBlank; char? '/') (Transformation.scan depth) (fun _ t => t.2) binding cursor

theorem loopsEnd (binding : Option Binding) (depth : Nat) (cursor : Cursor) : LoopsEnd binding depth cursor := by
  have mark : ∀ {c : Char}, c ≠ ')' → ∀ text, Separates text (do skipBlank; char? c) :=
    fun hc _ => (Separates.char? hc).afterBlank
  have word : ∀ {w : String}, IsIdentifier w → ∀ text, Separates text (do skipBlank; keyword w) :=
    fun hw _ => (Separates.keyword hw).afterBlank
  have unary : ∀ text, Steady text 1 0 (Filter.scanUnary binding depth) (Filter.scanUnary binding depth) :=
    fun _ => (Filter.steady_scanUnary (Nat.le_refl _)).zero
  have step : ∀ text binding, Steady text 1 0 (Transformation.scan depth binding) (Transformation.scan depth binding) :=
    fun _ _ => (Transformation.steady_scan (Nat.le_refl _)).zero
  exact {
    names := manyEnds (fun _ => .char? (by decide)) fun _ => .identifier
    parts := manyEnds (fun _ => .char? (by decide)) fun _ => .identifier
    paths := manyEnds (mark (by decide)) fun _ => PropertyPath.steady_scan
    orderItems := manyEnds (mark (by decide)) fun _ => OrderItem.steady_scan
    aggregates := manyEnds (mark (by decide)) fun _ => Aggregate.steady_scan
    arguments := manyEnds (mark (by decide)) fun _ => (Operand.steady_scan (Nat.le_refl _)).zero
    conjuncts := manyEnds (word (by decide)) unary
    disjuncts := manyEnds (word (by decide)) fun _ => .chain (by decide) (unary _)
    steps := loopEnds (mark (by decide)) step
    branches := manyEnds (mark (by decide)) fun _ => Transformation.steady_sequenceOf (step _) }

namespace Clause

theorem error_of_parse {binding : Option Binding} {text : String} {e : SyntaxError}
    (h : parse binding text = .error e) : Clause.scan binding (.ofString text) = .error e := by
  change Prod.fst <$> Clause.scan binding (.ofString text) = .error e at h
  cases hs : Clause.scan binding (.ofString text) with
  | error => rw [hs] at h; cases h; rfl
  | ok => rw [hs] at h; cases h

-- Reading goes from place to place of the text, and errors are at places. What is read goes ahead, which bounds the
-- depth of recursion and the turns of loops, so that no text is nested too deeply.
theorem scan_goes_ahead (text : String) (binding : Option Binding) :
    Treads text (Clause.scan binding) (.ofString text) ∧
    (∀ e, parse binding text = .error e →
      IsPlace text e.position ∧ e.position ≤ text.utf8ByteSize ∧ e.fault ≠ .tooDeep) ∧
    (∀ cursor : Cursor, cursor.StandsIn text → (⟨cursor.position⟩ : String.Pos.Raw).IsValid text) ∧
    CountsBytes ∧ (∀ binding, ReadersProgress binding) ∧ (∀ binding cursor, DepthsEnd binding cursor) ∧
    ∀ binding depth cursor, LoopsEnd binding depth cursor := by
  have hs : SteadyAt text 0 (text.toList.length + 1) (.ofString text) (Clause.scan binding) (Clause.scan binding) :=
    steady_scan _ (Cursor.standsIn_ofString text)
  refine ⟨hs.treads, fun e he => ?_, fun _ hs => hs.isPlace.isValid, countsBytes, readersProgress, depthsEnd, loopsEnd⟩
  have he := error_of_parse he
  have hp := hs.treads.of_error he
  exact ⟨hp, hp.le, fun hf => hs.lasts (Nat.lt_succ_self _) ⟨e.position, hf ▸ he⟩⟩

end Clause
end RowPipeline
