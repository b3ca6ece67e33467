import RowPipeline.Proofs.Clause.Steadiness

namespace RowPipeline

open Scan Local.Separates

variable {text : String} {gain bound depth depth' : Nat} {binding : Option Binding}

theorem Binding.checkPath_ne_tooDeep {fault : SyntaxFault} {path : PropertyPath} (b : Binding)
    (h : b.checkPath path = .error fault) : fault ≠ .tooDeep := by
  have go : ∀ names ty, checkPath.go b path ty names = .error fault → fault ≠ .tooDeep := by
    intro names
    induction names with
    | nil => exact fun _ h => nomatch h
    | cons name rest ih =>
      intro ty h
      cases ty with
      | none =>
        cases h
        simp
      | some ty =>
        rw [checkPath.go] at h
        split at h
        case h_1 =>
          cases h
          simp
        case h_2 => exact ih _ h
  exact go path _ h

namespace Scan.Steady

theorem checkPath {path : PropertyPath} {start : Nat} (hs : IsPlace text start) :
    Steady text 0 bound (Scan.checkPath binding path start) (Scan.checkPath binding path start) := by
  cases binding with
  | none => exact .pure
  | some b =>
    simp only [Scan.checkPath]
    cases hc : b.checkPath path with
    | ok => exact .pure
    | error => exact .failAt hs (b.checkPath_ne_tooDeep hc)

theorem segments : Steady text 0 bound Scan.segments Scan.segments :=
  many (.char? (by decide)) identifier.weaken

end Scan.Steady

namespace Operand

theorem steady_scanWord? : Steady text 0 bound scanWord? scanWord? := by
  refine Steady.keyword.bind fun _ => .ite .pure ?_
  refine Steady.keyword.bind fun _ => .ite .pure ?_
  exact Steady.keyword.bind fun _ => .ite .pure .pure

theorem length_lt_of_scanWord? {cursor next : Cursor} {o : Operand} (h : scanWord?.Yields cursor (some o) next) :
    next.rest.length < cursor.rest.length := by
  simp only [scanWord?, yields_bind, yields_ite, yields_pure, Option.some.injEq, reduceCtorEq, false_and,
    and_false, or_false] at h
  obtain ⟨_, c₁, h₁, ⟨rfl, -, rfl⟩ | ⟨hn₁, _, c₂, h₂, h⟩⟩ := h
  case inl => exact length_lt_of_keyword (by decide) h₁
  case inr =>
    obtain ⟨-, -, rfl⟩ := ((yields_keyword (by decide)).mp h₁).resolve_left fun h => hn₁ h.right.left
    obtain ⟨rfl, -, rfl⟩ | ⟨hn₂, _, c₃, h₃, rfl, -, rfl⟩ := h
    case inl => exact length_lt_of_keyword (by decide) h₂
    case inr =>
      obtain ⟨-, -, rfl⟩ := ((yields_keyword (by decide)).mp h₂).resolve_left fun h => hn₂ h.right.left
      exact length_lt_of_keyword (by decide) h₃

theorem steady_scanCall {start : Nat} {name : String} {operand operand' : Scan Operand} (hs : IsPlace text start)
    (ho : Steady text 0 bound operand operand') :
    Steady text 0 bound (scanCall start name operand) (scanCall start name operand') := by
  unfold scanCall
  cases ScalarFunction.ofName? name with
  | none => exact .failAt hs
  | some function =>
    refine Steady.expect.weaken.bind fun _ => (Steady.listBy (by decide) ho).bind fun _ => ?_
    exact Steady.expect.weaken.bind fun _ => .ite .pure (.failAt hs)

-- The name in front of arguments leaves less of the text for them.
theorem steady_scanNamed {operand operand' : Scan Operand} (ho : Steady text 0 (bound - 1) operand operand') :
    Steady text 1 bound (scanNamed binding operand) (scanNamed binding operand') := by
  refine .position_bind fun start hs => Steady.identifier.bind_gain fun name => Steady.skipBlank.bind fun _ => ?_
  refine Steady.peek.bind fun _ => .ite (steady_scanCall hs ho) ?_
  exact Steady.segments.bind fun _ => (Steady.checkPath hs).bind fun _ => .pure

theorem steady_scan (hd : depth ≤ depth') :
    Steady text 1 depth (Operand.scan binding depth) (Operand.scan binding depth') := by
  induction depth generalizing depth' with
  | zero => exact .tooDeep
  | succ depth ih =>
    obtain ⟨depth', rfl⟩ := Nat.exists_eq_add_one.mpr (Nat.zero_lt_of_lt hd)
    refine Steady.skipBlank.bind fun _ => Steady.peek.bind fun _ => .ite ?_ (.ite ?_ ?_)
    case refine_1 => exact Steady.quotedString.bind_rest fun _ => .pure
    case refine_2 => exact Steady.numberLiteral.bind_rest fun _ => .pure
    case refine_3 =>
      intro cursor h
      refine (steady_scanWord? _ h).bind fun {word next} hy hs hl => ?_
      cases word with
      | some operand =>
        have hl := length_lt_of_scanWord? hy
        exact (SteadyAt.pure hs).mono (by omega) (Nat.sub_le ..)
      | none => exact (steady_scanNamed (ih (by omega)).weaken _ hs).mono (Nat.sub_le ..) (Nat.sub_le ..)

end Operand

namespace Comparison

theorem steady_scan? : Steady text 0 bound scan? scan? := by
  have go : ∀ ops : List Comparison, Steady text 0 bound (scan?.go ops) (scan?.go ops) := by
    intro ops
    induction ops with
    | nil => exact .pure
    | cons op ops ih => exact Steady.keyword.bind fun _ => .ite .pure ih
  exact go all

end Comparison

namespace Filter

variable {item item' : Scan Filter}

theorem steady_scanOperand : Steady text 1 bound (scanOperand binding) (scanOperand binding) :=
  .length_bind fun _ => Operand.steady_scan (Nat.le_refl _)

theorem steady_scanComparison : Steady text 1 bound (scanComparison binding) (scanComparison binding) := by
  refine steady_scanOperand.bind_rest fun left => Steady.skipBlank.bind fun _ => Comparison.steady_scan?.bind ?_
  intro op
  cases op with
  | none => exact .pure
  | some op => exact Steady.skipBlank.bind fun _ => steady_scanOperand.weaken.bind fun _ => .pure

theorem steady_disjunction (hi : Steady text gain bound item item') :
    Steady text gain bound (disjunction item) (disjunction item') :=
  .chain (by decide) (.chain (by decide) hi)

theorem steady_scanUnary (hd : depth ≤ depth') :
    Steady text 1 depth (scanUnary binding depth) (scanUnary binding depth') := by
  induction depth generalizing depth' with
  | zero => exact .tooDeep
  | succ depth ih =>
    obtain ⟨depth', rfl⟩ := Nat.exists_eq_add_one.mpr (Nat.zero_lt_of_lt hd)
    have ih : Steady text 0 depth (scanUnary binding depth) (scanUnary binding depth') := (ih (by omega)).weaken
    refine Steady.skipBlank.bind fun _ => .branch .keyword (length_lt_of_keyword (by decide)) ?_ ?_
    case refine_1 => exact ih.bind fun _ => .pure
    case refine_2 =>
      refine .branch .char? length_lt_of_char? ?_ steady_scanComparison
      refine (steady_disjunction ih).bind fun _ => Steady.skipBlank.bind fun _ => ?_
      exact Steady.expect.weaken.bind fun _ => .pure

theorem steady_scan : Steady text 1 bound (Filter.scan binding) (Filter.scan binding) :=
  .length_bind fun _ => steady_disjunction (steady_scanUnary (Nat.le_refl _))

end Filter

namespace PropertyPath

theorem steady_scan : Steady text 1 bound (PropertyPath.scan binding) (PropertyPath.scan binding) := by
  refine Steady.skipBlank.bind fun _ => .position_bind fun start hs => ?_
  refine (Steady.joinedBy (by decide) Steady.identifier).bind_rest fun _ => ?_
  exact (Steady.checkPath hs).bind fun _ => .pure

end PropertyPath

namespace OrderItem

theorem steady_scan : Steady text 1 bound (OrderItem.scan binding) (OrderItem.scan binding) := by
  refine PropertyPath.steady_scan.bind_rest fun path => Steady.skipBlank.bind fun _ => ?_
  refine Steady.keyword.bind fun _ => .ite .pure ?_
  exact Steady.keyword.discard.bind fun _ => .pure

end OrderItem

namespace Aggregate

theorem steady_scanWord {word : String} : Steady text 0 bound (scanWord word) (scanWord word) :=
  Steady.skipBlank.bind fun _ => Steady.keyword.bind fun _ => .ite .pure .fail

theorem steady_scanOutput : Steady text 1 bound scanOutput scanOutput :=
  steady_scanWord.bind fun _ => Steady.skipBlank.bind fun _ => Steady.identifier

theorem steady_scan : Steady text 1 bound (Aggregate.scan binding) (Aggregate.scan binding) := by
  refine Steady.skipBlank.bind fun _ => Steady.keyword.bind fun _ => .ite ?_ ?_
  case refine_1 => exact steady_scanOutput.bind_rest fun _ => .pure
  case refine_2 =>
    refine PropertyPath.steady_scan.bind_rest fun path => steady_scanWord.bind fun _ => ?_
    refine Steady.skipBlank.bind fun _ => Steady.qualifiedName.weaken.bind fun method => ?_
    exact steady_scanOutput.weaken.bind fun _ => .pure

theorem steady_scanList : Steady text 1 bound (scanList binding) (scanList binding) :=
  .listBy (by decide) steady_scan

end Aggregate

namespace Transformation

theorem steady_scanCount : Steady text 0 bound scanCount scanCount :=
  Steady.skipBlank.bind fun _ => .position_bind fun _ hs => Steady.integer.bind fun _ => .ite (.failAt hs) .pure

theorem steady_closing : Steady text 1 bound closing closing :=
  Steady.skipBlank.bind fun _ => Steady.expect

theorem steady_scanGroupBy : Steady text 0 bound (scanGroupBy binding) (scanGroupBy binding) := by
  refine Steady.skipBlank.bind fun _ => Steady.expect.weaken.bind fun _ => ?_
  refine (Steady.listBy (by decide) PropertyPath.steady_scan.weaken).bind fun properties => ?_
  refine steady_closing.weaken.bind fun _ => Steady.skipBlank.bind fun _ => Steady.char?.bind fun _ => .ite ?_ .pure
  refine Aggregate.steady_scanWord.bind fun _ => Steady.skipBlank.bind fun _ => Steady.expect.weaken.bind fun _ => ?_
  exact Aggregate.steady_scanList.weaken.bind fun _ => steady_closing.weaken.bind fun _ => .pure

variable {item item' : Option Binding → Scan (Transformation × Option Binding)} {start : Nat} {name : String}

theorem steady_sequenceOf (hi : ∀ binding, Steady text gain bound (item binding) (item' binding)) :
    Steady text gain bound (sequenceOf item binding) (sequenceOf item' binding) :=
  (hi binding).bind_rest fun _ =>
    .repeated_bind (Separates.char? (by decide)).afterBlank (fun binding => (hi binding).weaken) fun _ => .pure

theorem steady_scanConcat (hs : IsPlace text start)
    (hi : ∀ binding, Steady text 0 bound (item binding) (item' binding)) :
    Steady text 0 bound (scanConcat start item binding) (scanConcat start item' binding) :=
  (Steady.listBy (by decide) (steady_sequenceOf hi)).bind fun _ => .ite (.failAt hs) .pure

theorem steady_scanBody (hs : IsPlace text start)
    (hi : ∀ binding, Steady text 0 bound (item binding) (item' binding)) :
    Steady text 0 bound (scanBody start name item binding) (scanBody start name item' binding) := by
  unfold scanBody
  split
  case h_1 => exact Aggregate.steady_scanList.weaken.bind fun _ => .pure
  case h_2 => exact steady_scanGroupBy.bind fun _ => .pure
  case h_3 => exact Filter.steady_scan.weaken.bind fun _ => .pure
  case h_4 => exact (Steady.listBy (by decide) PropertyPath.steady_scan).weaken.bind fun _ => .pure
  case h_5 => exact (Steady.listBy (by decide) OrderItem.steady_scan).weaken.bind fun _ => .pure
  case h_6 | h_7 => exact steady_scanCount.bind fun _ => .pure
  case h_8 => exact steady_scanConcat hs hi
  case h_9 => exact .failAt hs

-- The name of a transformation leaves less of the text for those in it.
theorem steady_scan (hd : depth ≤ depth') :
    Steady text 1 depth (Transformation.scan depth binding) (Transformation.scan depth' binding) := by
  induction depth generalizing depth' binding with
  | zero => exact .tooDeep
  | succ depth ih =>
    obtain ⟨depth', rfl⟩ := Nat.exists_eq_add_one.mpr (Nat.zero_lt_of_lt hd)
    refine Steady.skipBlank.bind fun _ => .position_bind fun start hs => Steady.identifier.bind_gain fun name => ?_
    refine .ite .pure (Steady.skipBlank.bind fun _ => Steady.expect.weaken.bind fun _ => ?_)
    refine (steady_scanBody hs fun _ => (ih (by omega)).weaken).bind fun _ => ?_
    exact steady_closing.weaken.bind fun _ => .pure

end Transformation

namespace Clause

theorem steady_scan : Steady text 0 bound (Clause.scan binding) (Clause.scan binding) := by
  intro cursor h
  have ht : ∀ binding, Steady text 0 (cursor.rest.length + 1) (Transformation.scan (cursor.rest.length + 1) binding)
      (Transformation.scan (cursor.rest.length + 1) binding) :=
    fun _ => (Transformation.steady_scan (Nat.le_refl _)).weaken
  refine .get_bind h (((Transformation.steady_sequenceOf ht _ h).self (Nat.lt_succ_self _)).andThen fun _ hs => ?_)
  refine (Steady.skipBlank _ hs).andThen fun _ hs => .get_bind hs ?_
  split
  case isTrue => exact .pure hs
  case isFalse => exact Steady.fail (by simp) _ hs

end Clause

end RowPipeline
