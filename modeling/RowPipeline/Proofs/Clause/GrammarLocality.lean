import RowPipeline.Proofs.Clause.Locality

namespace RowPipeline

open Scan

variable {more : List Char} {binding : Option Binding} {depth depth' : Nat}

namespace Scan.Local

theorem checkPath {path : PropertyPath} {start start' : Nat} :
    Local more (Scan.checkPath binding path start) (Scan.checkPath binding path start') := by
  cases binding with
  | none => exact .pure
  | some b =>
    simp only [Scan.checkPath]
    cases b.checkPath path with
    | ok => exact .pure
    | error => exact .failAt

theorem segments : Local more Scan.segments Scan.segments :=
  many (.char? (by decide)) identifier

end Scan.Local

namespace Operand

theorem local_scanWord? (he : more.head?.any isIdentifierChar = false) : Local more scanWord? scanWord? := by
  refine (Local.keyword he (by decide)).bind fun _ => .ite .pure ?_
  refine (Local.keyword he (by decide)).bind fun _ => .ite .pure ?_
  exact (Local.keyword he (by decide)).bind fun _ => .ite .pure .pure

theorem local_scanCall {start start' : Nat} {name : String} {operand operand' : Scan Operand}
    (ho : Local more operand operand') :
    Local more (scanCall start name operand) (scanCall start' name operand') := by
  unfold scanCall
  cases ScalarFunction.ofName? name with
  | none => exact .failAt
  | some function =>
    refine Local.expect.bind fun _ => (Local.listBy (by decide) ho).bind fun _ => Local.expect.bind fun _ => ?_
    exact .ite .pure .failAt

theorem local_scanNamed {operand operand' : Scan Operand} (ho : Local more operand operand') :
    Local more (scanNamed binding operand) (scanNamed binding operand') := by
  apply Local.position_bind
  intro start start'
  refine Local.identifier.bind fun name => Local.skipBlank.bind fun _ => Local.peek_bind fun hs => ?_
  apply Local.ite_of_iff (hs.eq_some_iff (by decide))
  case hm => exact local_scanCall ho
  case hn => exact Local.segments.bind fun _ => Local.checkPath.bind fun _ => .pure

theorem local_scan (he : more.head?.any isIdentifierChar = false) (hd : depth ≤ depth') :
    Local more (Operand.scan binding depth) (Operand.scan binding depth') := by
  induction depth generalizing depth' with
  | zero => exact .fail
  | succ depth ih =>
    obtain ⟨depth', rfl⟩ := Nat.exists_eq_add_one.mpr (Nat.zero_lt_of_lt hd)
    refine Local.skipBlank.bind fun _ => Local.peek_bind fun hs => ?_
    refine .ite_of_iff (hs.eq_some_iff (by decide)) ?_ (.ite_of_iff (hs.any_iff rfl) ?_ ?_)
    case refine_1 => exact Local.quotedString.bind fun _ => .pure
    case refine_2 => exact Local.numberLiteral.bind fun _ => .pure
    case refine_3 =>
      apply (local_scanWord? he).bind
      intro word
      cases word with
      | none => exact local_scanNamed (ih (by omega))
      | some operand => exact .pure

end Operand

namespace Comparison

theorem local_scan? (he : more.head?.any isIdentifierChar = false) : Local more scan? scan? := by
  have go : ∀ ops : List Comparison, Local more (scan?.go ops) (scan?.go ops) := by
    intro ops
    induction ops with
    | nil => exact .pure
    | cons op ops ih =>
      have hw : ∀ c ∈ op.name.toList, isIdentifierChar c := by cases op <;> decide
      exact (Local.keyword he hw).bind fun _ => .ite .pure ih
  exact go all

end Comparison

namespace Filter

variable {item item' : Scan Filter}

theorem local_scanOperand (he : more.head?.any isIdentifierChar = false) :
    Local more (scanOperand binding) (scanOperand binding) :=
  .length_bind (f := fun n => Operand.scan binding (n + 1)) fun hn =>
    Operand.local_scan he (Nat.succ_le_succ hn)

theorem local_scanComparison (he : more.head?.any isIdentifierChar = false) :
    Local more (scanComparison binding) (scanComparison binding) := by
  refine (local_scanOperand he).bind fun left => Local.skipBlank.bind fun _ => (Comparison.local_scan? he).bind ?_
  intro op
  cases op with
  | none => exact .pure
  | some op => exact Local.skipBlank.bind fun _ => (local_scanOperand he).bind fun _ => .pure

theorem local_disjunction (he : more.head?.any isIdentifierChar = false) (hi : Local more item item') :
    Local more (disjunction item) (disjunction item') :=
  .chain he (by decide) (.chain he (by decide) hi)

theorem local_scanUnary (he : more.head?.any isIdentifierChar = false) (hd : depth ≤ depth') :
    Local more (scanUnary binding depth) (scanUnary binding depth') := by
  induction depth generalizing depth' with
  | zero => exact .fail
  | succ depth ih =>
    obtain ⟨depth', rfl⟩ := Nat.exists_eq_add_one.mpr (Nat.zero_lt_of_lt hd)
    have ih : Local more (scanUnary binding depth) (scanUnary binding depth') := ih (by omega)
    refine Local.skipBlank.bind fun _ => (Local.keyword he (by decide)).bind fun _ => .ite ?_ ?_
    case refine_1 => exact ih.bind fun _ => .pure
    case refine_2 =>
      refine (Local.char? (by decide)).bind fun _ => .ite ?_ (local_scanComparison he)
      exact (local_disjunction he ih).bind fun _ => Local.skipBlank.bind fun _ => Local.expect.bind fun _ => .pure

theorem local_scan (he : more.head?.any isIdentifierChar = false) :
    Local more (Filter.scan binding) (Filter.scan binding) :=
  .length_bind (f := fun n => disjunction (scanUnary binding (n + 1))) fun hn =>
    local_disjunction he (local_scanUnary he (Nat.succ_le_succ hn))

end Filter

namespace PropertyPath

theorem local_scan : Local more (PropertyPath.scan binding) (PropertyPath.scan binding) := by
  apply Local.skipBlank.bind
  intro _
  apply Local.position_bind
  intro start start'
  exact (Local.joinedBy (by decide) Local.identifier).bind fun _ => Local.checkPath.bind fun _ => .pure

end PropertyPath

namespace OrderItem

theorem local_scan (he : more.head?.any isIdentifierChar = false) :
    Local more (OrderItem.scan binding) (OrderItem.scan binding) := by
  refine PropertyPath.local_scan.bind fun path => Local.skipBlank.bind fun _ => ?_
  refine (Local.keyword he (by decide)).bind fun _ => .ite .pure ?_
  exact (Local.discard (Local.keyword he (by decide))).bind fun _ => .pure

end OrderItem

namespace Aggregate

theorem local_scanWord {word : String} (he : more.head?.any isIdentifierChar = false)
    (hw : ∀ c ∈ word.toList, isIdentifierChar c) : Local more (scanWord word) (scanWord word) :=
  Local.skipBlank.bind fun _ => (Local.keyword he hw).bind fun _ => .ite .pure .fail

theorem local_scanOutput (he : more.head?.any isIdentifierChar = false) : Local more scanOutput scanOutput :=
  (local_scanWord he (by decide)).bind fun _ => Local.skipBlank.bind fun _ => Local.identifier

theorem local_scan (he : more.head?.any isIdentifierChar = false) :
    Local more (Aggregate.scan binding) (Aggregate.scan binding) := by
  refine Local.skipBlank.bind fun _ => (Local.keyword he (by decide)).bind fun _ => .ite ?_ ?_
  case refine_1 => exact (local_scanOutput he).bind fun _ => .pure
  case refine_2 =>
    refine PropertyPath.local_scan.bind fun path => (local_scanWord he (by decide)).bind fun _ => ?_
    refine Local.skipBlank.bind fun _ => Local.qualifiedName.bind fun method => ?_
    exact (local_scanOutput he).bind fun _ => .pure

theorem local_scanList (he : more.head?.any isIdentifierChar = false) :
    Local more (scanList binding) (scanList binding) :=
  .listBy (by decide) (local_scan he)

end Aggregate

namespace Transformation

theorem local_scanCount : Local more scanCount scanCount := by
  apply Local.skipBlank.bind
  intro _
  apply Local.position_bind
  intro start start'
  exact Local.integer.bind fun _ => .ite .failAt .pure

theorem local_closing : Local more closing closing :=
  Local.skipBlank.bind fun _ => Local.expect

theorem local_scanGroupBy (he : more.head?.any isIdentifierChar = false) :
    Local more (scanGroupBy binding) (scanGroupBy binding) := by
  refine Local.skipBlank.bind fun _ => Local.expect.bind fun _ => (Local.listBy (by decide) PropertyPath.local_scan).bind ?_
  intro properties
  refine local_closing.bind fun _ => Local.skipBlank.bind fun _ => ?_
  refine (Local.char? (by decide)).bind fun _ => .ite ?_ .pure
  refine (Aggregate.local_scanWord he (by decide)).bind fun _ => Local.skipBlank.bind fun _ => ?_
  refine Local.expect.bind fun _ => (Aggregate.local_scanList he).bind fun _ => ?_
  exact local_closing.bind fun _ => .pure

variable {item item' : Option Binding → Scan (Transformation × Option Binding)}

theorem local_sequenceOf (hi : ∀ binding, Local more (item binding) (item' binding)) :
    Local more (sequenceOf item binding) (sequenceOf item' binding) :=
  (hi binding).bind fun _ =>
    .repeated_bind (Local.Separates.char? (by decide)).afterBlank hi fun _ => .pure

theorem local_scanConcat {start start' : Nat} (hi : ∀ binding, Local more (item binding) (item' binding)) :
    Local more (scanConcat start item binding) (scanConcat start' item' binding) :=
  (Local.listBy (by decide) (local_sequenceOf hi)).bind fun _ => .ite .failAt .pure

theorem local_scanBody {start start' : Nat} {name : String} (he : more.head?.any isIdentifierChar = false)
    (hi : ∀ binding, Local more (item binding) (item' binding)) :
    Local more (scanBody start name item binding) (scanBody start' name item' binding) := by
  unfold scanBody
  split
  case h_1 => exact (Aggregate.local_scanList he).bind fun _ => .pure
  case h_2 => exact (local_scanGroupBy he).bind fun _ => .pure
  case h_3 => exact (Filter.local_scan he).bind fun _ => .pure
  case h_4 => exact (Local.listBy (by decide) PropertyPath.local_scan).bind fun _ => .pure
  case h_5 => exact (Local.listBy (by decide) (OrderItem.local_scan he)).bind fun _ => .pure
  case h_6 | h_7 => exact local_scanCount.bind fun _ => .pure
  case h_8 => exact local_scanConcat hi
  case h_9 => exact .failAt

theorem local_scan (he : more.head?.any isIdentifierChar = false) (hd : depth ≤ depth') :
    Local more (Transformation.scan depth binding) (Transformation.scan depth' binding) := by
  induction depth generalizing depth' binding with
  | zero => exact .fail
  | succ depth ih =>
    obtain ⟨depth', rfl⟩ := Nat.exists_eq_add_one.mpr (Nat.zero_lt_of_lt hd)
    apply Local.skipBlank.bind
    intro _
    apply Local.position_bind
    intro start start'
    refine Local.identifier.bind fun name => .ite .pure ?_
    refine Local.skipBlank.bind fun _ => Local.expect.bind fun _ => ?_
    refine (local_scanBody he fun _ => ih (by omega)).bind fun _ => ?_
    exact local_closing.bind fun _ => .pure

end Transformation
end RowPipeline
