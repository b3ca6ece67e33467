import RowPipeline.Row.Access
import RowPipeline.Value.Order
import RowPipeline.Text.Case

namespace RowPipeline

namespace Comparison

-- Values without an order are neither below nor above each other.
def holds (op : Comparison) (a b : Value) : Bool :=
  match op with
  | eq => a.equal b
  | ne => !a.equal b
  | lt => a.compare? b == some .lt
  | le => a.compare? b == some .lt || a.compare? b == some .eq
  | gt => a.compare? b == some .gt
  | ge => a.compare? b == some .gt || a.compare? b == some .eq

end Comparison

namespace ScalarFunction

-- Some end of the text starts with the other one.
def containsText (s part : List Char) : Bool :=
  part.isPrefixOf s ||
    match s with
    | [] => false
    | _ :: rest => containsText rest part

def onText (f : String → Value) : Value → Value
  | .string s => f s
  | _ => .null

def onTexts (f : List Char → List Char → Bool) : Value → Value → Value
  | .string s, .string t => .bool (f s.toList t.toList)
  | _, _ => .null

-- Functions of texts are null on all other values. The length of an array is that of its items.
def apply (function : ScalarFunction) (args : List Value) : Value :=
  let first := args.headD .null
  let second := args.tail.headD .null
  match function with
  | toLower => onText (fun s => .string (Text.toLower s)) first
  | toUpper => onText (fun s => .string (Text.toUpper s)) first
  | length =>
    match first with
    | .string s => .int s.length
    | .array items => .int items.length
    | _ => .null
  | contains => onTexts containsText first second
  | startsWith => onTexts (fun s t => t.isPrefixOf s) first second
  | endsWith => onTexts (fun s t => t.isSuffixOf s) first second

end ScalarFunction

namespace Operand

mutual
def eval (access : Access) (row : Value) : Operand → Except EvaluationError Value
  | literal value => .ok value
  | path p => access.read row p
  | call function args => do return function.apply (← evalAll access row args)

def evalAll (access : Access) (row : Value) : List Operand → Except EvaluationError (List Value)
  | [] => .ok []
  | o :: os => do
    let value ← eval access row o
    return value :: (← evalAll access row os)
end

end Operand

namespace Value

-- Null, false, zero and what is empty do not hold.
def truthy : Value → Bool
  | null => false
  | bool b => b
  | int n => n != 0
  | float x => x.units != 0
  | string s => s != ""
  | array items => !items.isEmpty
  | object members => !members.isEmpty

end Value

namespace Filter

-- The right side of `and` and `or` is only looked at when the left side leaves the answer open.
def eval (access : Access) (row : Value) : Filter → Except EvaluationError Bool
  | compare op left right => do
    let a ← left.eval access row
    let b ← right.eval access row
    return op.holds a b
  | and left right => do
    if ← left.eval access row then right.eval access row else return false
  | or left right => do
    if ← left.eval access row then return true else right.eval access row
  | not inner => do return !(← inner.eval access row)
  | truthy operand => do return (← operand.eval access row).truthy

end Filter
end RowPipeline
