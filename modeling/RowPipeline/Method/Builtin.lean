import RowPipeline.Method.Basic
import RowPipeline.Value.Order

namespace RowPipeline.Method

def nonNull (values : List Value) : List Value :=
  values.filter fun v => !v.isNull

-- The value as a term of a sum, which is absent if it is too large for the format.
def term (v : Value) : Except EvaluationError (Option Binary64) :=
  match v with
  | .int n => .ok (Binary64.ofInt n)
  | .float x => .ok (some x)
  | v => .error (.nonNumeric v)

def isInt : Value → Bool
  | .int _ => true
  | _ => false

-- Sums are formed in binary64. A sum of integers becomes an integer again, if it is one of 64 bits.
def sum : Method where
  name := "sum"
  call values := do
    let values := nonNull values
    let total := Binary64.sum (← values.mapM term)
    match values.all isInt, total.bind Binary64.toInt? with
    | true, some n =>
      -- The bound is 2 ^ 63.
      if n.natAbs < 9223372036854775808 then return .int n else return .ofFloat? total
    | _, _ => return .ofFloat? total

def average : Method where
  name := "average"
  call values := do
    let terms ← (nonNull values).mapM term
    if terms.isEmpty then
      return .null
    else
      return .ofFloat? ((Binary64.sum terms).bind (·.divNat terms.length))

-- The first value that no later one surpasses in the wanted direction.
def extreme (wanted : Ordering) (values : List Value) : Option Value :=
  (nonNull values).foldl
    (fun best v =>
      match best with
      | some b => if v.sortOrder b = wanted then some v else some b
      | none => some v)
    none

def min : Method where
  name := "min"
  call values := .ok ((extreme .lt values).getD .null)

def max : Method where
  name := "max"
  call values := .ok ((extreme .gt values).getD .null)

def countDistinct : Method where
  name := "countdistinct"
  call values := .ok (.int ((nonNull values).map Value.fingerprint).eraseDups.length)

def builtins : List Method :=
  [sum, min, max, average, countDistinct]

end RowPipeline.Method

namespace RowPipeline.Registry

def builtins : Registry :=
  ofList Method.builtins

end RowPipeline.Registry
