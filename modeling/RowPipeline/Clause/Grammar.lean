import RowPipeline.Clause.FilterGrammar

namespace RowPipeline

open Scan

--  clause         := transformation ('/' transformation)*
--  transformation := aggregate(a, …) | groupby((path, …)[, aggregate(a, …)]) | filter(condition)
--                  | select(path, …) | orderby(path [asc | desc], …) | top(n) | skip(n)
--                  | concat(clause, clause, …) | identity
--  a              := path with method as output | $count as output

namespace PropertyPath

def scan (binding : Option Binding) : Scan PropertyPath := do
  skipBlank
  let start ← position
  let path ← joinedBy '/' identifier
  checkPath binding path start
  return path

end PropertyPath

namespace OrderItem

def scan (binding : Option Binding) : Scan OrderItem := do
  let path ← PropertyPath.scan binding
  skipBlank
  if ← keyword "desc" then
    return ⟨path, .descending⟩
  else
    discard (keyword "asc")
    return ⟨path, .ascending⟩

end OrderItem

namespace Aggregate

def scanWord (word : String) : Scan Unit := do
  skipBlank
  if ← keyword word then
    return ()
  else
    fail (.wordExpected word)

def scanOutput : Scan String := do
  scanWord "as"
  skipBlank
  identifier

def scan (binding : Option Binding) : Scan Aggregate := do
  skipBlank
  if ← keyword "$count" then
    return .count (← scanOutput)
  else
    let path ← PropertyPath.scan binding
    scanWord "with"
    skipBlank
    let method ← qualifiedName
    return .property path method (← scanOutput)

def scanList (binding : Option Binding) : Scan (List Aggregate) :=
  listBy ',' (scan binding)

end Aggregate

namespace Transformation

def scanCount : Scan Nat := do
  skipBlank
  let start ← position
  let n ← integer
  if n < 0 then
    failAt start .negativeCount
  else
    return n.toNat

def closing : Scan Unit := do
  skipBlank
  expect ')'

def scanGroupBy (binding : Option Binding) : Scan Transformation := do
  skipBlank
  expect '('
  let properties ← listBy ',' (PropertyPath.scan binding)
  closing
  skipBlank
  if ← char? ',' then
    Aggregate.scanWord "aggregate"
    skipBlank
    expect '('
    let aggregates ← Aggregate.scanList binding
    closing
    return .groupBy properties (some aggregates)
  else
    return .groupBy properties none

-- A sequence of items, each read with the binding that the item before it leaves.
def sequenceOf (item : Option Binding → Scan (Transformation × Option Binding)) (binding : Option Binding) :
    Scan (List Transformation × Option Binding) := do
  let first ← item binding
  let more ← manyAfter (do skipBlank; char? '/') item (fun _ t => t.2) (← get).rest.length first.2
  return (first.1 :: more.map (·.1), more.foldl (fun _ t => t.2) first.2)

-- Every branch starts with the binding of the rows that all of them get. It goes on after them if all leave one.
def scanConcat (start : Nat) (item : Option Binding → Scan (Transformation × Option Binding))
    (binding : Option Binding) : Scan (Transformation × Option Binding) := do
  let branches ← listBy ',' (sequenceOf item binding)
  if branches.length < 2 then
    failAt start .tooFewSequences
  else
    let reshaped := branches.any fun b => b.2.isNone
    return (.concat (branches.map (·.1)), if reshaped then none else binding)

-- Aggregates and groups are rows of another type, and end the binding.
def scanBody (start : Nat) (name : String) (item : Option Binding → Scan (Transformation × Option Binding))
    (binding : Option Binding) : Scan (Transformation × Option Binding) := do
  match name with
  | "aggregate" => return (.aggregate (← Aggregate.scanList binding), none)
  | "groupby" => return (← scanGroupBy binding, none)
  | "filter" => return (.filter (← Filter.scan binding), binding)
  | "select" => return (.select (← listBy ',' (PropertyPath.scan binding)), binding)
  | "orderby" => return (.orderBy (← listBy ',' (OrderItem.scan binding)), binding)
  | "top" => return (.top (← scanCount), binding)
  | "skip" => return (.skip (← scanCount), binding)
  | "concat" => scanConcat start item binding
  | _ => failAt start (.unknownTransformation name)

-- A transformation, and the binding for what comes after it. `depth` bounds how deep concatenations are
-- nested, in the same way as for conditions.
def scan : Nat → Option Binding → Scan (Transformation × Option Binding)
  | 0, _ => fail .tooDeep
  | depth + 1, binding => do
    skipBlank
    let start ← position
    let name ← identifier
    if name = "identity" then
      return (.identity, binding)
    else
      skipBlank
      expect '('
      let t ← scanBody start name (scan depth) binding
      closing
      return t

end Transformation

namespace Clause

def scan (binding : Option Binding) : Scan Clause := do
  let (clause, _) ← Transformation.sequenceOf (Transformation.scan ((← get).rest.length + 1)) binding
  skipBlank
  if (← get).rest.isEmpty then
    return clause
  else
    fail .trailingInput

-- The clause of a whole text. With a binding, its paths are checked.
def parse (binding : Option Binding) (s : String) : Except SyntaxError Clause :=
  (scan binding).run' (Cursor.ofString s)

end Clause
end RowPipeline
