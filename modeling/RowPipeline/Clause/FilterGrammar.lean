import RowPipeline.Clause.Cursor
import RowPipeline.Model.Binding

namespace RowPipeline

namespace Scan

-- Checks a path that starts at a position.
def checkPath (binding : Option Binding) (path : PropertyPath) (start : Nat) : Scan Unit :=
  match binding with
  | none => return ()
  | some b =>
    match b.checkPath path with
    | .ok () => return ()
    | .error fault => failAt start fault

-- The names after the first one of a path.
def segments : Scan (List String) :=
  many (char? '/') identifier

end Scan

open Scan

namespace Operand

def scanWord? : Scan (Option Operand) := do
  if ← keyword "true" then
    return some (.literal (.bool true))
  else if ← keyword "false" then
    return some (.literal (.bool false))
  else if ← keyword "null" then
    return some (.literal .null)
  else
    return none

def scanCall (start : Nat) (name : String) (operand : Scan Operand) : Scan Operand := do
  match ScalarFunction.ofName? name with
  | none => failAt start (.unknownFunction name)
  | some function =>
    expect '('
    let args ← listBy ',' operand
    expect ')'
    if args.length = function.arity then
      return .call function args
    else
      failAt start (.wrongArity name function.arity args.length)

-- A path or a call, which are told apart by what follows the first name and blanks after it.
def scanNamed (binding : Option Binding) (operand : Scan Operand) : Scan Operand := do
  let start ← position
  let name ← identifier
  skipBlank
  if (← peek) = some '(' then
    scanCall start name operand
  else
    let path := name :: (← segments)
    checkPath binding path start
    return .path path

-- `depth` bounds how deep calls are nested. Each of them takes characters, so the length of the rest is enough.
def scan (binding : Option Binding) : Nat → Scan Operand
  | 0 => fail .tooDeep
  | depth + 1 => do
    skipBlank
    let next ← peek
    if next = some '\x27' then
      return .literal (.string (← quotedString))
    else if next.any fun c => c == '-' || c.isDigit then
      return .literal (← numberLiteral)
    else
      match ← scanWord? with
      | some operand => return operand
      | none => scanNamed binding (scan binding depth)

end Operand

namespace Comparison

def scan? : Scan (Option Comparison) :=
  go all
where
  go : List Comparison → Scan (Option Comparison)
    | [] => return none
    | op :: ops => do
      if ← keyword op.name then
        return some op
      else
        go ops

end Comparison

namespace Filter

-- Each operand starts a count of its own, for which the rest of the text is enough.
def scanOperand (binding : Option Binding) : Scan Operand := do
  Operand.scan binding ((← get).rest.length + 1)

def scanComparison (binding : Option Binding) : Scan Filter := do
  let left ← scanOperand binding
  skipBlank
  match ← Comparison.scan? with
  | some op =>
    skipBlank
    return .compare op left (← scanOperand binding)
  | none => return .truthy left

-- `or` binds weaker than `and`.
def disjunction (item : Scan Filter) : Scan Filter :=
  chain "or" .or (chain "and" .and item)

-- `depth` bounds how deep negations and parentheses are nested, in the same way.
def scanUnary (binding : Option Binding) : Nat → Scan Filter
  | 0 => fail .tooDeep
  | depth + 1 => do
    skipBlank
    if ← keyword "not" then
      return .not (← scanUnary binding depth)
    else if ← char? '(' then
      let inner ← disjunction (scanUnary binding depth)
      skipBlank
      expect ')'
      return inner
    else
      scanComparison binding

def scan (binding : Option Binding) : Scan Filter := do
  disjunction (scanUnary binding ((← get).rest.length + 1))

end Filter
end RowPipeline
