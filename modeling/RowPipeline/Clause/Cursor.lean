import RowPipeline.Error
import RowPipeline.Text.Blank
import RowPipeline.Number.Decimal

namespace RowPipeline

-- What is left of a text, after `position` bytes of it.
structure Cursor where
  rest     : List Char
  position : Nat
deriving DecidableEq, Repr

-- A reading step: a result and where it ends, or the first error.
abbrev Scan := StateT Cursor (Except SyntaxError)

namespace Cursor

def ofString (s : String) : Cursor where
  rest     := s.toList
  position := 0

def advance (cursor : Cursor) (n : Nat) : Cursor where
  rest     := cursor.rest.drop n
  position := (cursor.rest.take n).foldl (fun bytes c => bytes + c.utf8Size) cursor.position

end Cursor

namespace Scan

def position : Scan Nat := do
  return (← get).position

def failAt (position : Nat) (fault : SyntaxFault) : Scan α :=
  throw ⟨position, fault⟩

def fail (fault : SyntaxFault) : Scan α := do
  failAt (← position) fault

def peek : Scan (Option Char) := do
  return (← get).rest.head?

def takeWhile (p : Char → Bool) : Scan (List Char) := do
  let taken := (← get).rest.takeWhile p
  modify (·.advance taken.length)
  return taken

def skipBlank : Scan Unit := do
  discard (takeWhile Text.isBlank)

-- Reads the character if it comes next, and tells whether it did.
def char? (c : Char) : Scan Bool := do
  if (← peek) = some c then
    modify (·.advance 1)
    return true
  else
    return false

def expect (c : Char) : Scan Unit := do
  if ← char? c then
    return ()
  else
    fail (.charExpected c)

def isIdentifierChar (c : Char) : Bool :=
  c == '_' || c == '$' || c.isAlphanum

-- A word does not end in the middle of an identifier.
def keyword (word : String) : Scan Bool := do
  let rest := (← get).rest
  if word.toList.isPrefixOf rest && !((rest.drop word.length).head?.any isIdentifierChar) then
    modify (·.advance word.length)
    return true
  else
    return false

def identifier : Scan String := do
  let name ← takeWhile isIdentifierChar
  if name.isEmpty then
    fail .identifierExpected
  else
    return String.ofList name

-- Items as long as `again` reads on. Each of them and what `again` reads takes a character at least, so
-- the length of the rest is a bound.
def manyAfter (again : Scan Bool) (item : σ → Scan α) (next : σ → α → σ) :
    Nat → σ → Scan (List α)
  | 0, _ => return []
  | n + 1, s => do
    if ← again then
      let x ← item s
      return x :: (← manyAfter again item next n (next s x))
    else
      return []

def many (again : Scan Bool) (item : Scan α) : Scan (List α) := do
  manyAfter again (fun _ => item) (fun _ _ => ()) (← get).rest.length ()

-- One item or more, with a mark between them that follows an item at once.
def joinedBy (mark : Char) (item : Scan α) : Scan (List α) := do
  let first ← item
  return first :: (← many (char? mark) item)

-- One item or more, with a mark between them that may follow blanks.
def listBy (mark : Char) (item : Scan α) : Scan (List α) := do
  let first ← item
  let more ← many (do skipBlank; char? mark) item
  return first :: more

-- Items between occurrences of a word, combined from the left.
def chain (word : String) (combine : α → α → α) (item : Scan α) : Scan α := do
  let first ← item
  let more ← many (do skipBlank; keyword word) item
  return more.foldl combine first

def qualifiedName : Scan String := do
  return ".".intercalate (← joinedBy '.' identifier)

-- An integer of 64 bits with sign, so from -2 ^ 63 up to 2 ^ 63 - 1.
def integer : Scan Int := do
  let start ← position
  let negative ← char? '-'
  let digits ← takeWhile Char.isDigit
  if digits.isEmpty then
    failAt start .integerExpected
  else
    let n : Int := Decimal.ofDigits digits
    let n := if negative then -n else n
    if -9223372036854775808 ≤ n ∧ n < 9223372036854775808 then
      return n
    else
      failAt start .badInteger

-- A number with a point is a binary64 number; one that is too large for the format reads as null.
def numberLiteral : Scan Value := do
  let start ← position
  let negative ← char? '-'
  let whole ← takeWhile Char.isDigit
  if ← char? '.' then
    let fraction ← takeWhile Char.isDigit
    if whole.isEmpty && fraction.isEmpty then
      failAt start .badFloat
    else
      let decimal := ⟨Decimal.ofDigits (whole ++ fraction), -(fraction.length : Int)⟩
      return Value.ofFloat? (Decimal.toBinary64 negative decimal)
  else if whole.isEmpty then
    failAt start .numberExpected
  else
    let n : Int := Decimal.ofDigits whole
    let n := if negative then -n else n
    if -9223372036854775808 ≤ n ∧ n < 9223372036854775808 then
      return .int n
    else
      failAt start .badInt

-- The text before the closing quote, with quotes that are written twice, and how many characters it
-- takes with the closing quote.
def quotedBody? : List Char → Option (List Char × Nat)
  | [] => none
  | '\x27' :: '\x27' :: rest => (quotedBody? rest).map fun (s, n) => ('\x27' :: s, n + 2)
  | c :: rest =>
    if c = '\x27' then some ([], 1)
    else (quotedBody? rest).map fun (s, n) => (c :: s, n + 1)

-- A text in single quotes.
def quotedString : Scan String := do
  let start ← position
  expect '\x27'
  match quotedBody? (← get).rest with
  | some (s, n) =>
    modify (·.advance n)
    return String.ofList s
  | none => failAt start .unterminatedString

end Scan
end RowPipeline
