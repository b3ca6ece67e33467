import RowPipeline.Json.Document
import RowPipeline.Number.Decimal

namespace RowPipeline.Document

def isSpace (c : Char) : Bool :=
  c = ' ' || c = '\n' || c = '\t' || c = '\r'

def skipSpace (cs : List Char) : List Char :=
  cs.dropWhile isSpace

-- What stands in a text: a character, or one of the 16-bit units of the form `\u0041`.
inductive Piece where
  | char (c : Char)
  | unit (n : Nat)

def hexValue? (c : Char) : Option Nat :=
  if '0' ≤ c ∧ c ≤ '9' then some (c.toNat - '0'.toNat)
  else if 'a' ≤ c ∧ c ≤ 'f' then some (c.toNat - 'a'.toNat + 10)
  else if 'A' ≤ c ∧ c ≤ 'F' then some (c.toNat - 'A'.toNat + 10)
  else none

def hexUnit? (cs : List Char) : Option Nat :=
  cs.foldlM (fun acc c => do return 16 * acc + (← hexValue? c)) 0

def simpleEscape? : Char → Option Char
  | '\x22' => some '\x22'
  | '\x5c' => some '\x5c'
  | '/' => some '/'
  | 'b' => some '\x08'
  | 'f' => some '\x0c'
  | 'n' => some '\x0a'
  | 'r' => some '\x0d'
  | 't' => some '\x09'
  | _ => none

-- The pieces of a text up to its closing quote, and what follows it.
def readPieces : List Char → Option (List Piece × List Char)
  | [] => none
  | '\x22' :: rest => some ([], rest)
  | '\x5c' :: 'u' :: a :: b :: c :: d :: rest => do
    let unit ← hexUnit? [a, b, c, d]
    let (pieces, rest) ← readPieces rest
    return (.unit unit :: pieces, rest)
  | '\x5c' :: c :: rest => do
    let c ← simpleEscape? c
    let (pieces, rest) ← readPieces rest
    return (.char c :: pieces, rest)
  | c :: rest => do
    if c = '\x5c' ∨ c.toNat < 0x20 then none
    else
      let (pieces, rest) ← readPieces rest
      return (.char c :: pieces, rest)

-- Units in the surrogate ranges only form a character in pairs.
def assemble : List Piece → Option (List Char)
  | [] => some []
  | .char c :: rest => (assemble rest).map (c :: ·)
  | .unit high :: .unit low :: rest =>
    if 0xD800 ≤ high ∧ high < 0xDC00 then
      if 0xDC00 ≤ low ∧ low < 0xE000 then
        (assemble rest).map (Char.ofNat (0x10000 + (high - 0xD800) * 0x400 + (low - 0xDC00)) :: ·)
      else none
    else if 0xDC00 ≤ high ∧ high < 0xE000 then none
    else (assemble (.unit low :: rest)).map (Char.ofNat high :: ·)
  | .unit n :: rest =>
    if 0xD800 ≤ n ∧ n < 0xE000 then none else (assemble rest).map (Char.ofNat n :: ·)

def readText (cs : List Char) : Option (Option String × List Char) := do
  let (pieces, rest) ← readPieces cs
  return ((assemble pieces).map String.ofList, rest)

def readDigits (cs : List Char) : List Char × List Char :=
  (cs.takeWhile Char.isDigit, cs.dropWhile Char.isDigit)

-- The digits after a point, if there is one.
def readFraction : List Char → Option (List Char × List Char)
  | '.' :: rest => if (readDigits rest).1 = [] then none else some (readDigits rest)
  | cs => some ([], cs)

-- The power of ten after an `e`, if there is one.
def readExponent (cs : List Char) : Option (Option Int × List Char) :=
  match cs with
  | c :: rest =>
    if c = 'e' ∨ c = 'E' then
      let (negative, rest) := match rest with
        | '-' :: rest => (true, rest)
        | '+' :: rest => (false, rest)
        | rest => (false, rest)
      let (ds, rest) := readDigits rest
      if ds = [] then none
      else
        let n : Int := Decimal.ofDigits ds
        some (some (if negative then -n else n), rest)
    else some (none, cs)
  | [] => some (none, [])

-- A whole number without point and exponent is an integer if it has 64 bits: it is below 2 ^ 64, or with a sign
-- at least -2 ^ 63.
def ofNumeral (negative : Bool) (whole fraction : List Char) (exponent : Option Int) : Document :=
  let n := Decimal.ofDigits (whole ++ fraction)
  if fraction = [] ∧ exponent = none ∧ !negative ∧ n < 18446744073709551616 then int n
  else if fraction = [] ∧ exponent = none ∧ negative ∧ 0 < n ∧ n ≤ 9223372036854775808 then int (-n)
  else float (Decimal.toBinary64 negative ⟨n, exponent.getD 0 - fraction.length⟩)

def readNumber (negative : Bool) (cs : List Char) : Option (Document × List Char) := do
  let (whole, rest) := match cs with
    | '0' :: rest => (['0'], rest)
    | cs => readDigits cs
  if whole = [] then none
  else
    let (fraction, rest) ← readFraction rest
    let (exponent, rest) ← readExponent rest
    return (ofNumeral negative whole fraction exponent, rest)

def readWord (word : String) (d : Document) (cs : List Char) : Option (Document × List Char) :=
  if word.toList.isPrefixOf cs then some (d, cs.drop word.length) else none

-- `bound` is on nested calls. Each pair of them takes a character, so twice the length is enough.
mutual
def read (bound : Nat) (cs : List Char) : Option (Document × List Char) :=
  match bound with
  | 0 => none
  | bound + 1 =>
    match skipSpace cs with
    | '\x22' :: rest => do
      let (s, rest) ← readText rest
      return (text s, rest)
    | '[' :: rest =>
      match skipSpace rest with
      | ']' :: rest => some (array [], rest)
      | rest => readItems bound [] rest
    | '{' :: rest =>
      match skipSpace rest with
      | '}' :: rest => some (object [], rest)
      | rest => readMembers bound [] rest
    | '-' :: rest => readNumber true rest
    | 'n' :: rest => readWord "ull" null rest
    | 't' :: rest => readWord "rue" (bool true) rest
    | 'f' :: rest => readWord "alse" (bool false) rest
    | rest => readNumber false rest

-- `done` holds the items before, last first.
def readItems (bound : Nat) (done : List Document) (cs : List Char) :
    Option (Document × List Char) :=
  match bound with
  | 0 => none
  | bound + 1 =>
    match read bound cs with
    | none => none
    | some (d, rest) =>
      match skipSpace rest with
      | ',' :: rest => readItems bound (d :: done) rest
      | ']' :: rest => some (array (d :: done).reverse, rest)
      | _ => none

def readMembers (bound : Nat) (done : List (Option String × Document)) (cs : List Char) :
    Option (Document × List Char) :=
  match bound with
  | 0 => none
  | bound + 1 =>
    match skipSpace cs with
    | '\x22' :: rest =>
      match readText rest with
      | none => none
      | some (name, rest) =>
        match skipSpace rest with
        | ':' :: rest =>
          match read bound rest with
          | none => none
          | some (d, rest) =>
            match skipSpace rest with
            | ',' :: rest => readMembers bound ((name, d) :: done) rest
            | '}' :: rest => some (object ((name, d) :: done).reverse, rest)
            | _ => none
        | _ => none
    | _ => none
end

-- The document that the whole text is.
def parse (s : String) : Option Document :=
  match read (2 * s.length + 2) s.toList with
  | some (d, rest) => if skipSpace rest = [] then some d else none
  | none => none

end RowPipeline.Document
