import RowPipeline.Value.Text

namespace RowPipeline.Value

-- The bound is 2 ^ 63.
def inInt64 (n : Int) : Bool :=
  -9223372036854775808 ≤ n && n < 9223372036854775808

-- The value as a binary64 number in signed units, an integer being rounded to the nearest.
def signedUnits? : Value → Option Int
  | int n => some (Binary64.signedOfInt n)
  | float x => some x.signed
  | _ => none

-- Two integers of 64 bits are compared exactly, any other two numbers as binary64 numbers.
def compareNumbers? (a b : Value) : Option Ordering :=
  match a, b with
  | int m, int n =>
    if inInt64 m && inInt64 n then some (compare m n)
    else some (compare (Binary64.signedOfInt m) (Binary64.signedOfInt n))
  | a, b => do some (compare (← a.signedUnits?) (← b.signedUnits?))

-- Values of different kinds have no order, nor have arrays and objects. Null is only equal to null.
def compare? : Value → Value → Option Ordering
  | null, null => some .eq
  | string s, string t => some (compare s t)
  | bool a, bool b => some (compare a b)
  | a, b => compareNumbers? a b

def isNumber : Value → Bool
  | int _ | float _ => true
  | _ => false

-- Numbers are equal as they compare, all else as values.
def equal (a b : Value) : Bool :=
  if a.isNumber && b.isNumber then compareNumbers? a b == some .eq else a.same b

def rank : Value → Nat
  | null => 0
  | bool _ => 1
  | int _ | float _ => 2
  | string _ => 3
  | array _ => 4
  | object _ => 5

-- Nulls first, then by kind, then by value. Arrays and objects are sorted by their text.
def sortOrder (a b : Value) : Ordering :=
  (compare a.rank b.rank).then ((compare? a b).getD (compare a.text b.text))

-- A binary64 number that is an integer of 64 bits becomes that integer, at any depth.
mutual
def normalized : Value → Value
  | float x =>
    match x.toInt? with
    | some n => if inInt64 n then int n else float x
    | none => float x
  | array vs => array (normalizedItems vs)
  | object ms => object (normalizedMembers ms)
  | null => null
  | bool b => bool b
  | int n => int n
  | string s => string s

def normalizedItems : List Value → List Value
  | [] => []
  | v :: vs => v.normalized :: normalizedItems vs

def normalizedMembers : List (String × Value) → List (String × Value)
  | [] => []
  | (name, v) :: ms => (name, v.normalized) :: normalizedMembers ms
end

-- The text by which values are grouped and counted as distinct.
def fingerprint (v : Value) : String :=
  v.normalized.text

end RowPipeline.Value
