import RowPipeline.Number.Binary64

namespace RowPipeline

-- Integers are exact. All other numbers are binary64 numbers, and `1` is not the value `1.0`.
inductive Value where
  | null
  | bool (b : Bool)
  | int (n : Int)
  | float (x : Binary64)
  | string (s : String)
  | array (items : List Value)
  | object (members : List (String × Value))

abbrev Members := List (String × Value)

namespace Value

instance : Inhabited Value := ⟨null⟩

def isNull : Value → Bool
  | null => true
  | _ => false

theorem isNull_iff {v : Value} : v.isNull ↔ v = null := by
  cases v <;> simp [isNull]

-- A computed number that is too large for the format is null.
def ofFloat? : Option Binary64 → Value
  | some x => float x
  | none => null

def members : Value → Members
  | object ms => ms
  | _ => []

-- Equality of values: integers and binary64 numbers differ, the two zeros of a format do not.
mutual
def same : Value → Value → Bool
  | null, null => true
  | bool a, bool b => a == b
  | int a, int b => a == b
  | float a, float b => a.signed == b.signed
  | string a, string b => a == b
  | array as, array bs => sameItems as bs
  | object as, object bs => sameMembers as bs
  | _, _ => false

def sameItems : List Value → List Value → Bool
  | [], [] => true
  | a :: as, b :: bs => a.same b && sameItems as bs
  | _, _ => false

def sameMembers : List (String × Value) → List (String × Value) → Bool
  | [], [] => true
  | (m, a) :: as, (n, b) :: bs => m == n && a.same b && sameMembers as bs
  | _, _ => false
end

end Value
end RowPipeline
