import RowPipeline.Value.Members

namespace RowPipeline

-- Members are in the order of the text, repeated names included. A number that is too large and a text whose escapes
-- form no characters are kept as absent: they are well written, but have no value.
inductive Document where
  | null
  | bool (b : Bool)
  | int (n : Int)
  | float (x : Option Binary64)
  | text (s : Option String)
  | array (items : List Document)
  | object (members : List (Option String × Document))

namespace Document

mutual
def value? : Document → Option Value
  | null => some .null
  | bool b => some (.bool b)
  | int n => some (.int n)
  | float x => x.map .float
  | text s => s.map .string
  | array ds => (itemValues? ds).map .array
  | object ms => (memberValues? ms).map fun ms => .object (Members.ofList ms)

def itemValues? : List Document → Option (List Value)
  | [] => some []
  | d :: ds => do return (← d.value?) :: (← itemValues? ds)

def memberValues? : List (Option String × Document) → Option (List (String × Value))
  | [] => some []
  | (name, d) :: ms => do return (← name, ← d.value?) :: (← memberValues? ms)
end

mutual
def ofValue : Value → Document
  | .null => null
  | .bool b => bool b
  | .int n => int n
  | .float x => float (some x)
  | .string s => text (some s)
  | .array vs => array (ofItems vs)
  | .object ms => object (ofMembers ms)

def ofItems : List Value → List Document
  | [] => []
  | v :: vs => ofValue v :: ofItems vs

def ofMembers : List (String × Value) → List (Option String × Document)
  | [] => []
  | (name, v) :: ms => (some name, ofValue v) :: ofMembers ms
end

-- How many containers lie around the innermost value.
mutual
def depth : Document → Nat
  | array ds => itemDepth ds + 1
  | object ms => memberDepth ms + 1
  | _ => 0

def itemDepth : List Document → Nat
  | [] => 0
  | d :: ds => max d.depth (itemDepth ds)

def memberDepth : List (Option String × Document) → Nat
  | [] => 0
  | (_, d) :: ms => max d.depth (memberDepth ms)
end

end Document
end RowPipeline
