namespace RowPipeline

inductive PathSegment where
  | source (name : String)
  | key (key : String)
  | property (name : String)
  | navigation (name : String)
  | cast (name : String)
  | count
  | value
deriving DecidableEq, Repr

abbrev ResourcePath := List PathSegment

namespace ResourcePath

-- The parts between slashes that are not empty.
def parts (cs : List Char) : List (List Char) :=
  (cs.splitOn '/').filter (· ≠ [])

-- A part that ends in a parenthesis has the key that starts after its first opening one.
def splitKey (part : List Char) : List Char × Option (List Char) :=
  let name := part.takeWhile (· ≠ '(')
  match part.drop name.length with
  | [] => (part, none)
  | _ :: inner => if part.getLast? = some ')' then (name, some inner.dropLast) else (part, none)

-- The first name is a source, and a later one with a dot in it a type.
def segment (first : Bool) (name : List Char) : PathSegment :=
  let s := String.ofList name
  if s = "$count" then .count
  else if s = "$value" then .value
  else if first then .source s
  else if '.' ∈ name then .cast s
  else .property s

def partSegments (first : Bool) (part : List Char) : List PathSegment :=
  let (name, key) := splitKey part
  segment first name :: (key.toList.map fun k => .key (String.ofList k))

def ofParts : List (List Char) → ResourcePath
  | [] => []
  | part :: rest => partSegments true part ++ rest.flatMap (partSegments false)

def parse (s : String) : ResourcePath :=
  ofParts (parts s.toList)

end ResourcePath
end RowPipeline
