import RowPipeline.Value.Order
import RowPipeline.Value.Members

namespace RowPipeline

-- The rows of a group in their order, with the keys of the first.
structure Group where
  label   : String
  keys    : List Value
  members : List Value

namespace Group

-- The fingerprints with a separator that occurs in none of them.
def labelOf (keys : List Value) : String :=
  "\x1f".intercalate (keys.map Value.fingerprint)

def insert (keys : List Value) (row : Value) (groups : List Group) : List Group :=
  go (labelOf keys) groups
where
  go (label : String) : List Group → List Group
    | [] => [⟨label, keys, [row]⟩]
    | g :: gs =>
      if g.label = label then { g with members := g.members ++ [row] } :: gs
      else g :: go label gs

-- The groups of rows that come with their keys, in the order of the first row of each.
def ofRows (rows : List (List Value × Value)) : List Group :=
  rows.foldl (fun groups (keys, row) => insert keys row groups) []

-- The object that holds the keys at their paths.
def keyMembers (paths : List (List String)) (keys : List Value) : Members :=
  (paths.zip keys).foldl (fun out (path, key) => out.setPath path key) []

end Group
end RowPipeline
