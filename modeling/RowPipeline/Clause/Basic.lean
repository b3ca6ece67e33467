import RowPipeline.Value.Basic

namespace RowPipeline

-- The names of members, from the row inwards.
abbrev PropertyPath := List String

namespace PropertyPath

def text (path : PropertyPath) : String :=
  "/".intercalate path

end PropertyPath

inductive Comparison where
  | eq | ne | lt | le | gt | ge
deriving DecidableEq, Repr

inductive ScalarFunction where
  | toLower | toUpper | length | contains | startsWith | endsWith
deriving DecidableEq, Repr

inductive Operand where
  | path (path : PropertyPath)
  | literal (value : Value)
  | call (function : ScalarFunction) (args : List Operand)

inductive Filter where
  | compare (op : Comparison) (left right : Operand)
  | and (left right : Filter)
  | or (left right : Filter)
  | not (inner : Filter)
  | truthy (operand : Operand)

-- `path with method as output`, or `$count as output`.
inductive Aggregate where
  | property (path : PropertyPath) (method output : String)
  | count (output : String)
deriving DecidableEq, Repr

inductive Direction where
  | ascending
  | descending
deriving DecidableEq, Repr

structure OrderItem where
  path      : PropertyPath
  direction : Direction
deriving DecidableEq, Repr

inductive Transformation where
  | aggregate (aggregates : List Aggregate)
  | groupBy (properties : List PropertyPath) (aggregates : Option (List Aggregate))
  | filter (condition : Filter)
  | select (paths : List PropertyPath)
  | orderBy (items : List OrderItem)
  | top (count : Nat)
  | skip (count : Nat)
  | concat (branches : List (List Transformation))
  | identity

-- The transformations from left to right.
abbrev Clause := List Transformation

namespace Comparison

def name : Comparison → String
  | eq => "eq"
  | ne => "ne"
  | lt => "lt"
  | le => "le"
  | gt => "gt"
  | ge => "ge"

def all : List Comparison :=
  [eq, ne, lt, le, gt, ge]

end Comparison

namespace ScalarFunction

def name : ScalarFunction → String
  | toLower => "tolower"
  | toUpper => "toupper"
  | length => "length"
  | contains => "contains"
  | startsWith => "startswith"
  | endsWith => "endswith"

def arity : ScalarFunction → Nat
  | toLower | toUpper | length => 1
  | contains | startsWith | endsWith => 2

def all : List ScalarFunction :=
  [toLower, toUpper, length, contains, startsWith, endsWith]

def ofName? (name : String) : Option ScalarFunction :=
  all.find? (·.name = name)

end ScalarFunction

namespace Aggregate

def output : Aggregate → String
  | property _ _ a => a
  | count a => a

def isCount : Aggregate → Bool
  | count _ => true
  | property .. => false

end Aggregate

namespace Transformation

def kind : Transformation → String
  | aggregate _ => "aggregate"
  | groupBy .. => "groupby"
  | filter _ => "filter"
  | select _ => "select"
  | orderBy _ => "orderby"
  | top _ => "top"
  | skip _ => "skip"
  | concat _ => "concat"
  | identity => "identity"

end Transformation

namespace Clause

-- Every transformation, a concatenation before its branches and these from left to right.
mutual
def walk : List Transformation → List Transformation
  | [] => []
  | t :: ts => t :: (walkInside t ++ walk ts)

def walkInside : Transformation → List Transformation
  | .concat branches => walkBranches branches
  | _ => []

def walkBranches : List (List Transformation) → List Transformation
  | [] => []
  | b :: bs => walk b ++ walkBranches bs
end

theorem walk_append (as bs : List Transformation) : walk (as ++ bs) = walk as ++ walk bs := by
  induction as with
  | nil => rfl
  | cons a as ih => simp [walk, ih]

end Clause
end RowPipeline
