import RowPipeline.Clause.Grammar

namespace RowPipeline

namespace Token

-- Items with a mark between them.
def separated (mark : String) : List (List String) → List String
  | [] => []
  | item :: items => item ++ items.flatMap (mark :: ·)

def enclosed (tokens : List String) : List String :=
  "(" :: (tokens ++ [")"])

-- Inside a quoted text a quote is written twice.
def doubled (c : Char) : List Char :=
  if c = '\x27' then [c, c] else [c]

def quoted (s : String) : String :=
  String.ofList ('\x27' :: (s.toList.flatMap doubled ++ ['\x27']))

def number (n : Nat) : String :=
  String.ofList (Decimal.digits n)

end Token

open Token

namespace Operand

def literalToken : Value → String
  | .string s => quoted s
  | value => value.text

mutual
def tokens : Operand → List String
  | path p => [p.text]
  | literal value => [literalToken value]
  | call function args => function.name :: enclosed (separated "," (argTokens args))

def argTokens : List Operand → List (List String)
  | [] => []
  | o :: os => tokens o :: argTokens os
end

theorem argTokens_eq_map (os : List Operand) : argTokens os = os.map tokens := by
  induction os with
  | nil => simp [argTokens]
  | cons o os ih => simp [argTokens, ih]

end Operand

namespace Filter

-- How strongly the outermost operation binds.
def strength : Filter → Nat
  | or .. => 0
  | and .. => 1
  | compare .. | not _ | truthy _ => 2

-- The tokens of a part are enclosed if the part binds weaker than its place in the whole asks for.
def enclosedBelow (level : Nat) (part : Filter) (tokens : List String) : List String :=
  if part.strength < level then enclosed tokens else tokens

def tokens : Filter → List String
  | compare op left right => left.tokens ++ op.name :: right.tokens
  | and left right =>
    enclosedBelow 1 left left.tokens ++ "and" :: enclosedBelow 2 right right.tokens
  | or left right => left.tokens ++ "or" :: enclosedBelow 1 right right.tokens
  | not inner => "not" :: enclosedBelow 2 inner inner.tokens
  | truthy operand => operand.tokens

end Filter

namespace Aggregate

def tokens : Aggregate → List String
  | property path method output => [path.text, "with", method, "as", output]
  | count output => ["$count", "as", output]

def listTokens (aggregates : List Aggregate) : List String :=
  enclosed (separated "," (aggregates.map tokens))

end Aggregate

namespace PropertyPath

def listTokens (paths : List PropertyPath) : List String :=
  enclosed (separated "," (paths.map fun p => [p.text]))

end PropertyPath

namespace OrderItem

def tokens (item : OrderItem) : List String :=
  match item.direction with
  | .ascending => [item.path.text, "asc"]
  | .descending => [item.path.text, "desc"]

end OrderItem

namespace Transformation

mutual
def tokens : Transformation → List String
  | aggregate aggregates => "aggregate" :: Aggregate.listTokens aggregates
  | groupBy properties none => "groupby" :: enclosed (PropertyPath.listTokens properties)
  | groupBy properties (some aggregates) =>
    "groupby" :: enclosed
      (PropertyPath.listTokens properties ++ "," :: "aggregate" :: Aggregate.listTokens aggregates)
  | filter condition => "filter" :: enclosed condition.tokens
  | select paths => "select" :: PropertyPath.listTokens paths
  | orderBy items => "orderby" :: enclosed (separated "," (items.map OrderItem.tokens))
  | top count => "top" :: enclosed [number count]
  | skip count => "skip" :: enclosed [number count]
  | concat branches => "concat" :: enclosed (separated "," (branchTokens branches))
  | identity => ["identity"]

def stepTokens : List Transformation → List (List String)
  | [] => []
  | t :: ts => tokens t :: stepTokens ts

def branchTokens : List (List Transformation) → List (List String)
  | [] => []
  | b :: bs => separated "/" (stepTokens b) :: branchTokens bs
end

theorem stepTokens_eq_map (ts : List Transformation) : stepTokens ts = ts.map tokens := by
  induction ts with
  | nil => simp [stepTokens]
  | cons t ts ih => simp [stepTokens, ih]

theorem branchTokens_eq_map (bs : List (List Transformation)) :
    branchTokens bs = bs.map fun b => separated "/" (b.map tokens) := by
  induction bs with
  | nil => simp [branchTokens]
  | cons b bs ih => simp [branchTokens, ih, stepTokens_eq_map]

end Transformation

namespace Clause

def tokens (clause : Clause) : List String :=
  separated "/" (clause.map Transformation.tokens)

end Clause

namespace Token

-- The tokens with a gap before each of them and one after the last.
def spell : List String → (Nat → String) → String
  | [], gap => gap 0
  | t :: ts, gap => gap 0 ++ t ++ spell ts fun i => gap (i + 1)

-- The gaps are blank, and none of them lets two tokens run into one identifier.
structure IsSpacing (tokens : List String) (gap : Nat → String) : Prop where
  blank : ∀ i, ∀ c ∈ (gap i).toList, Text.isBlank c
  apart : ∀ i t u, tokens[i]? = some t → tokens[i + 1]? = some u →
    t.toList.getLast?.any Scan.isIdentifierChar → u.toList.head?.any Scan.isIdentifierChar →
    gap (i + 1) ≠ ""

end Token

namespace Clause

-- The text of a clause with chosen gaps.
def render (clause : Clause) (gap : Nat → String) : String :=
  spell clause.tokens gap

end Clause
end RowPipeline
