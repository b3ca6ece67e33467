import RowPipeline.Stage.Run
import RowPipeline.Stage.Compile
import RowPipeline.Host.Settings

namespace RowPipeline

namespace Stage

-- What a clause becomes with a resolver, settings and methods.
def ofClause (clause : Clause) (resolver : Resolver) (settings : Settings) (registry : Registry) :
    Except Error (List Stage) :=
  compileAll ⟨resolver, settings.propagatesNulls⟩ registry clause

def accessText (access : Access) : String :=
  let nulls := if access.propagatesNulls then "true" else "false"
  "MemberAccess \x7b resolver: " ++ access.resolver.label ++ ", propagate_nulls: " ++ nulls ++ " \x7d"

-- Only some stages have a description.
def description? : Stage → Option String
  | top n => some ("TopOp(" ++ Nat.repr n ++ ")")
  | skip n => some ("SkipOp(" ++ Nat.repr n ++ ")")
  | aggregate summaries access =>
    some ("AggregateOp \x7b aggregates: [" ++ ", ".intercalate (summaries.map Summary.text)
      ++ "], access: " ++ accessText access ++ " \x7d")
  | _ => none

end Stage

structure Query where
  rows   : List Value
  stages : List Stage

namespace Query

def ofRows (rows : List Value) : Query where
  rows   := rows
  stages := []

def compose (query : Query) (stages : List Stage) : Query :=
  { query with stages := query.stages ++ stages }

def execute (query : Query) : Except EvaluationError (List Value) :=
  Stage.runAll query.stages query.rows

-- The rows after each stage, in turn.
def trace (query : Query) : Except EvaluationError (List (List Value)) :=
  go query.stages query.rows
where
  go : List Stage → List Value → Except EvaluationError (List (List Value))
    | [], _ => .ok []
    | stage :: rest, rows => do
      let out ← stage.run rows
      return out :: (← go rest out)

def stageNames (query : Query) : List String :=
  query.stages.map Stage.name

def quotedNames (names : List String) : String :=
  "[" ++ ", ".intercalate (names.map fun n => "\x22" ++ n ++ "\x22") ++ "]"

def text (query : Query) : String :=
  "Queryable \x7b rows: " ++ Nat.repr query.rows.length ++ ", stages: "
    ++ quotedNames query.stageNames ++ " \x7d"

end Query

namespace Registry

def text (registry : Registry) : String :=
  "Registry \x7b functions: " ++ Query.quotedNames registry.names ++ " \x7d"

end Registry
end RowPipeline
