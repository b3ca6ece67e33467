import RowPipeline.Row.Condition
import RowPipeline.Method.Basic

namespace RowPipeline

-- An aggregate whose method has been found.
inductive Summary where
  | property (path : PropertyPath) (method : Method) (output : String)
  | count (output : String)

inductive Stage where
  | filter (condition : Filter) (access : Access)
  | select (paths : List PropertyPath) (access : Access)
  | orderBy (items : List OrderItem) (access : Access)
  | top (count : Nat)
  | skip (count : Nat)
  | aggregate (summaries : List Summary) (access : Access)
  | groupBy (properties : List PropertyPath) (summaries : List Summary) (access : Access)
  | concat (branches : List (List Stage))

namespace Summary

def output : Summary → String
  | property _ _ a => a
  | count a => a

def text : Summary → String
  | property path method a => path.text ++ " with " ++ method.name ++ " as " ++ a
  | count a => "$count as " ++ a

-- The value of an aggregate over the rows of a group.
def eval (access : Access) (rows : List Value) : Summary → Except EvaluationError Value
  | count _ => .ok (.int rows.length)
  | property path method _ => do method.call (← rows.mapM fun row => access.read row path)

-- Writes the aggregates one after the other, up to the first that fails.
def writeAll (access : Access) (rows : List Value) :
    List Summary → Members → Except EvaluationError Members
  | [], out => .ok out
  | s :: rest, out => do
    let value ← s.eval access rows
    writeAll access rows rest (Members.insert s.output value out)

end Summary

namespace Stage

def name : Stage → String
  | filter .. => "filter"
  | select .. => "select"
  | orderBy .. => "orderby"
  | top _ => "top"
  | skip _ => "skip"
  | aggregate .. => "aggregate"
  | groupBy .. => "groupby"
  | concat _ => "concat"

end Stage
end RowPipeline
