import RowPipeline.Stage.Basic
import RowPipeline.Stage.Sorting
import RowPipeline.Stage.Grouping

namespace RowPipeline.Stage

-- The rows that pass, up to the first one that fails.
def keep (passes : Value → Except EvaluationError Bool) :
    List Value → Except EvaluationError (List Value)
  | [] => .ok []
  | row :: rows => do
    let pass ← passes row
    let kept ← keep passes rows
    return if pass then row :: kept else kept

-- The object that holds what the row has at the paths.
def project (access : Access) (row : Value) :
    List PropertyPath → Members → Except EvaluationError Members
  | [], out => .ok out
  | path :: rest, out => do
    let value ← access.read row path
    project access row rest (out.setPath path value)

def sortRows (items : List OrderItem) (access : Access) (rows : List Value) :
    Except EvaluationError (List Value) := do
  let keyed ← rows.mapM fun row => do
    return (← access.readAll row (items.map (·.path)), row)
  match stableSort? (fun a b => OrderItem.orderKeys items a.1 b.1) keyed with
  | some sorted => return sorted.map (·.2)
  | none => throw .orderNotTotal

def summarize (summaries : List Summary) (access : Access) (rows : List Value) (out : Members) :
    Except EvaluationError Value := do
  return .object (← Summary.writeAll access rows summaries out)

def groupRows (properties : List PropertyPath) (summaries : List Summary) (access : Access)
    (rows : List Value) : Except EvaluationError (List Value) := do
  let keyed ← rows.mapM fun row => do
    return (← access.readAll row properties, row)
  (Group.ofRows keyed).mapM fun group =>
    summarize summaries access group.members (Group.keyMembers properties group.keys)

mutual
def run : Stage → List Value → Except EvaluationError (List Value)
  | filter condition access, rows => keep (condition.eval access) rows
  | select paths access, rows => rows.mapM fun row => do
    return .object (← project access row paths [])
  | orderBy items access, rows => sortRows items access rows
  | top count, rows => .ok (rows.take count)
  | skip count, rows => .ok (rows.drop count)
  | aggregate summaries access, rows => do
    return [← summarize summaries access rows []]
  | groupBy properties summaries access, rows => groupRows properties summaries access rows
  | concat branches, rows => runBranches branches rows

def runAll : List Stage → List Value → Except EvaluationError (List Value)
  | [], rows => .ok rows
  | stage :: rest, rows => do runAll rest (← run stage rows)

-- Every branch gets the same rows, and the results follow each other.
def runBranches : List (List Stage) → List Value → Except EvaluationError (List Value)
  | [], _ => .ok []
  | branch :: rest, rows => do
    let out ← runAll branch rows
    return out ++ (← runBranches rest rows)
end

-- Stages one after the other are the first ones, and then the others on what these leave.
theorem runAll_append (as bs : List Stage) (rows : List Value) :
    runAll (as ++ bs) rows = (do runAll bs (← runAll as rows)) := by
  induction as generalizing rows with
  | nil => rfl
  | cons a as ih =>
    simp only [List.cons_append, runAll]
    cases run a rows with
    | error e => rfl
    | ok out => exact ih out

end RowPipeline.Stage
