import RowPipeline.Stage.Basic

namespace RowPipeline

namespace Summary

def ofAggregate (registry : Registry) : Aggregate → Except Error Summary
  | .count output => .ok (.count output)
  | .property path method output =>
    match registry.get? method with
    | some m => .ok (.property path m output)
    | none => .error (.unknownMethod method)

def ofAggregates (registry : Registry) (aggregates : List Aggregate) :
    Except Error (List Summary) :=
  aggregates.mapM (ofAggregate registry)

end Summary

namespace Stage

-- The identity is no stage. The first method that is not registered is the error.
mutual
def compile? (access : Access) (registry : Registry) : Transformation → Except Error (Option Stage)
  | .identity => .ok none
  | .filter condition => .ok (some (.filter condition access))
  | .select paths => .ok (some (.select paths access))
  | .orderBy items => .ok (some (.orderBy items access))
  | .top count => .ok (some (.top count))
  | .skip count => .ok (some (.skip count))
  | .aggregate aggregates => do
    return some (.aggregate (← Summary.ofAggregates registry aggregates) access)
  | .groupBy properties aggregates => do
    return some (.groupBy properties (← Summary.ofAggregates registry (aggregates.getD [])) access)
  | .concat branches => do
    return some (.concat (← compileBranches access registry branches))

def compileAll (access : Access) (registry : Registry) :
    List Transformation → Except Error (List Stage)
  | [] => .ok []
  | t :: ts => do
    let stage ← compile? access registry t
    return stage.toList ++ (← compileAll access registry ts)

def compileBranches (access : Access) (registry : Registry) :
    List (List Transformation) → Except Error (List (List Stage))
  | [] => .ok []
  | b :: bs => do
    let stages ← compileAll access registry b
    return stages :: (← compileBranches access registry bs)
end

theorem compileAll_append (access : Access) (registry : Registry) (as bs : List Transformation) :
    compileAll access registry (as ++ bs) =
      (do return (← compileAll access registry as) ++ (← compileAll access registry bs)) := by
  induction as with
  | nil => cases h : compileAll access registry bs <;> simp [compileAll, h, bind, Except.bind, pure, Except.pure]
  | cons a as ih =>
    simp only [List.cons_append, compileAll, ih]
    cases compile? access registry a with
    | error e => rfl
    | ok stage =>
      cases compileAll access registry as with
      | error e => rfl
      | ok stages =>
        cases compileAll access registry bs with
        | error e => rfl
        | ok more => simp [bind, Except.bind, pure, Except.pure]

end Stage
end RowPipeline
