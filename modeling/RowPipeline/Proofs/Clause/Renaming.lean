import Mathlib.Data.List.Basic
import RowPipeline.Proofs.Clause.Contents

namespace RowPipeline

variable (g : PropertyPath → PropertyPath)

namespace Operand

mutual
def mapPaths : Operand → Operand
  | path p => path (g p)
  | literal value => literal value
  | call function args => call function (mapAll args)

def mapAll : List Operand → List Operand
  | [] => []
  | o :: os => mapPaths o :: mapAll os
end

end Operand

def Filter.mapPaths : Filter → Filter
  | compare op left right => compare op (left.mapPaths g) (right.mapPaths g)
  | and left right => and left.mapPaths right.mapPaths
  | or left right => or left.mapPaths right.mapPaths
  | not inner => not inner.mapPaths
  | truthy operand => truthy (operand.mapPaths g)

def Aggregate.mapPaths : Aggregate → Aggregate
  | property path method output => property (g path) method output
  | count output => count output

def OrderItem.mapPaths (item : OrderItem) : OrderItem :=
  { item with path := g item.path }

namespace Clause

mutual
def mapPaths : List Transformation → List Transformation
  | [] => []
  | t :: ts => mapStep t :: mapPaths ts

def mapStep : Transformation → Transformation
  | .aggregate aggregates => .aggregate (aggregates.map (Aggregate.mapPaths g))
  | .groupBy properties aggregates =>
    .groupBy (properties.map g) (aggregates.map fun items => items.map (Aggregate.mapPaths g))
  | .filter condition => .filter (condition.mapPaths g)
  | .select paths => .select (paths.map g)
  | .orderBy items => .orderBy (items.map (OrderItem.mapPaths g))
  | .top count => .top count
  | .skip count => .skip count
  | .concat branches => .concat (mapBranches branches)
  | .identity => .identity

def mapBranches : List (List Transformation) → List (List Transformation)
  | [] => []
  | b :: bs => mapPaths b :: mapBranches bs
end

theorem mapBranches_eq_map (bs : List (List Transformation)) : mapBranches g bs = bs.map (mapPaths g) := by
  induction bs with
  | nil => simp [mapBranches]
  | cons b bs ih => simp [mapBranches, ih]

theorem branches_mapStep (t : Transformation) : (mapStep g t).branches = t.branches.map (mapPaths g) := by
  cases t with
  | concat branches => simp only [mapStep, Transformation.branches, mapBranches_eq_map]
  | _ => simp only [mapStep, Transformation.branches, List.map_nil]

-- The steps stay where they are.
theorem walk_mapPaths (ts : Clause) : walk (mapPaths g ts) = (walk ts).map (mapStep g) := by
  induction ts using forall_induction with
  | nil => simp [mapPaths, walk]
  | cons t ts branches rest =>
    have hb : walkInside (mapStep g t) = (walkInside t).map (mapStep g) := by
      simp only [walkInside_eq_flatMap, branches_mapStep, List.flatMap_map, List.map_flatMap]
      exact List.flatMap_congr branches
    simp only [mapPaths, walk, hb, rest, List.map_cons, List.map_append]

end Clause
end RowPipeline
