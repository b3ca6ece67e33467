import RowPipeline.Clause.Basic

namespace RowPipeline

namespace Operand

mutual
def paths : Operand → List PropertyPath
  | path p => [p]
  | literal _ => []
  | call _ args => allPaths args

def allPaths : List Operand → List PropertyPath
  | [] => []
  | o :: os => paths o ++ allPaths os
end

mutual
def literals : Operand → List Value
  | path _ => []
  | literal value => [value]
  | call _ args => allLiterals args

def allLiterals : List Operand → List Value
  | [] => []
  | o :: os => literals o ++ allLiterals os
end

theorem allPaths_eq_flatMap (os : List Operand) : allPaths os = os.flatMap paths := by
  induction os with
  | nil => simp [allPaths]
  | cons o os ih => simp [allPaths, ih]

theorem allLiterals_eq_flatMap (os : List Operand) : allLiterals os = os.flatMap literals := by
  induction os with
  | nil => simp [allLiterals]
  | cons o os ih => simp [allLiterals, ih]

end Operand

namespace Filter

def paths : Filter → List PropertyPath
  | compare _ left right => left.paths ++ right.paths
  | and left right | or left right => left.paths ++ right.paths
  | not inner => inner.paths
  | truthy operand => operand.paths

def literals : Filter → List Value
  | compare _ left right => left.literals ++ right.literals
  | and left right | or left right => left.literals ++ right.literals
  | not inner => inner.literals
  | truthy operand => operand.literals

end Filter

namespace Aggregate

def paths : Aggregate → List PropertyPath
  | property path _ _ => [path]
  | count _ => []

end Aggregate

namespace Transformation

-- The paths of the step itself. Those in the branches of a concatenation belong to the steps there.
def paths : Transformation → List PropertyPath
  | aggregate aggregates => aggregates.flatMap Aggregate.paths
  | groupBy properties aggregates => properties ++ (aggregates.getD []).flatMap Aggregate.paths
  | filter condition => condition.paths
  | select ps => ps
  | orderBy items => items.map (·.path)
  | top _ | skip _ | concat _ | identity => []

def branches : Transformation → List (List Transformation)
  | concat branches => branches
  | _ => []

def literals : Transformation → List Value
  | filter condition => condition.literals
  | _ => []

end Transformation

namespace Clause

variable {P : List Transformation → Prop}

-- A clause holds what holds of the empty one and passes on from the rest of a sequence and from the branches
-- of its first step.
mutual
theorem forall_induction (nil : P []) (cons : ∀ t ts, (∀ b ∈ t.branches, P b) → P ts → P (t :: ts)) :
    (ts : List Transformation) → P ts
  | [] => nil
  | t :: ts => cons t ts (forall_branches nil cons t) (forall_induction nil cons ts)

theorem forall_branches (nil : P []) (cons : ∀ t ts, (∀ b ∈ t.branches, P b) → P ts → P (t :: ts)) :
    (t : Transformation) → ∀ b ∈ t.branches, P b
  | .concat branches => forall_all nil cons branches
  | .aggregate _ | .groupBy .. | .filter _ | .select _ | .orderBy _ | .top _ | .skip _ | .identity => nofun

theorem forall_all (nil : P []) (cons : ∀ t ts, (∀ b ∈ t.branches, P b) → P ts → P (t :: ts)) :
    (bs : List (List Transformation)) → ∀ b ∈ bs, P b
  | [] => nofun
  | b :: bs => List.forall_mem_cons.mpr ⟨forall_induction nil cons b, forall_all nil cons bs⟩
end

theorem walkBranches_eq_flatMap (bs : List (List Transformation)) :
    walkBranches bs = bs.flatMap walk := by
  induction bs with
  | nil => simp [walkBranches]
  | cons b bs ih => simp [walkBranches, ih]

theorem walk_eq_flatMap (ts : List Transformation) :
    walk ts = ts.flatMap fun t => t :: walkInside t := by
  induction ts with
  | nil => simp [walk]
  | cons t ts ih => simp [walk, ih]

theorem walkInside_eq_flatMap (t : Transformation) : walkInside t = t.branches.flatMap walk := by
  cases t with
  | concat branches => exact walkBranches_eq_flatMap branches
  | _ => rfl

theorem mem_walk_cons {u t : Transformation} {ts : List Transformation} :
    u ∈ walk (t :: ts) ↔ u = t ∨ (∃ b ∈ t.branches, u ∈ walk b) ∨ u ∈ walk ts := by
  simp only [walk, List.mem_cons, List.mem_append, walkInside_eq_flatMap, List.mem_flatMap]

theorem forall_mem_walk_cons {Q : Transformation → Prop} {t : Transformation} {ts : List Transformation} :
    (∀ u ∈ walk (t :: ts), Q u) ↔ Q t ∧ (∀ b ∈ t.branches, ∀ u ∈ walk b, Q u) ∧ ∀ u ∈ walk ts, Q u := by
  simp only [walk, List.forall_mem_cons, List.forall_mem_append, walkInside_eq_flatMap, List.forall_mem_flatMap]

theorem forall_mem_walk_singleton {Q : Transformation → Prop} {t : Transformation} :
    (∀ u ∈ walk [t], Q u) ↔ Q t ∧ ∀ b ∈ t.branches, ∀ u ∈ walk b, Q u := by
  rw [forall_mem_walk_cons, walk, and_iff_left (List.forall_mem_nil Q)]

end Clause
end RowPipeline
