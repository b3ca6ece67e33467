import RowPipeline.Host.Query
import RowPipeline.Proofs.Clause.Places
import RowPipeline.Proofs.Stage.Receiving

namespace RowPipeline

namespace Aggregate

def method? : Aggregate → Option String
  | property _ method _ => some method
  | count _ => none

end Aggregate

namespace Transformation

def aggregates : Transformation → List Aggregate
  | aggregate aggregates => aggregates
  | groupBy _ aggregates => aggregates.getD []
  | filter _ | select _ | orderBy _ | top _ | skip _ | concat _ | identity => []

-- The methods that the step itself names. Those in the branches of a concatenation belong to the steps there.
def methods (t : Transformation) : List String :=
  t.aggregates.filterMap Aggregate.method?

end Transformation

namespace Registry

variable {α β : Type} {registry : Registry} {names names' : List String} {result : Except Error α}

def missing? (registry : Registry) (names : List String) : Option String :=
  names.find? fun name => (registry.get? name).isNone

-- The names are looked up one after the other, up to the first that is not registered.
def LooksUp (registry : Registry) (names : List String) (result : Except Error α) : Prop :=
  match registry.missing? names with
  | none => ∃ a, result = .ok a
  | some name => result = .error (.unknownMethod name)

namespace LooksUp

theorem pure (a : α) : LooksUp registry [] (Pure.pure a : Except Error α) :=
  ⟨a, rfl⟩

theorem bind {f : α → Except Error β} (h : LooksUp registry names result) (hf : ∀ a, LooksUp registry names' (f a)) :
    LooksUp registry (names ++ names') (result >>= f) := by
  rw [LooksUp, missing?] at h
  rw [LooksUp, missing?, List.find?_append]
  cases hm : names.find? fun name => (registry.get? name).isNone with
  | some name =>
    rw [hm] at h
    rw [h]
    rfl
  | none =>
    rw [hm] at h
    have ⟨a, ha⟩ := h
    rw [ha]
    exact hf a

theorem return_bind {f : α → β} (h : LooksUp registry names result) :
    LooksUp registry names (do return f (← result)) := by
  have hp : ∀ a, LooksUp registry [] (Pure.pure (f a) : Except Error β) := fun a => .pure (f a)
  have hb := h.bind hp
  rwa [List.append_nil] at hb

theorem mapM {g : α → List String} {f : α → Except Error β} {as : List α}
    (h : ∀ a ∈ as, LooksUp registry (g a) (f a)) : LooksUp registry (as.flatMap g) (as.mapM f) := by
  induction as with
  | nil => exact .pure []
  | cons a as ih =>
    have ⟨ha, has⟩ := List.forall_mem_cons.mp h
    rw [List.flatMap_cons, List.mapM_cons]
    exact ha.bind fun b => (ih has).return_bind

-- The whole is a success exactly if nothing is missing, and reports what is missing first.
theorem eq_ok_iff (h : LooksUp registry names result) :
    (∃ a, result = .ok a) ↔ ∀ name ∈ names, (registry.get? name).isSome := by
  have hn : registry.missing? names = none ↔ ∀ name ∈ names, (registry.get? name).isSome := by
    simp [missing?, Option.isSome_iff_ne_none]
  rw [← hn]
  rw [LooksUp] at h
  split at h
  case h_1 hm => exact iff_of_true h hm
  case h_2 hm => simp [h, hm]

theorem eq_error_iff {e : Error} (h : LooksUp registry names result) :
    result = .error e ↔ ∃ name, registry.missing? names = some name ∧ e = .unknownMethod name := by
  rw [LooksUp] at h
  split at h
  case h_1 hm =>
    have ⟨a, ha⟩ := h
    simp [ha, hm]
  case h_2 hm => simp [h, hm, eq_comm]

end LooksUp

end Registry

namespace Stage

open Registry

variable {access : Access} {registry : Registry} {t : Transformation} {stage : Option Stage} {stages : List Stage}

theorem looksUp_ofAggregates (aggregates : List Aggregate) :
    LooksUp registry (aggregates.filterMap Aggregate.method?) (Summary.ofAggregates registry aggregates) := by
  rw [List.filterMap_eq_flatMap_toList]
  refine .mapM fun a _ => ?_
  cases a with
  | count output => exact .pure _
  | property path method output =>
    rw [Summary.ofAggregate]
    cases hm : registry.get? method with
    | none => simp [LooksUp, missing?, Aggregate.method?, hm]
    | some m => simp [LooksUp, missing?, Aggregate.method?, hm]

theorem looksUp_compile? (h : ∀ b ∈ t.branches, LooksUp registry ((Clause.walk b).flatMap Transformation.methods)
      (compileAll access registry b)) :
    LooksUp registry (t.methods ++ (Clause.walkInside t).flatMap Transformation.methods) (compile? access registry t) := by
  rw [Clause.walkInside_eq_flatMap, List.flatMap_assoc]
  cases t with
  | aggregate aggregates =>
    change LooksUp registry (_ ++ []) _
    rw [List.append_nil]
    exact (looksUp_ofAggregates aggregates).return_bind
  | groupBy properties aggregates =>
    change LooksUp registry (_ ++ []) _
    rw [List.append_nil]
    exact (looksUp_ofAggregates (aggregates.getD [])).return_bind
  | concat branches =>
    rw [compile?, compileBranches_eq_mapM]
    exact (LooksUp.mapM h).return_bind
  | filter | select | orderBy | top | skip | identity => exact .pure _

-- Compilation comes by the methods in the order of the walk.
theorem looksUp_compileAll (clause : Clause) :
    LooksUp registry ((Clause.walk clause).flatMap Transformation.methods) (compileAll access registry clause) := by
  induction clause using Clause.forall_induction with
  | nil => exact .pure []
  | cons t ts branches rest =>
    rw [Clause.walk, List.flatMap_cons, List.flatMap_append, ← List.append_assoc, compileAll]
    exact (looksUp_compile? branches).bind fun stage => rest.return_bind

theorem exists_compileAll {clause : Clause}
    (h : ∀ t ∈ Clause.walk clause, ∀ name ∈ t.methods, (registry.get? name).isSome) :
    ∃ stages, compileAll access registry clause = .ok stages :=
  (looksUp_compileAll clause).eq_ok_iff.mpr (List.forall_mem_flatMap.mpr h)

theorem names_of_compile? (h : compile? access registry t = .ok stage) :
    stage.toList.map name = ([t].filter fun t => !(t matches .identity)).map Transformation.kind := by
  cases t with
  | aggregate | groupBy | concat =>
    have ⟨_, _, hp⟩ := bind_eq_ok.mp h
    cases hp
    rfl
  | filter | select | orderBy | top | skip | identity =>
    cases h
    rfl

-- Every step but the identity is one stage.
theorem names_of_compileAll {clause : Clause} (h : compileAll access registry clause = .ok stages) :
    stages.map name = (clause.filter fun t => !(t matches .identity)).map Transformation.kind := by
  induction clause generalizing stages with
  | nil => cases h; rfl
  | cons t ts ih =>
    have ⟨stage, hs, h⟩ := bind_eq_ok.mp h
    have ⟨rest, hr, h⟩ := bind_eq_ok.mp h
    cases h
    rw [← List.singleton_append, List.filter_append, List.map_append, List.map_append, names_of_compile? hs, ih hr]

-- A clause compiles if all of its methods are registered, and else the first that is not is the error. Rows, the
-- resolver and the settings have no part in it.
theorem ofClause_registered (clause : Clause) (resolver : Resolver) (settings : Settings) (registry : Registry) :
    ((∃ stages, ofClause clause resolver settings registry = .ok stages) ↔
      ∀ place t, clause.OccursAt place t → ∀ method ∈ t.methods, (registry.get? method).isSome) ∧
    (∀ e, ofClause clause resolver settings registry = .error e ↔
      ∃ method, registry.missing? ((Clause.walk clause).flatMap Transformation.methods) = some method ∧
        e = .unknownMethod method) ∧
    ∀ stages, ofClause clause resolver settings registry = .ok stages →
      stages.map name = (clause.filter fun t => !(t matches .identity)).map Transformation.kind := by
  have h : LooksUp registry ((Clause.walk clause).flatMap Transformation.methods)
      (ofClause clause resolver settings registry) := looksUp_compileAll clause
  refine ⟨?_, fun e => h.eq_error_iff, fun stages => names_of_compileAll⟩
  refine h.eq_ok_iff.trans ?_
  simp only [List.forall_mem_flatMap, Clause.mem_walk_iff_occursAt]
  exact ⟨fun h place t ho => h t ⟨place, ho⟩, fun h t ⟨place, ho⟩ => h place t ho⟩

end Stage
end RowPipeline
