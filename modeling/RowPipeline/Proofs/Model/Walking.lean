import Mathlib.Data.List.Induction
import RowPipeline.Model.Target

namespace RowPipeline

namespace PathSegment

def IsProperty : PathSegment → Prop
  | property _ | navigation _ => True
  | _ => False

def IsSource : PathSegment → Prop
  | source _ => True
  | _ => False

def IsCast : PathSegment → Prop
  | cast _ => True
  | _ => False

end PathSegment

namespace Model

variable {model : Model} {name : String} {ty : StructuredType}

theorem name_of_type? (h : model.type? name = some ty) : ty.name = name := by
  simpa using List.find?_some h

theorem type?_name (h : model.type? name = some ty) : model.type? ty.name = some ty := by
  rw [name_of_type? h, h]

end Model

namespace Target

variable {model : Model} {path rest : ResourcePath} {walk next : Walk} {target : Target} {name : String}

-- The walk from the start, if the path fits the model.
def Reaches (model : Model) (path : ResourcePath) (walk : Walk) : Prop :=
  path.foldlM (Walk.step model) Walk.start = some walk

theorem reaches_append : Reaches model (path ++ rest) next ↔
    ∃ walk, Reaches model path walk ∧ rest.foldlM (Walk.step model) walk = some next := by
  simp only [Reaches, List.foldlM_append, Option.bind_eq_bind, Option.bind_eq_some_iff]

theorem reaches_concat {segment : PathSegment} : Reaches model (path ++ [segment]) next ↔
    ∃ walk, Reaches model path walk ∧ walk.step model segment = some next := by
  simp [reaches_append]

theorem ofPath_of_reaches (h : Reaches model path walk) : ofPath model path = walk.target := by
  rw [ofPath, show path.foldlM (Walk.step model) Walk.start = some walk from h]

theorem ofPath_of_not_reaches (h : ∀ walk, ¬Reaches model path walk) : ofPath model path = absent := by
  cases hw : path.foldlM (Walk.step model) Walk.start with
  | none => rw [ofPath, hw]
  | some walk => exact absurd hw (h walk)

theorem isResolved_ofPath_iff :
    (ofPath model path).IsResolved ↔ ∃ walk, Reaches model path walk ∧ walk.target.IsResolved := by
  unfold ofPath Reaches
  cases path.foldlM (Walk.step model) Walk.start with
  | none => simp [IsResolved, absent]
  | some walk => simp

namespace Walk

theorem enter_eq_some : walk.enter model name = some next ↔ walk.current = none ∧ ∃ source ty,
    model.source? name = some source ∧ model.type? source.entityType = some ty ∧
      ⟨some ty, some source.name, ⟨none, some ty, some source.name⟩⟩ = next := by
  unfold enter
  cases walk.current with
  | some ty => simp
  | none => simp [Option.bind_eq_some_iff]

theorem follow_eq_some {navigationOnly : Bool} : walk.follow model name navigationOnly = some next ↔
    ∃ owner property, walk.current = some owner ∧ model.property? owner name = some property ∧
      (navigationOnly → property.navigation) ∧
      ⟨model.propertyType? property, some property.name, ⟨some property, some owner, some property.name⟩⟩ = next := by
  unfold follow
  simp only [Option.bind_eq_bind, Option.bind_eq_some_iff]
  constructor
  case mp =>
    rintro ⟨owner, ho, property, hp, h⟩
    split at h
    case isTrue => cases h
    case isFalse hn => exact ⟨owner, property, ho, hp, by simpa using hn, Option.some.inj h⟩
  case mpr =>
    rintro ⟨owner, property, ho, hp, hn, rfl⟩
    refine ⟨owner, ho, property, hp, ?_⟩
    rw [if_neg (by simpa using hn)]
    rfl

theorem cast_eq_some : walk.cast model name = some next ↔ ∃ ty, model.type? name = some ty ∧
    ⟨some ty, walk.base, ⟨walk.target.property, some ty, walk.base.map (· ++ "/" ++ name)⟩⟩ = next := by
  simp [cast, Option.bind_eq_some_iff]

-- A type that is reached is the one of its name, and without a property it is the owner of the target.
structure Sound (model : Model) (walk : Walk) : Prop where
  known : ∀ ty ∈ walk.current, model.type? ty.name = some ty
  owner : walk.target.property = none → walk.target.owner = walk.current

theorem Sound.step {segment : PathSegment} (hs : walk.Sound model) (h : walk.step model segment = some next) :
    next.Sound model := by
  cases segment with
  | source name =>
    obtain ⟨-, source, ty, -, ht, rfl⟩ := enter_eq_some.mp h
    exact ⟨fun _ hm => Option.some.inj hm ▸ Model.type?_name ht, fun _ => rfl⟩
  | property name | navigation name =>
    obtain ⟨owner, property, -, -, -, rfl⟩ := follow_eq_some.mp h
    exact ⟨fun _ hm => Model.type?_name hm, nofun⟩
  | cast name =>
    obtain ⟨ty, ht, rfl⟩ := cast_eq_some.mp h
    exact ⟨fun _ hm => Option.some.inj hm ▸ Model.type?_name ht, fun _ => rfl⟩
  | key | count | value => cases h; exact hs

end Walk

theorem Reaches.sound (h : Reaches model path walk) : walk.Sound model := by
  induction path using List.reverseRecOn generalizing walk with
  | nil =>
    cases h
    exact ⟨nofun, fun _ => rfl⟩
  | append_singleton path segment ih =>
    obtain ⟨before, hb, hs⟩ := reaches_concat.mp h
    exact (ih hb).step hs

-- A chain of properties can be walked from a type if the check of paths lets it through.
theorem exists_foldlM_property_iff (binding : Binding) {whole names : List String} :
    (∃ next, (names.map PathSegment.property).foldlM (Walk.step binding.model) walk = some next) ↔
      Binding.checkPath.go binding whole walk.current names = .ok () := by
  induction names generalizing walk with
  | nil => cases walk.current <;> simp [Binding.checkPath.go]
  | cons name names ih =>
    simp only [List.map_cons, List.foldlM_cons, Option.bind_eq_bind, Option.bind_eq_some_iff, Walk.step,
      Walk.follow_eq_some]
    cases walk.current with
    | none => simp [Binding.checkPath.go]
    | some ty =>
      rw [Binding.checkPath.go]
      cases hp : binding.model.property? ty name with
      | none => simp [hp]
      | some property =>
        rw [← @ih ⟨binding.model.propertyType? property, some property.name,
          ⟨some property, some ty, some property.name⟩⟩]
        simp [hp]

theorem isResolved_of_foldlM_property {names : List String} (hn : names ≠ [])
    (h : (names.map PathSegment.property).foldlM (Walk.step model) walk = some next) : next.target.IsResolved := by
  induction names generalizing walk with
  | nil => contradiction
  | cons name names ih =>
    simp only [List.map_cons, List.foldlM_cons, Option.bind_eq_bind, Option.bind_eq_some_iff, Walk.step] at h
    obtain ⟨mid, hm, h⟩ := h
    cases names with
    | nil =>
      cases h
      obtain ⟨_, _, -, -, -, rfl⟩ := Walk.follow_eq_some.mp hm
      rfl
    | cons other names => exact ih (List.cons_ne_nil _ _) h

-- Properties after a path that ends on a type are resolved if they are properties of this type.
theorem isResolved_append_iff {ty : StructuredType} {names : List String} (h : Reaches model path walk)
    (ht : walk.current = some ty) (hn : names ≠ []) :
    (ofPath model (path ++ names.map .property)).IsResolved ↔ Binding.checkPath ⟨model, ty.name⟩ names = .ok () := by
  have hk : model.type? ty.name = walk.current := by rw [h.sound.known ty ht, ht]
  rw [Binding.checkPath, hk, ← exists_foldlM_property_iff ⟨model, ty.name⟩, isResolved_ofPath_iff]
  simp only [reaches_append]
  constructor
  case mp =>
    rintro ⟨next, ⟨walk', hw, hn⟩, -⟩
    cases hw.symm.trans h
    exact ⟨next, hn⟩
  case mpr =>
    rintro ⟨next, hnext⟩
    exact ⟨next, ⟨walk, h, hnext⟩, isResolved_of_foldlM_property hn hnext⟩

end Target
end RowPipeline
