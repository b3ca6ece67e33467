import Mathlib
import RowPipeline.Clause.Parser
import RowPipeline.Host.Context
import RowPipeline.Proofs.Clause.Binding
import RowPipeline.Proofs.Clause.RoundTrip
import RowPipeline.Proofs.Model.Walking
import RowPipeline.Proofs.Success

namespace RowPipeline

namespace ResourcePath

-- The walk along the path fits the model, and it leads to the type whose properties may come next.
def EndsOn (model : Model) (path : ResourcePath) (ty : StructuredType) : Prop :=
  ∃ walk, Target.Reaches model path walk ∧ walk.current = some ty

-- The last property of the path, with what comes after it. No source starts the path anew.
structure IsPropertySplit (path front rest : ResourcePath) (step : PathSegment) : Prop where
  eq       : path = front ++ step :: rest
  property : step.IsProperty
  stays    : ∀ segment ∈ rest, ¬segment.IsProperty ∧ ¬segment.IsSource

-- What the last property holds is cast to a type.
def CastsProperty (path : ResourcePath) : Prop :=
  ∃ front rest step, path.IsPropertySplit front rest step ∧ ∃ segment ∈ rest, segment.IsCast

-- A parser that is bound to the resource path accepts the projection to the path of properties.
def Admits (model : Model) (path : ResourcePath) (names : PropertyPath) : Prop :=
  ∃ clause, (ClauseParser.standard (Context.ofRoute (some ⟨model, path⟩)).binding?).parse
    ("select(" ++ names.text ++ ")") = .ok clause

end ResourcePath

open ResourcePath

namespace ResourcePath

variable {model : Model} {path front rest : ResourcePath} {names : PropertyPath} {step segment : PathSegment}

theorem IsPropertySplit.concat (h : path.IsPropertySplit front rest step) (hp : ¬segment.IsProperty)
    (hs : ¬segment.IsSource) : (path ++ [segment]).IsPropertySplit front (rest ++ [segment]) step where
  eq := by rw [h.eq, List.append_assoc, List.cons_append]
  property := h.property
  stays := List.forall_mem_append.mpr ⟨h.stays, List.forall_mem_singleton.mpr ⟨hp, hs⟩⟩

theorem CastsProperty.concat (h : path.CastsProperty) (hp : ¬segment.IsProperty) (hs : ¬segment.IsSource) :
    (path ++ [segment]).CastsProperty := by
  obtain ⟨front, rest, step, hsplit, cast, hm, hc⟩ := h
  exact ⟨front, rest ++ [segment], step, hsplit.concat hp hs, cast, List.mem_append_left _ hm, hc⟩

end ResourcePath

namespace Target

variable {model : Model} {path front rest : ResourcePath} {step : PathSegment} {walk next : Walk}

theorem elementType?_of_property {target : Target} {property : Property} (h : target.property = some property) :
    target.elementType? model = model.propertyType? property := by
  rw [elementType?, h]

-- Without a property, the owner is the type that has been reached.
theorem elementType?_of_no_property (hs : walk.Sound model) (h : walk.target.property = none) :
    walk.target.elementType? model = walk.current := by
  rw [elementType?, h]
  exact hs.owner h

-- A walk with a property has gone through it, and no source has come after it.
theorem exists_split {property : Property} (h : Reaches model path walk) (hp : walk.target.property = some property) :
    ∃ front rest step, path.IsPropertySplit front rest step := by
  induction path using List.reverseRecOn generalizing walk with
  | nil => cases h; cases hp
  | append_singleton path segment ih =>
    obtain ⟨before, hb, hs⟩ := reaches_concat.mp h
    cases segment with
    | source name =>
      obtain ⟨-, _, _, -, -, rfl⟩ := Walk.enter_eq_some.mp hs
      cases hp
    | property name | navigation name => exact ⟨path, [], _, rfl, trivial, nofun⟩
    | cast name =>
      obtain ⟨_, -, rfl⟩ := Walk.cast_eq_some.mp hs
      obtain ⟨front, rest, step, hsplit⟩ := ih hb hp
      exact ⟨front, _, step, hsplit.concat id id⟩
    | key | count | value =>
      cases hs
      obtain ⟨front, rest, step, hsplit⟩ := ih hb hp
      exact ⟨front, _, step, hsplit.concat id id⟩

-- Without a cast after the last property, the element type is the type on which the path ends.
theorem elementType?_eq_current (h : Reaches model path walk) (hc : ¬path.CastsProperty) :
    walk.target.elementType? model = walk.current := by
  induction path using List.reverseRecOn generalizing walk with
  | nil => cases h; rfl
  | append_singleton path segment ih =>
    obtain ⟨before, hb, hs⟩ := reaches_concat.mp h
    cases segment with
    | source name =>
      obtain ⟨-, _, _, -, -, rfl⟩ := Walk.enter_eq_some.mp hs
      rfl
    | property name | navigation name =>
      obtain ⟨_, _, -, -, -, rfl⟩ := Walk.follow_eq_some.mp hs
      rfl
    | cast name =>
      cases hp : walk.target.property with
      | none => exact elementType?_of_no_property h.sound hp
      | some property =>
        obtain ⟨ty, -, rfl⟩ := Walk.cast_eq_some.mp hs
        obtain ⟨front, rest, step, hsplit⟩ := exists_split hb hp
        refine absurd ⟨front, _, step, hsplit.concat id id, .cast name, ?_, trivial⟩ hc
        exact List.mem_append_right _ (List.mem_singleton_self _)
    | key | count | value =>
      cases hs
      exact ih hb fun hp => hc (hp.concat id id)

theorem foldlM_property_eq (h : rest.foldlM (Walk.step model) walk = some next)
    (hs : ∀ segment ∈ rest, ¬segment.IsProperty ∧ ¬segment.IsSource) :
    next.target.property = walk.target.property := by
  induction rest generalizing walk with
  | nil => cases h; rfl
  | cons segment rest ih =>
    obtain ⟨⟨hp, hsrc⟩, hr⟩ := List.forall_mem_cons.mp hs
    simp only [List.foldlM_cons, Option.bind_eq_bind, Option.bind_eq_some_iff] at h
    obtain ⟨mid, hm, h⟩ := h
    rw [ih h hr]
    cases segment with
    | source name => exact absurd trivial hsrc
    | property name | navigation name => exact absurd trivial hp
    | cast name =>
      obtain ⟨_, -, rfl⟩ := Walk.cast_eq_some.mp hm
      rfl
    | key | count | value => cases hm; rfl

-- The element type is that of the last property, whatever it is cast to.
theorem elementType?_of_split (h : Reaches model path walk) (hs : path.IsPropertySplit front rest step) :
    ∃ before, Reaches model (front ++ [step]) before ∧ walk.target.elementType? model = before.current := by
  have hr := h
  rw [hs.eq, List.append_cons] at hr
  obtain ⟨before, hb, hrest⟩ := reaches_append.mp hr
  refine ⟨before, hb, ?_⟩
  have hkeep := foldlM_property_eq hrest hs.stays
  obtain ⟨_, -, hstep⟩ := reaches_concat.mp hb
  have hp := hs.property
  cases step with
  | property name | navigation name =>
    obtain ⟨_, property, -, -, -, rfl⟩ := Walk.follow_eq_some.mp hstep
    exact elementType?_of_property hkeep
  | _ => cases hp

end Target

namespace ResourcePath

variable {model : Model} {path front rest : ResourcePath} {names : PropertyPath} {step : PathSegment}
  {walk : Target.Walk}

theorem endsOn_iff {ty : StructuredType} (h : Target.Reaches model path walk) :
    EndsOn model path ty ↔ walk.current = some ty := by
  constructor
  case mp =>
    rintro ⟨walk', hw, ht⟩
    cases hw.symm.trans h
    exact ht
  case mpr => exact fun ht => ⟨walk, h, ht⟩

theorem binding?_eq (h : Target.Reaches model path walk) :
    (Context.ofRoute (some ⟨model, path⟩)).binding? =
      (walk.target.elementType? model).map fun ty => ⟨model, ty.name⟩ := by
  rw [← Target.ofPath_of_reaches h]
  rfl

theorem admits_iff (hn : names.WellFormed) :
    Admits model path names ↔ Binding.Accepts (Context.ofRoute (some ⟨model, path⟩)).binding? names := by
  have hforce : ∀ q, Clause.InForce q [.select [names]] ↔ q = names := by
    simp [Clause.inForce_cons, Clause.not_inForce_nil, Transformation.Holds, Transformation.paths,
      Transformation.branches]
  simp only [Admits, ClauseParser.standard, mapError_eq_ok, Clause.parse_iff_parse_and_accepts, Clause.parse_select hn,
    Except.ok.injEq, exists_eq_left', hforce, forall_eq]

-- A parser with a type accepts what the type has, and one without a type everything.
theorem admits_iff_of_elementType {before : Target.Walk} (h : Target.Reaches model path walk)
    (hb : Target.Reaches model front before) (he : walk.target.elementType? model = before.current)
    (hn : names.WellFormed) : Admits model path names ↔
      (¬∃ ty, EndsOn model front ty) ∨ (Target.ofPath model (front ++ names.map .property)).IsResolved := by
  rw [admits_iff hn, binding?_eq h, he]
  simp only [endsOn_iff hb]
  cases ht : before.current with
  | none => simp [Binding.Accepts]
  | some ty => simp [Binding.Accepts, Target.isResolved_append_iff hb ht hn.left]

-- A parser that is bound to a resource path checks against the type on which the path ends, if no cast comes
-- after its last property. Otherwise it checks against what the property was declared with.
theorem admits_iff_isResolved {ty : StructuredType} (he : EndsOn model path ty) (hn : names ≠ [])
    (hi : ∀ name ∈ names, IsIdentifier name) :
    (¬path.CastsProperty →
      (Admits model path names ↔ (Target.ofPath model (path ++ names.map .property)).IsResolved)) ∧
    ∀ front rest step, path.IsPropertySplit front rest step →
      (Admits model path names ↔ (¬∃ ty, EndsOn model (front ++ [step]) ty) ∨
        (Target.ofPath model (front ++ [step] ++ names.map .property)).IsResolved) := by
  obtain ⟨walk, hw, ht⟩ := he
  constructor
  case left =>
    intro hc
    rw [admits_iff_of_elementType hw hw (Target.elementType?_eq_current hw hc) ⟨hn, hi⟩]
    exact or_iff_right fun hne => hne ⟨ty, walk, hw, ht⟩
  case right =>
    intro front rest step hs
    obtain ⟨before, hb, he⟩ := Target.elementType?_of_split hw hs
    exact admits_iff_of_elementType hw hb he ⟨hn, hi⟩

-- A source of a type whose property `Child` has the type itself, and a type derived from this.
def derived : Model :=
  Model.empty
    |>.addType ⟨"Base", .entity, none, [.plain "Child" "Base"]⟩
    |>.addType ⟨"Derived", .entity, some "Base", [.plain "Extra" "Int"]⟩
    |>.addSource ⟨"Items", "Base", false⟩

theorem admits_inherited_property :
    Admits derived [.source "Items", .property "Child", .cast "Derived"] ["Child"] := by
  have he : EndsOn derived [.source "Items", .property "Child", .cast "Derived"]
      ⟨"Derived", .entity, some "Base", [.plain "Extra" "Int"]⟩ := ⟨_, rfl, rfl⟩
  have hs : IsPropertySplit [.source "Items", .property "Child", .cast "Derived"] [.source "Items"] [.cast "Derived"]
      (.property "Child") := ⟨rfl, trivial, by simp [PathSegment.IsProperty, PathSegment.IsSource]⟩
  exact ((admits_iff_isResolved he (by decide) (by decide)).right _ _ _ hs).mpr (.inr (by decide))

-- The path ends on a type with the property, but the parser looks it up in the type before the cast.
theorem not_admits_property_of_cast :
    EndsOn derived [.source "Items", .property "Child", .cast "Derived"]
        ⟨"Derived", .entity, some "Base", [.plain "Extra" "Int"]⟩ ∧
      (Target.ofPath derived [.source "Items", .property "Child", .cast "Derived", .property "Extra"]).IsResolved ∧
      ¬Admits derived [.source "Items", .property "Child", .cast "Derived"] ["Extra"] := by
  refine ⟨⟨_, rfl, rfl⟩, by decide, ?_⟩
  rintro ⟨clause, hc⟩
  have he : (ClauseParser.standard (Context.ofRoute (some ⟨derived, [.source "Items", .property "Child",
      .cast "Derived"]⟩)).binding?).parse ("select(" ++ PropertyPath.text ["Extra"] ++ ")") =
        .error (.clauseSyntax ⟨7, .unknownProperty "Extra" "Base"⟩) := by cbv
  cases he.symm.trans hc

end ResourcePath
end RowPipeline
