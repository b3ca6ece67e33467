import RowPipeline.Proofs.Model.Naming
import RowPipeline.Proofs.Model.PropertyChains

namespace RowPipeline

namespace Target

variable {model : Model} {front rest : ResourcePath} {walk walk' next : Walk} {segment step : PathSegment}
  {property : Property}

-- A step only looks at the type that has been reached.
theorem Walk.step_congr (h : walk.current = walk'.current) (hs : segment.IsProperty ∨ segment.IsSource) :
    walk.step model segment = walk'.step model segment := by
  cases segment with
  | source name => simp only [Walk.step, Walk.enter, h]
  | property name | navigation name => simp only [Walk.step, Walk.follow, h]
  | key | cast | count | value => exact (hs.elim id id).elim

-- What has been named before is forgotten at the next property or source.
theorem foldlM_congr (h : walk.current = walk'.current)
    (hs : ∃ segment ∈ rest, segment.IsProperty ∨ segment.IsSource) :
    rest.foldlM (Walk.step model) walk = rest.foldlM (Walk.step model) walk' := by
  induction rest generalizing walk walk' with
  | nil => simp at hs
  | cons segment rest ih =>
    rw [List.foldlM_cons, List.foldlM_cons]
    by_cases hf : segment.IsProperty ∨ segment.IsSource
    case pos => rw [Walk.step_congr h hf]
    case neg =>
      have hr : ∃ segment ∈ rest, segment.IsProperty ∨ segment.IsSource := by simpa [hf] using hs
      cases segment with
      | source => exact absurd (.inr trivial) hf
      | property | navigation => exact absurd (.inl trivial) hf
      | cast name =>
        simp only [Walk.step, Walk.cast]
        cases model.type? name with
        | none => rfl
        | some ty => exact ih rfl hr
      | key | count | value => exact ih h hr

theorem ofPath_eq (model : Model) (path : ResourcePath) :
    ofPath model path = ((path.foldlM (Walk.step model) Walk.start).map Walk.target).getD absent := by
  rw [ofPath]
  cases path.foldlM (Walk.step model) Walk.start with
  | none => rfl
  | some last => rfl

-- What the walk comes to if it goes on along the rest.
theorem ofPath_append (h : Reaches model front walk) :
    ofPath model (front ++ rest) = ((rest.foldlM (Walk.step model) walk).map Walk.target).getD absent := by
  rw [ofPath_eq, List.foldlM_append, show front.foldlM (Walk.step model) Walk.start = some walk from h,
    Option.bind_eq_bind, Option.bind_some]

-- Where no type is left, the walk goes on as from the start.
theorem ofPath_anew (h : Reaches model front walk) (hc : walk.current = none)
    (hs : ∃ segment ∈ rest, segment.IsProperty ∨ segment.IsSource) :
    ofPath model (front ++ rest) = ofPath model rest := by
  have hc : walk.current = Walk.start.current := hc
  rw [ofPath_append h, foldlM_congr hc hs, ofPath_eq model rest]

theorem ofPath_recast (h : Reaches model front walk) (hs : ∀ segment ∈ rest, ¬segment.IsProperty ∧ ¬segment.IsSource)
    (hk : ∀ name ∈ rest.casts, (model.type? name).isSome) :
    ofPath model (front ++ rest) = (walk.recast model rest.casts).target := by
  rw [ofPath_append h, (foldlM_iff_of_alone hs).mpr ⟨hk, rfl⟩]
  rfl

theorem casts_ne_nil (hr : ∃ segment ∈ rest, ¬segment.isTransparent)
    (hs : ∀ segment ∈ rest, ¬segment.IsProperty ∧ ¬segment.IsSource) : rest.casts ≠ [] := by
  obtain ⟨segment, hm, ht⟩ := hr
  cases segment with
  | cast name => exact List.ne_nil_of_mem (List.mem_filterMap.mpr ⟨.cast name, hm, rfl⟩)
  | source => exact absurd trivial (hs _ hm).right
  | property | navigation => exact absurd trivial (hs _ hm).left
  | key | count | value => exact absurd rfl ht

-- Wherever casts alone come, the target is absent only if the model lacks one of their types.
theorem ofPath_eq_absent_iff_of_alone (h : Reaches model front walk) (hr : ∃ segment ∈ rest, ¬segment.isTransparent)
    (hs : ∀ segment ∈ rest, ¬segment.IsProperty ∧ ¬segment.IsSource) :
    ofPath model (front ++ rest) = absent ↔ ¬∀ name ∈ rest.casts, (model.type? name).isSome := by
  by_cases hk : ∀ name ∈ rest.casts, (model.type? name).isSome
  case pos =>
    obtain ⟨name, hl⟩ := Option.ne_none_iff_exists'.mp (List.getLast?_eq_none_iff.not.mpr (casts_ne_nil hr hs))
    have ht : (model.type? name).isSome := hk name (List.mem_of_getLast? hl)
    rw [ofPath_recast h hs hk, Walk.recast, hl]
    refine iff_of_false (fun he => ?_) (not_not_intro hk)
    rw [show model.type? name = none from congrArg Target.owner he] at ht
    cases ht
  case neg =>
    have hn : rest.foldlM (Walk.step model) walk = none :=
      Option.eq_none_iff_forall_ne_some.mpr fun _ hw => hk ((foldlM_iff_of_alone hs).mp hw).left
    rw [ofPath_append h, hn]
    exact iff_of_true rfl hk

-- From the start, no property can be looked up.
theorem ofPath_eq_absent_of_property (h : rest.find? (!·.isTransparent) = some segment) (hs : segment.IsProperty) :
    ofPath model rest = absent := by
  obtain ⟨more, hm⟩ : ∃ more, rest.filter (!·.isTransparent) = segment :: more := by
    rw [← List.head?_filter] at h
    exact List.head?_eq_some_iff.mp h
  rw [← ofPath_filter_isTransparent, hm]
  cases segment with
  | property | navigation => rfl
  | source | key | cast | count | value => cases hs

-- At a primitive property no type is left, and the target is the property.
theorem eq_of_primitive (hs : step.IsProperty) (hw : Reaches model (front ++ [step]) walk)
    (hp : walk.target.property = some property) (ht : model.propertyType? property = none) :
    ∃ owner, walk = ⟨none, some property.name, ⟨some property, some owner, some property.name⟩⟩ := by
  obtain ⟨before, -, hstep⟩ := reaches_concat.mp hw
  cases step with
  | property name | navigation name =>
    obtain ⟨owner, _, -, -, -, rfl⟩ := Walk.follow_eq_some.mp hstep
    cases hp
    exact ⟨owner, by rw [ht]⟩
  | source | key | cast | count | value => cases hs

-- After a primitive property the path goes on as if it started there: with a property it does not fit the model, but
-- with a source or a cast it may. Casts alone are casts of the primitive property.
theorem ofPath_after_primitive (hs : step.IsProperty) (hw : Reaches model (front ++ [step]) walk)
    (hp : walk.target.property = some property) (ht : model.propertyType? property = none)
    (hr : ∃ segment ∈ rest, ¬segment.isTransparent) :
    (∀ segment, rest.find? (!·.isTransparent) = some segment → segment.IsProperty →
      ofPath model (front ++ step :: rest) = absent) ∧
    (ofPath model (front ++ step :: rest) = absent ↔ ofPath model rest = absent) ∧
    ((∃ segment ∈ rest, segment.IsProperty ∨ segment.IsSource) →
      ofPath model (front ++ step :: rest) = ofPath model rest) ∧
    ((∀ segment ∈ rest, ¬segment.IsProperty ∧ ¬segment.IsSource) → (∀ name ∈ rest.casts, (model.type? name).isSome) →
      ofPath model (front ++ step :: rest) =
        ⟨some property, rest.casts.getLast?.bind model.type?,
          rest.casts.getLast?.map (property.name ++ "/" ++ ·)⟩) := by
  obtain ⟨owner, rfl⟩ := eq_of_primitive hs hw hp ht
  rw [List.append_cons]
  refine ⟨fun segment hf hn => ?_, ?_, ofPath_anew hw rfl, fun ha hk => ?_⟩
  case refine_1 =>
    rw [ofPath_anew hw rfl ⟨segment, List.mem_of_find?_eq_some hf, .inl hn⟩]
    exact ofPath_eq_absent_of_property hf hn
  case refine_2 =>
    by_cases hn : ∃ segment ∈ rest, segment.IsProperty ∨ segment.IsSource
    case pos => rw [ofPath_anew hw rfl hn]
    case neg =>
      have ha : ∀ segment ∈ rest, ¬segment.IsProperty ∧ ¬segment.IsSource := by simpa using hn
      have hstart : Reaches model [] Walk.start := rfl
      exact (ofPath_eq_absent_iff_of_alone hw hr ha).trans (ofPath_eq_absent_iff_of_alone hstart hr ha).symm
  case refine_3 =>
    obtain ⟨name, hl⟩ := Option.ne_none_iff_exists'.mp (List.getLast?_eq_none_iff.not.mpr (casts_ne_nil hr ha))
    rw [ofPath_recast hw ha hk, Walk.recast, hl]
    rfl

-- A type with a primitive property, and a type derived from it.
def books : Model :=
  Model.empty
    |>.addType ⟨"Item", .entity, none, [.plain "Name" "Text"]⟩
    |>.addType ⟨"Shop.Book", .entity, some "Item", []⟩
    |>.addSource ⟨"Items", "Item", false⟩

theorem ofPath_after_primitive_cast :
    ofPath books [.source "Items", .property "Name", .key "1", .cast "Shop.Book"] =
      ⟨some (.plain "Name" "Text"), some ⟨"Shop.Book", .entity, some "Item", []⟩, some "Name/Shop.Book"⟩ := by
  have hs : (PathSegment.property "Name").IsProperty := trivial
  have hw : Reaches books ([.source "Items"] ++ [.property "Name"]) _ := rfl
  have hr : ∃ segment ∈ [PathSegment.key "1", .cast "Shop.Book"], ¬segment.isTransparent :=
    ⟨.cast "Shop.Book", by decide, by decide⟩
  have ha : ∀ segment ∈ [PathSegment.key "1", .cast "Shop.Book"], ¬segment.IsProperty ∧ ¬segment.IsSource := by
    simp [PathSegment.IsProperty, PathSegment.IsSource]
  obtain ⟨-, -, -, h⟩ := ofPath_after_primitive hs hw rfl rfl hr
  exact h ha (by decide)

-- Nothing can be cast to a type or started from a source where a text has been reached, and yet there is a target.
theorem not_ofPath_after_primitive :
    let ty : StructuredType := ⟨"Item", .entity, none, [.plain "Name" "Text"]⟩
    ofPath books (ResourcePath.parse "Items(1)/Name/Shop.Book") =
      ⟨some (.plain "Name" "Text"), some ⟨"Shop.Book", .entity, some "Item", []⟩, some "Name/Shop.Book"⟩ ∧
    ofPath books [.source "Items", .property "Name", .source "Items"] = ⟨none, some ty, some "Items"⟩ ∧
    ¬∀ (model : Model) (front rest : ResourcePath) (step : PathSegment) (walk : Walk) (property : Property),
      step.IsProperty → Reaches model (front ++ [step]) walk → walk.target.property = some property →
        model.propertyType? property = none → (∃ segment ∈ rest, ¬segment.isTransparent) →
          ofPath model (front ++ step :: rest) = absent := by
  intro ty
  have hs : ofPath books [.source "Items", .property "Name", .source "Items"] = ⟨none, some ty, some "Items"⟩ := rfl
  have hp : ResourcePath.parse "Items(1)/Name/Shop.Book" =
      [.source "Items", .key "1", .property "Name", .cast "Shop.Book"] := by decide
  refine ⟨hp ▸ rfl, hs, fun h => ?_⟩
  have hw : Reaches books ([.source "Items"] ++ [.property "Name"]) _ := rfl
  have ha := h _ [.source "Items"] [.source "Items"] (.property "Name") _ _ trivial hw rfl rfl
    ⟨_, List.mem_singleton_self _, nofun⟩
  cases hs.symm.trans ha

end Target
end RowPipeline
