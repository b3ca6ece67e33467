import RowPipeline.Proofs.Model.Walking

namespace RowPipeline

namespace PathSegment

-- Keys, counts and values leave the walk where it is.
def isTransparent : PathSegment → Bool
  | key _ | count | value => true
  | source _ | property _ | navigation _ | cast _ => false

end PathSegment

namespace Model

-- The structured type that the properties lead to, one after the other.
def typeAfter? (model : Model) (ty : StructuredType) (names : List String) : Option StructuredType :=
  names.foldlM (fun ty name => (model.property? ty name).bind model.propertyType?) ty

theorem typeAfter?_concat {model : Model} {ty owner : StructuredType} {names : List String} {name : String}
    (h : model.typeAfter? ty names = some owner) :
    model.typeAfter? ty (names ++ [name]) = (model.property? owner name).bind model.propertyType? := by
  rw [typeAfter?] at h
  simp [typeAfter?, List.foldlM_append, h]

end Model

namespace Target

variable {model : Model} {path : ResourcePath} {walk next : Walk} {ty : StructuredType} {name : String}
  {names : List String}

theorem Walk.step_of_isTransparent {segment : PathSegment} (h : segment.isTransparent) :
    walk.step model segment = some walk := by
  cases segment with
  | key | count | value => rfl
  | source | property | navigation | cast => cases h

theorem foldlM_filter_isTransparent (path : ResourcePath) (walk : Walk) :
    (path.filter (!·.isTransparent)).foldlM (Walk.step model) walk = path.foldlM (Walk.step model) walk := by
  induction path generalizing walk with
  | nil => rfl
  | cons segment path ih =>
    by_cases ht : segment.isTransparent
    case pos =>
      rw [List.filter_cons_of_neg (by simp [ht]), ih, List.foldlM_cons, Walk.step_of_isTransparent ht]
      rfl
    case neg =>
      rw [List.filter_cons_of_pos (by simp [ht]), List.foldlM_cons, List.foldlM_cons]
      exact congrArg _ (funext ih)

-- Wherever they stand, keys, counts and values do not change the target.
theorem ofPath_filter_isTransparent (path : ResourcePath) :
    ofPath model (path.filter (!·.isTransparent)) = ofPath model path := by
  rw [ofPath, foldlM_filter_isTransparent, ofPath]

theorem current_of_foldlM_property (ht : walk.current = some ty)
    (h : (names.map PathSegment.property).foldlM (Walk.step model) walk = some next) :
    next.current = model.typeAfter? ty names := by
  induction names using List.reverseRecOn generalizing next with
  | nil => cases h; exact ht
  | append_singleton names name ih =>
    rw [List.map_append, List.foldlM_append, Option.bind_eq_bind, Option.bind_eq_some_iff] at h
    obtain ⟨before, hb, h⟩ := h
    have hs : before.step model (.property name) = some next := by simpa using h
    obtain ⟨owner, property, ho, hp, -, rfl⟩ := Walk.follow_eq_some.mp hs
    rw [Model.typeAfter?_concat ((ih hb).symm.trans ho), hp]
    rfl

-- The last property of a chain is one of the type that those before it lead to.
theorem exists_of_foldlM_property (ht : walk.current = some ty)
    (h : ((names ++ [name]).map PathSegment.property).foldlM (Walk.step model) walk = some next) :
    ∃ owner property, model.typeAfter? ty names = some owner ∧ model.property? owner name = some property ∧
      next.target = ⟨some property, some owner, some property.name⟩ := by
  rw [List.map_append, List.foldlM_append, Option.bind_eq_bind, Option.bind_eq_some_iff] at h
  obtain ⟨before, hb, h⟩ := h
  have hs : before.step model (.property name) = some next := by simpa using h
  obtain ⟨owner, property, ho, hp, -, rfl⟩ := Walk.follow_eq_some.mp hs
  exact ⟨owner, property, (current_of_foldlM_property ht hb).symm.trans ho, hp, rfl⟩

-- A source leads to its type, if the model has this.
theorem reaches_source {source : NavigationSource} (hs : model.source? name = some source) :
    Reaches model [.source name] walk ↔ ∃ ty, model.type? source.entityType = some ty ∧
      ⟨some ty, some source.name, ⟨none, some ty, some source.name⟩⟩ = walk := by
  simp [Reaches, Walk.step, Walk.enter_eq_some, Walk.start, hs]

-- Of several sources of one name, the one that is found by its name starts the path.
theorem checkPath_iff_isResolved {source : NavigationSource} (hs : model.source? name = some source) (hn : names ≠ [])
    (hp : path.filter (!·.isTransparent) = .source name :: names.map .property) :
    (Binding.checkPath ⟨model, source.entityType⟩ names = .ok () ↔ (ofPath model path).IsResolved) ∧
    ((ofPath model path).IsResolved → ∃ ty owner property, model.type? source.entityType = some ty ∧
      model.typeAfter? ty names.dropLast = some owner ∧ model.property? owner (names.getLast hn) = some property ∧
      ofPath model path = ⟨some property, some owner, some property.name⟩) := by
  rw [← ofPath_filter_isTransparent, hp, ← List.singleton_append]
  constructor
  case left =>
    cases ht : model.type? source.entityType with
    | none =>
      have hc : Binding.checkPath ⟨model, source.entityType⟩ names ≠ .ok () := by
        obtain ⟨first, rest, rfl⟩ := List.exists_cons_of_ne_nil hn
        simp [Binding.checkPath, ht, Binding.checkPath.go]
      refine iff_of_false hc fun hr => ?_
      obtain ⟨walk, hw, -⟩ := isResolved_ofPath_iff.mp hr
      obtain ⟨first, hf, -⟩ := reaches_append.mp hw
      obtain ⟨ty, hty, -⟩ := (reaches_source hs).mp hf
      cases ht.symm.trans hty
    | some ty =>
      rw [isResolved_append_iff ((reaches_source hs).mpr ⟨ty, ht, rfl⟩) rfl hn, Model.name_of_type? ht]
  case right =>
    intro hr
    obtain ⟨walk, hw, -⟩ := isResolved_ofPath_iff.mp hr
    obtain ⟨first, hf, hrest⟩ := reaches_append.mp hw
    obtain ⟨ty, ht, rfl⟩ := (reaches_source hs).mp hf
    rw [← List.dropLast_concat_getLast hn] at hrest
    obtain ⟨owner, property, ho, hproperty, htarget⟩ := exists_of_foldlM_property rfl hrest
    exact ⟨ty, owner, property, ht, ho, hproperty, (ofPath_of_reaches hw).trans htarget⟩

-- Leaves are nodes with the properties of all nodes, and every node has a parent.
def nodes : Model :=
  Model.empty
    |>.addType ⟨"Leaf", .entity, some "Node", []⟩
    |>.addType ⟨"Node", .entity, none, [.navigable "Parent" "Node" false, .plain "Label" "Text"]⟩
    |>.addSource ⟨"Leaves", "Leaf", false⟩

theorem checkPath_iff_isResolved_inherited :
    let names := ["Parent", "Parent", "Label"]
    let path := [.count, .source "Leaves", .key "1", .property "Parent", .value, .property "Parent",
      .property "Label", .key "2"]
    nodes.source? "Leaves" = some ⟨"Leaves", "Leaf", false⟩ ∧
    path.filter (!·.isTransparent) = .source "Leaves" :: names.map .property ∧
    Binding.checkPath ⟨nodes, "Leaf"⟩ names = .ok () ∧
    (ofPath nodes path).property = some (.plain "Label" "Text") := by
  intro names path
  have hs : nodes.source? "Leaves" = some ⟨"Leaves", "Leaf", false⟩ := rfl
  have hp : path.filter (!·.isTransparent) = .source "Leaves" :: names.map .property := rfl
  have hc : Binding.checkPath ⟨nodes, "Leaf"⟩ names = .ok () := rfl
  have ⟨hi, ht⟩ := checkPath_iff_isResolved hs (List.cons_ne_nil _ _) hp
  obtain ⟨ty, owner, property, hty, howner, hproperty, he⟩ := ht (hi.mp hc)
  cases hty
  cases howner
  exact ⟨hs, hp, hc, he ▸ hproperty.symm⟩

end Target
end RowPipeline
