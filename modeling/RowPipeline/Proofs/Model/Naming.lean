import RowPipeline.Proofs.Model.Walking

namespace RowPipeline

namespace ResourcePath

-- The types that the path casts to, in their order.
def casts (path : ResourcePath) : List String :=
  path.filterMap fun
    | .cast name => some name
    | _ => none

-- There are casts, but no source and no property that they could be casts of.
structure CastsAlone (path : ResourcePath) : Prop where
  casts : path.casts ≠ []
  alone : ∀ segment ∈ path, ¬segment.IsProperty ∧ ¬segment.IsSource

theorem casts_concat_cast (path : ResourcePath) (name : String) :
    ResourcePath.casts (path ++ [.cast name]) = path.casts ++ [name] := by
  simp [ResourcePath.casts]

theorem casts_concat_of_not_isCast {path : ResourcePath} {segment : PathSegment} (h : ¬segment.IsCast) :
    ResourcePath.casts (path ++ [segment]) = path.casts := by
  cases segment with
  | cast => exact absurd trivial h
  | source | key | property | navigation | count | value => simp [ResourcePath.casts]

theorem segment_first (name : List Char) :
    segment true name = .count ∨ segment true name = .value ∨ segment true name = .source (String.ofList name) := by
  by_cases hc : String.ofList name = "$count"
  case pos => exact .inl (if_pos hc)
  case neg =>
    by_cases hv : String.ofList name = "$value"
    case pos => exact .inr (.inl ((if_neg hc).trans (if_pos hv)))
    case neg => exact .inr (.inr ((if_neg hc).trans (if_neg hv)))

-- The first name of a text is that of a source, unless it is `$count` or `$value`.
theorem head?_parse_of_castsAlone {s : String} (h : (parse s).CastsAlone) :
    (parse s).head? = some .count ∨ (parse s).head? = some .value := by
  rw [parse] at h ⊢
  cases hp : parts s.toList with
  | nil =>
    rw [hp] at h
    exact absurd rfl h.casts
  | cons part rest =>
    rw [hp] at h
    have hh : (ofParts (part :: rest)).head? = some (segment true (splitKey part).1) := rfl
    rw [hh]
    rcases segment_first (splitKey part).1 with hs | hs | hs
    case inl => exact .inl (congrArg some hs)
    case inr.inl => exact .inr (congrArg some hs)
    case inr.inr => exact absurd (hs ▸ trivial) (h.alone _ (List.mem_of_head? hh)).right

end ResourcePath

namespace Target

variable {model : Model} {path : ResourcePath} {walk next : Walk} {segment : PathSegment}

def IsWhole (target : Target) : Prop :=
  target = absent ∨ target.name.isSome ∧ target.owner.isSome

namespace Walk

-- A name has been reached. It stays, and so does some owner.
structure Named (walk : Walk) : Prop where
  base  : walk.base.isSome
  name  : walk.target.name.isSome
  owner : walk.target.owner.isSome

theorem named_of_step (hs : segment.IsProperty ∨ segment.IsSource) (h : walk.step model segment = some next) :
    next.Named := by
  cases segment with
  | source name =>
    obtain ⟨-, source, ty, -, -, rfl⟩ := enter_eq_some.mp h
    exact ⟨rfl, rfl, rfl⟩
  | property name | navigation name =>
    obtain ⟨owner, property, -, -, -, rfl⟩ := follow_eq_some.mp h
    exact ⟨rfl, rfl, rfl⟩
  | key | cast | count | value => exact (hs.elim id id).elim

theorem Named.step (hn : walk.Named) (h : walk.step model segment = some next) : next.Named := by
  cases segment with
  | source | property | navigation => exact named_of_step (by simp [PathSegment.IsProperty, PathSegment.IsSource]) h
  | cast name =>
    obtain ⟨ty, -, rfl⟩ := cast_eq_some.mp h
    exact ⟨hn.base, by simp [hn.base], rfl⟩
  | key | count | value => cases h; exact hn

-- Casts keep the property and the base, and the last of their types counts.
def recast (model : Model) (walk : Walk) (casts : List String) : Walk :=
  match casts.getLast? with
  | none => walk
  | some name =>
    ⟨model.type? name, walk.base, ⟨walk.target.property, model.type? name, walk.base.map (· ++ "/" ++ name)⟩⟩

theorem recast_start (casts : List String) : recast model start casts =
    ⟨casts.getLast?.bind model.type?, none, ⟨none, casts.getLast?.bind model.type?, none⟩⟩ := by
  rw [recast]
  cases casts.getLast? with
  | none => rfl
  | some name => rfl

theorem base_recast (casts : List String) : (walk.recast model casts).base = walk.base := by
  rw [recast]
  cases casts.getLast? with
  | none => rfl
  | some name => rfl

theorem property_recast (casts : List String) : (walk.recast model casts).target.property = walk.target.property := by
  rw [recast]
  cases casts.getLast? with
  | none => rfl
  | some name => rfl

theorem recast_concat (casts : List String) (name : String) : walk.recast model (casts ++ [name]) =
    ⟨model.type? name, walk.base, ⟨walk.target.property, model.type? name, walk.base.map (· ++ "/" ++ name)⟩⟩ := by
  rw [recast, List.getLast?_concat]

end Walk

theorem Reaches.named (h : Reaches model path walk) (hs : ∃ segment ∈ path, segment.IsProperty ∨ segment.IsSource) :
    walk.Named := by
  induction path using List.reverseRecOn generalizing walk with
  | nil => simp at hs
  | append_singleton path last ih =>
    obtain ⟨before, hb, hl⟩ := reaches_concat.mp h
    obtain ⟨segment, hm, hs⟩ := hs
    rcases List.mem_append.mp hm with hm | hm
    case inl => exact (ih hb ⟨segment, hm, hs⟩).step hl
    case inr =>
      cases List.mem_singleton.mp hm
      exact Walk.named_of_step hs hl

-- Where only casts come, the walk goes on if the model has all their types.
theorem foldlM_iff_of_alone (hs : ∀ segment ∈ path, ¬segment.IsProperty ∧ ¬segment.IsSource) :
    path.foldlM (Walk.step model) walk = some next ↔
      (∀ name ∈ path.casts, (model.type? name).isSome) ∧ walk.recast model path.casts = next := by
  induction path using List.reverseRecOn generalizing next with
  | nil => simp [ResourcePath.casts, Walk.recast]
  | append_singleton path last ih =>
    obtain ⟨hs, hl⟩ := List.forall_mem_append.mp hs
    have hstep : (path ++ [last]).foldlM (Walk.step model) walk = some next ↔
        ∃ before, path.foldlM (Walk.step model) walk = some before ∧ before.step model last = some next := by
      simp [List.foldlM_append, Option.bind_eq_some_iff]
    simp only [hstep, ih hs]
    cases last with
    | source | property | navigation => simp [PathSegment.IsProperty, PathSegment.IsSource] at hl
    | cast name =>
      have hc : (walk.recast model (ResourcePath.casts path)).step model (.cast name) = some next ↔
          (model.type? name).isSome ∧ walk.recast model (ResourcePath.casts path ++ [name]) = next := by
        rw [Walk.recast_concat]
        refine Walk.cast_eq_some.trans ?_
        rw [Walk.base_recast, Walk.property_recast]
        cases model.type? name with
        | none => simp
        | some ty => simp
      rw [ResourcePath.casts_concat_cast, List.forall_mem_append, List.forall_mem_singleton, and_assoc]
      constructor
      case mp =>
        rintro ⟨_, ⟨ha, rfl⟩, hn⟩
        exact ⟨ha, hc.mp hn⟩
      case mpr =>
        rintro ⟨ha, hn⟩
        exact ⟨_, ⟨ha, rfl⟩, hc.mpr hn⟩
    | key | count | value =>
      rw [ResourcePath.casts_concat_of_not_isCast id]
      simp [Walk.step]

-- Casts alone lead to the last of their types, if the model has them all.
theorem reaches_iff_of_alone (hs : ∀ segment ∈ path, ¬segment.IsProperty ∧ ¬segment.IsSource) :
    Reaches model path walk ↔ (∀ name ∈ path.casts, (model.type? name).isSome) ∧
      ⟨path.casts.getLast?.bind model.type?, none, ⟨none, path.casts.getLast?.bind model.type?, none⟩⟩ = walk := by
  rw [Reaches, foldlM_iff_of_alone hs, Walk.recast_start]

theorem ofPath_of_alone (hs : ∀ segment ∈ path, ¬segment.IsProperty ∧ ¬segment.IsSource)
    (hk : ∀ name ∈ path.casts, (model.type? name).isSome) :
    ofPath model path = ⟨none, path.casts.getLast?.bind model.type?, none⟩ :=
  ofPath_of_reaches ((reaches_iff_of_alone hs).mpr ⟨hk, rfl⟩)

theorem isWhole_of_named (hs : ∃ segment ∈ path, segment.IsProperty ∨ segment.IsSource) :
    (ofPath model path).IsWhole := by
  by_cases hr : ∃ walk, Reaches model path walk
  case pos =>
    obtain ⟨walk, hw⟩ := hr
    rw [ofPath_of_reaches hw]
    exact .inr ⟨(hw.named hs).name, (hw.named hs).owner⟩
  case neg => exact .inl (ofPath_of_not_reaches fun walk hw => hr ⟨walk, hw⟩)

theorem isWhole_iff_of_alone (hs : ∀ segment ∈ path, ¬segment.IsProperty ∧ ¬segment.IsSource) :
    (ofPath model path).IsWhole ↔ (∀ name ∈ path.casts, (model.type? name).isSome) → path.casts = [] := by
  by_cases hk : ∀ name ∈ path.casts, (model.type? name).isSome
  case pos =>
    rw [ofPath_of_alone hs hk, imp_iff_right hk]
    constructor
    case mp =>
      rintro (he | ⟨hn, -⟩)
      case inl =>
        by_contra hc
        have ho : path.casts.getLast?.bind model.type? = none := congrArg Target.owner he
        rw [List.getLast?_eq_some_getLast hc, Option.bind_some] at ho
        exact absurd (hk _ (List.getLast_mem hc)) (by simp [ho])
      case inr => cases hn
    case mpr =>
      intro hc
      rw [hc]
      exact .inl rfl
  case neg =>
    refine iff_of_true (.inl (ofPath_of_not_reaches fun walk hw => ?_)) fun h => absurd h hk
    exact hk ((reaches_iff_of_alone hs).mp hw).left

-- A target is whole, unless its path is one of casts alone to types of the model: then the target has an owner but no
-- name. A path that is read from a text can only be such a one if it starts with `$count` or `$value`.
theorem ofPath_isWhole_iff (model : Model) (path : ResourcePath) :
    ((ofPath model path).IsWhole ↔ ¬(path.CastsAlone ∧ ∀ name ∈ path.casts, (model.type? name).isSome)) ∧
    (path.CastsAlone → (∀ name ∈ path.casts, (model.type? name).isSome) →
      ofPath model path = ⟨none, path.casts.getLast?.bind model.type?, none⟩) ∧
    ∀ s, path = ResourcePath.parse s → path.CastsAlone → path.head? = some .count ∨ path.head? = some .value := by
  refine ⟨?_, fun ha hk => ofPath_of_alone ha.alone hk, ?_⟩
  case refine_1 =>
    by_cases hs : ∃ segment ∈ path, segment.IsProperty ∨ segment.IsSource
    case pos =>
      refine iff_of_true (isWhole_of_named hs) ?_
      rintro ⟨ha, -⟩
      obtain ⟨segment, hm, hs⟩ := hs
      exact hs.elim (ha.alone segment hm).left (ha.alone segment hm).right
    case neg =>
      have hs : ∀ segment ∈ path, ¬segment.IsProperty ∧ ¬segment.IsSource := by simpa using hs
      rw [isWhole_iff_of_alone hs]
      constructor
      case mp =>
        rintro h ⟨ha, hk⟩
        exact ha.casts (h hk)
      case mpr => exact fun h hk => by_contra fun hc => h ⟨⟨hc, hs⟩, hk⟩
  case refine_2 =>
    rintro s rfl ha
    exact ResourcePath.head?_parse_of_castsAlone ha

-- There is nothing that could be cast, and yet there is an owner.
theorem not_ofPath_isWhole :
    let ty : StructuredType := ⟨"N.T", .entity, none, []⟩
    let model := Model.empty.addType ty
    ofPath model [.cast "N.T"] = ⟨none, some ty, none⟩ ∧
    ofPath model (ResourcePath.parse "$count/N.T") = ⟨none, some ty, none⟩ ∧
    ¬IsResolved ⟨none, some ty, none⟩ ∧
    ¬∀ (model : Model) (path : ResourcePath), (ofPath model path).IsWhole := by
  intro ty model
  have hc : ofPath model [.cast "N.T"] = ⟨none, some ty, none⟩ := rfl
  have hp : ResourcePath.parse "$count/N.T" = [.count, .cast "N.T"] := by decide
  refine ⟨hc, hp ▸ rfl, nofun, fun h => ?_⟩
  rcases hc ▸ h model [.cast "N.T"] with he | ⟨hn, -⟩
  case inl => cases he
  case inr => cases hn

end Target
end RowPipeline
