import Mathlib.Data.List.Nodup
import Mathlib.Data.List.Perm.Subperm
import RowPipeline.Model.Basic

namespace RowPipeline

namespace StructuredType

-- Of several properties of one name the first counts.
structure Declares (ty : StructuredType) (name : String) (property : Property) : Prop where
  named : property.name = name
  first : ∃ before after, ty.properties = before ++ property :: after ∧ ∀ other ∈ before, other.name ≠ name

def Lacks (ty : StructuredType) (name : String) : Prop :=
  ∀ property ∈ ty.properties, property.name ≠ name

variable {ty : StructuredType} {name : String} {property : Property}

theorem property?_eq_some_iff : ty.property? name = some property ↔ ty.Declares name property := by
  simp only [property?, List.find?_eq_some_iff_append, decide_eq_true_eq, Bool.not_eq_true', decide_eq_false_iff_not]
  constructor
  case mp =>
    rintro ⟨hn, hf⟩
    exact ⟨hn, hf⟩
  case mpr =>
    rintro ⟨hn, hf⟩
    exact ⟨hn, hf⟩

theorem property?_eq_none_iff : ty.property? name = none ↔ ty.Lacks name := by
  simp [property?, Lacks]

end StructuredType

namespace Model

variable {model : Model} {ty owner : StructuredType} {name : String} {property : Property} {i j place bound : Nat}

-- The type itself, then its base type, then the base type of this, and so on.
def ancestor? (model : Model) (ty : StructuredType) : Nat → Option StructuredType
  | 0 => some ty
  | n + 1 => (model.ancestor? ty n).bind model.base?

-- The property that the type at a place of the chain has itself.
def declaredAt? (model : Model) (ty : StructuredType) (name : String) (place : Nat) : Option Property :=
  (model.ancestor? ty place).bind (·.property? name)

-- The first type on the chain that declares the name, and what it declares.
structure IsNearest (model : Model) (ty : StructuredType) (name : String) (place : Nat) (owner : StructuredType)
    (property : Property) : Prop where
  reached  : model.ancestor? ty place = some owner
  declared : owner.Declares name property
  nearest  : ∀ earlier < place, ∀ nearer ∈ model.ancestor? ty earlier, nearer.Lacks name

theorem declaredAt?_eq_some_iff : model.declaredAt? ty name place = some property ↔
    ∃ owner, model.ancestor? ty place = some owner ∧ owner.Declares name property := by
  simp only [declaredAt?, Option.bind_eq_some_iff, StructuredType.property?_eq_some_iff]

theorem declaredAt?_eq_none_iff : model.declaredAt? ty name place = none ↔
    ∀ owner ∈ model.ancestor? ty place, owner.Lacks name := by
  simp only [declaredAt?, Option.bind_eq_none_iff, StructuredType.property?_eq_none_iff, Option.mem_def]

theorem declaredAt?_of_ancestor? (h : model.ancestor? ty i = model.ancestor? ty j) :
    model.declaredAt? ty name i = model.declaredAt? ty name j := by
  rw [declaredAt?, h, declaredAt?]

-- After the type itself there are types of the model only.
theorem mem_types_of_ancestor? (h : model.ancestor? ty (place + 1) = some owner) : owner ∈ model.types := by
  obtain ⟨before, -, hb⟩ := Option.bind_eq_some_iff.mp h
  obtain ⟨base, -, ht⟩ := Option.bind_eq_some_iff.mp hb
  exact List.mem_of_find?_eq_some ht

theorem ancestor?_add (h : model.ancestor? ty i = model.ancestor? ty j) (n : Nat) :
    model.ancestor? ty (i + n) = model.ancestor? ty (j + n) := by
  induction n with
  | zero => exact h
  | succ n ih => rw [← Nat.add_assoc, ← Nat.add_assoc, ancestor?, ancestor?, ih]

-- A chain that has ended does not go on.
theorem ancestor?_add_of_none (h : model.ancestor? ty i = none) (n : Nat) : model.ancestor? ty (i + n) = none := by
  induction n with
  | zero => exact h
  | succ n ih => rw [← Nat.add_assoc, ancestor?, ih, Option.bind_none]

-- The chain stands at different types until the name is declared: from a type it has been at before, it would come
-- to the one that declares the name a second time, and so would have come to it earlier.
theorem ancestor?_ne_of_nearest (hp : (model.declaredAt? ty name place).isSome)
    (hn : ∀ earlier < place, model.declaredAt? ty name earlier = none) (hij : i < j) (hj : j ≤ place) :
    model.ancestor? ty i ≠ model.ancestor? ty j := by
  intro he
  have ha := ancestor?_add he (place - j)
  rw [Nat.add_sub_cancel' hj] at ha
  have hd : model.declaredAt? ty name place = none := by
    rw [← declaredAt?_of_ancestor? ha]
    exact hn _ (by omega)
  simp [hd] at hp

-- So many different types are on the way as there are in the model, at most.
theorem place_le_of_nearest (hp : (model.declaredAt? ty name place).isSome)
    (hn : ∀ earlier < place, model.declaredAt? ty name earlier = none) : place ≤ model.types.length := by
  have hs : ∀ n ≤ place, model.ancestor? ty n ≠ none := by
    intro n hle ha
    have hend := ancestor?_add_of_none ha (place - n)
    rw [Nat.add_sub_cancel' hle] at hend
    simp [declaredAt?, hend] at hp
  have hd : ((List.range place).map fun n => model.ancestor? ty (n + 1)).Nodup := by
    refine List.Nodup.map_on ?_ List.nodup_range
    intro i hi j hj he
    rw [List.mem_range] at hi hj
    by_contra hne
    rcases Nat.lt_or_gt_of_ne hne with hlt | hlt
    case inl => exact ancestor?_ne_of_nearest hp hn (Nat.succ_lt_succ hlt) hj he
    case inr => exact ancestor?_ne_of_nearest hp hn (Nat.succ_lt_succ hlt) hi he.symm
  have hm : ((List.range place).map fun n => model.ancestor? ty (n + 1)) ⊆ model.types.map some := by
    intro x hx
    obtain ⟨n, hn, rfl⟩ := List.mem_map.mp hx
    obtain ⟨owner, ho⟩ := Option.ne_none_iff_exists'.mp (hs (n + 1) (List.mem_range.mp hn))
    rw [ho]
    exact List.mem_map_of_mem (mem_types_of_ancestor? ho)
  simpa using (List.subperm_of_subset hd hm).length_le

-- The search from a place of the chain finds the nearest within its bound.
theorem go_eq_some_iff (start : Nat) : property?.go model name bound (model.ancestor? ty start) = some property ↔
    ∃ place < bound, model.declaredAt? ty name (start + place) = some property ∧
      ∀ earlier < place, model.declaredAt? ty name (start + earlier) = none := by
  induction bound generalizing start with
  | zero => simp [property?.go]
  | succ bound ih =>
    have hnext : ∀ n, model.declaredAt? ty name (start + (n + 1)) = model.declaredAt? ty name (start + 1 + n) := by
      intro n
      rw [Nat.add_assoc, Nat.add_comm 1]
    simp only [Nat.exists_lt_succ_left, Nat.forall_lt_succ_left, Nat.not_lt_zero, false_imp_iff, forall_const, and_true,
      Nat.add_zero, hnext]
    cases ha : model.ancestor? ty start with
    | none =>
      have hend : ∀ n, model.declaredAt? ty name (start + 1 + n) = none := by
        intro n
        rw [← hnext, declaredAt?, ancestor?_add_of_none ha, Option.bind_none]
      have hd : model.declaredAt? ty name start = none := by rw [declaredAt?, ha, Option.bind_none]
      simp [property?.go, hd, hend]
    | some owner =>
      have hd : model.declaredAt? ty name start = owner.property? name := by rw [declaredAt?, ha, Option.bind_some]
      have hb : model.base? owner = model.ancestor? ty (start + 1) := by rw [ancestor?, ha, Option.bind_some]
      rw [property?.go, hd, hb]
      cases owner.property? name with
      | none => simp [ih]
      | some other => simp

-- Nothing is lost by the bound.
theorem property?_eq_some_iff : model.property? ty name = some property ↔
    ∃ place, model.declaredAt? ty name place = some property ∧
      ∀ earlier < place, model.declaredAt? ty name earlier = none := by
  rw [property?, ← ancestor?, go_eq_some_iff]
  simp only [Nat.zero_add]
  constructor
  case mp =>
    rintro ⟨place, -, hp⟩
    exact ⟨place, hp⟩
  case mpr =>
    rintro ⟨place, hp, hn⟩
    exact ⟨place, Nat.lt_succ_of_le (place_le_of_nearest (by simp [hp]) hn), hp, hn⟩

theorem property?_eq_none_iff : model.property? ty name = none ↔
    ∀ place, model.declaredAt? ty name place = none := by
  constructor
  case mp =>
    intro h place
    induction place using Nat.strongRecOn with
    | ind place ih =>
      cases hp : model.declaredAt? ty name place with
      | none => rfl
      | some property => exact absurd (property?_eq_some_iff.mpr ⟨place, hp, ih⟩) (by simp [h])
  case mpr =>
    intro h
    cases hp : model.property? ty name with
    | none => rfl
    | some property =>
      obtain ⟨place, hd, -⟩ := property?_eq_some_iff.mp hp
      cases (h place).symm.trans hd

-- The type need not be one of the model, and the chain may be a cycle.
theorem property?_isNearest (model : Model) (ty : StructuredType) (name : String) :
    (∀ property, model.property? ty name = some property ↔
      ∃ place owner, model.IsNearest ty name place owner property) ∧
    (model.property? ty name = none ↔ ∀ place, ∀ owner ∈ model.ancestor? ty place, owner.Lacks name) ∧
    ∀ place owner property, model.IsNearest ty name place owner property → place ≤ model.types.length := by
  have hnear : ∀ place property, (∃ owner, model.IsNearest ty name place owner property) ↔
      model.declaredAt? ty name place = some property ∧
        ∀ earlier < place, model.declaredAt? ty name earlier = none := by
    intro place property
    simp only [declaredAt?_eq_some_iff, declaredAt?_eq_none_iff]
    constructor
    case mp =>
      rintro ⟨owner, hr, hd, hn⟩
      exact ⟨⟨owner, hr, hd⟩, hn⟩
    case mpr =>
      rintro ⟨⟨owner, hr, hd⟩, hn⟩
      exact ⟨owner, hr, hd, hn⟩
  refine ⟨fun property => ?_, ?_, fun place owner property h => ?_⟩
  case refine_1 => simp only [property?_eq_some_iff, hnear]
  case refine_2 => simp only [property?_eq_none_iff, declaredAt?_eq_none_iff]
  case refine_3 =>
    obtain ⟨hp, hn⟩ := (hnear place property).mp ⟨owner, h⟩
    exact place_le_of_nearest (by simp [hp]) hn

-- From a type outside the model, the chain may go through all types of the model to the one that declares the name.
example : (Model.empty
    |>.addType ⟨"Middle", .entity, some "Root", []⟩
    |>.addType ⟨"Root", .entity, some "Middle", [.plain "Id" "Int"]⟩).property?
      ⟨"Outside", .entity, some "Middle", []⟩ "Id" = some (.plain "Id" "Int") := rfl

end Model
end RowPipeline
