import RowPipeline.Model.Binding
import RowPipeline.Model.ResourcePath

namespace RowPipeline

-- `owner` is the type that has the property, or else the type of the source or cast.
structure Target where
  property : Option Property
  owner    : Option StructuredType
  name     : Option String
deriving DecidableEq, Repr

namespace Target

def absent : Target where
  property := none
  owner    := none
  name     := none

def IsResolved (target : Target) : Prop :=
  target.name.isSome

instance (target : Target) : Decidable target.IsResolved :=
  inferInstanceAs (Decidable (_ = true))

-- `current` is the type whose properties come next and `base` the last name that is not of a cast.
structure Walk where
  current : Option StructuredType
  base    : Option String
  target  : Target

namespace Walk

def start : Walk where
  current := none
  base    := none
  target  := absent

-- A source only stands where no type has been reached.
def enter (model : Model) (walk : Walk) (name : String) : Option Walk :=
  if walk.current.isSome then none
  else do
    let source ← model.source? name
    let ty ← model.type? source.entityType
    return {
      current := some ty
      base    := some source.name
      target  := ⟨none, some ty, some source.name⟩
    }

-- After a primitive property no type is left to walk on from.
def follow (model : Model) (walk : Walk) (name : String) (navigationOnly : Bool) : Option Walk := do
  let owner ← walk.current
  let property ← model.property? owner name
  if navigationOnly && !property.navigation then none
  else
    return {
      current := model.propertyType? property
      base    := some property.name
      target  := ⟨some property, some owner, some property.name⟩
    }

-- A cast keeps the property and shows in the name.
def cast (model : Model) (walk : Walk) (name : String) : Option Walk := do
  let ty ← model.type? name
  return {
    current := some ty
    base    := walk.base
    target  := ⟨walk.target.property, some ty, walk.base.map (· ++ "/" ++ name)⟩
  }

def step (model : Model) (walk : Walk) : PathSegment → Option Walk
  | .source name => walk.enter model name
  | .property name => walk.follow model name false
  | .navigation name => walk.follow model name true
  | .cast name => walk.cast model name
  | .key _ | .count | .value => some walk

end Walk

-- A path that does not fit the model has the absent target.
def ofPath (model : Model) (path : ResourcePath) : Target :=
  match path.foldlM (Walk.step model) Walk.start with
  | some walk => walk.target
  | none => absent

-- The type of what the target holds.
def elementType? (model : Model) (target : Target) : Option StructuredType :=
  match target.property with
  | some property => model.propertyType? property
  | none => target.owner

def binding? (model : Model) (target : Target) : Option Binding :=
  (target.elementType? model).map fun ty => ⟨model, ty.name⟩

end Target
end RowPipeline
