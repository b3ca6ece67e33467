namespace RowPipeline

inductive TypeKind where
  | entity
  | complex
deriving DecidableEq, Repr

-- `typeName` names a structured type of the model, or else a primitive type.
structure Property where
  name       : String
  typeName   : String
  collection : Bool
  navigation : Bool
deriving DecidableEq, Repr

structure StructuredType where
  name       : String
  kind       : TypeKind
  baseType   : Option String
  properties : List Property
deriving DecidableEq, Repr

-- An entity set or a singleton.
structure NavigationSource where
  name       : String
  entityType : String
  singleton  : Bool
deriving DecidableEq, Repr

structure Model where
  types   : List StructuredType
  sources : List NavigationSource
deriving DecidableEq, Repr

namespace Property

def plain (name typeName : String) : Property where
  name       := name
  typeName   := typeName
  collection := false
  navigation := false

def navigable (name typeName : String) (collection : Bool) : Property where
  name       := name
  typeName   := typeName
  collection := collection
  navigation := true

end Property

namespace StructuredType

def property? (ty : StructuredType) (name : String) : Option Property :=
  ty.properties.find? (·.name = name)

end StructuredType

namespace Model

def empty : Model where
  types   := []
  sources := []

def addType (model : Model) (ty : StructuredType) : Model :=
  { model with types := model.types ++ [ty] }

def addSource (model : Model) (source : NavigationSource) : Model :=
  { model with sources := model.sources ++ [source] }

-- Of several types of one name the first counts.
def type? (model : Model) (name : String) : Option StructuredType :=
  model.types.find? (·.name = name)

def source? (model : Model) (name : String) : Option NavigationSource :=
  model.sources.find? (·.name = name)

def base? (model : Model) (ty : StructuredType) : Option StructuredType :=
  ty.baseType.bind model.type?

-- A property of the type itself, or else of the nearest base type that has one of the name. The chain
-- of base types may be a cycle, but after as many steps as there are types it shows none it has not
-- shown before.
def property? (model : Model) (ty : StructuredType) (name : String) : Option Property :=
  go (model.types.length + 1) (some ty)
where
  go : Nat → Option StructuredType → Option Property
    | 0, _ => none
    | _ + 1, none => none
    | n + 1, some ty =>
      match ty.property? name with
      | some p => some p
      | none => go n (model.base? ty)

-- The structured type that a property holds. There is none for a primitive property.
def propertyType? (model : Model) (property : Property) : Option StructuredType :=
  model.type? property.typeName

end Model
end RowPipeline
