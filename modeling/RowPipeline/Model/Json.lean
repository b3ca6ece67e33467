import RowPipeline.Model.Basic
import RowPipeline.Json.Fields

namespace RowPipeline

open Document

namespace TypeKind

def name : TypeKind → String
  | entity => "entity"
  | complex => "complex"

def ofDocument? : Document → Option TypeKind :=
  choice? ([entity, complex].map fun k => (k.name, k))

end TypeKind

namespace Property

def ofDocument? (d : Document) : Option Property := do
  match ← d.fields? ["name", "type", "collection", "navigation"] with
  | [some name, some typeName, collection, navigation] =>
    return {
      name       := ← name.text?
      typeName   := ← typeName.text?
      collection := ← optional collection bool? false
      navigation := ← optional navigation bool? false
    }
  | _ => none

def toValue (property : Property) : Value :=
  .object <| Members.ofList [
    ("name", .string property.name),
    ("type", .string property.typeName),
    ("collection", .bool property.collection),
    ("navigation", .bool property.navigation)]

end Property

namespace StructuredType

def ofDocument? (d : Document) : Option StructuredType := do
  match ← d.fields? ["name", "kind", "base_type", "properties"] with
  | [some name, some kind, base, properties] =>
    return {
      name       := ← name.text?
      kind       := ← TypeKind.ofDocument? kind
      baseType   := ← optional base (nullable? text?) none
      properties := ← optional properties (list? Property.ofDocument?) []
    }
  | _ => none

def toValue (ty : StructuredType) : Value :=
  .object <| Members.ofList [
    ("name", .string ty.name),
    ("kind", .string ty.kind.name),
    ("base_type", match ty.baseType with | some b => .string b | none => .null),
    ("properties", .array (ty.properties.map Property.toValue))]

end StructuredType

namespace NavigationSource

def ofDocument? (d : Document) : Option NavigationSource := do
  match ← d.fields? ["name", "entity_type", "singleton"] with
  | [some name, some entityType, singleton] =>
    return {
      name       := ← name.text?
      entityType := ← entityType.text?
      singleton  := ← optional singleton bool? false
    }
  | _ => none

def toValue (source : NavigationSource) : Value :=
  .object <| Members.ofList [
    ("name", .string source.name),
    ("entity_type", .string source.entityType),
    ("singleton", .bool source.singleton)]

end NavigationSource

namespace Model

def ofDocument? (d : Document) : Option Model := do
  match ← d.fields? ["types", "navigation_sources"] with
  | [types, sources] =>
    return {
      types   := ← optional types (list? StructuredType.ofDocument?) []
      sources := ← optional sources (list? NavigationSource.ofDocument?) []
    }
  | _ => none

def toValue (model : Model) : Value :=
  .object <| Members.ofList [
    ("types", .array (model.types.map StructuredType.toValue)),
    ("navigation_sources", .array (model.sources.map NavigationSource.toValue))]

end Model
end RowPipeline
