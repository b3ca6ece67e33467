import RowPipeline.Json.Fields

namespace RowPipeline

structure Defaults where
  enableFilter  : Bool
  enableOrderBy : Bool
  enableCount   : Bool
  maxTop        : Option Nat
deriving DecidableEq, Repr

-- `unspecified` leaves it to the source of the rows, and rows in memory propagate nulls.
inductive NullHandling where
  | unspecified
  | propagate
  | refuse
deriving DecidableEq, Repr

structure Settings where
  nullHandling : NullHandling
deriving DecidableEq, Repr

namespace Defaults

-- Everything is allowed.
def standard : Defaults where
  enableFilter  := true
  enableOrderBy := true
  enableCount   := true
  maxTop        := none

def ofDocument? (d : Document) : Option Defaults := do
  match ← d.fields? ["enableFilter", "enableOrderBy", "enableCount", "maxTop"] with
  | [filter, orderBy, count, top] =>
    return {
      enableFilter  := ← Document.optional filter Document.bool? standard.enableFilter
      enableOrderBy := ← Document.optional orderBy Document.bool? standard.enableOrderBy
      enableCount   := ← Document.optional count Document.bool? standard.enableCount
      maxTop        := ← Document.optional top (Document.nullable? Document.natural64?) standard.maxTop
    }
  | _ => none

def toValue (defaults : Defaults) : Value :=
  .object <| Members.ofList [
    ("enableFilter", .bool defaults.enableFilter),
    ("enableOrderBy", .bool defaults.enableOrderBy),
    ("enableCount", .bool defaults.enableCount),
    ("maxTop", match defaults.maxTop with | some n => .int n | none => .null)]

end Defaults

namespace NullHandling

def name : NullHandling → String
  | unspecified => "default"
  | propagate => "true"
  | refuse => "false"

def ofDocument? : Document → Option NullHandling :=
  Document.choice? ([unspecified, propagate, refuse].map fun h => (h.name, h))

end NullHandling

namespace Settings

def standard : Settings where
  nullHandling := .unspecified

def withNullHandling (settings : Settings) (handling : NullHandling) : Settings :=
  { settings with nullHandling := handling }

def propagatesNulls (settings : Settings) : Bool :=
  settings.nullHandling ≠ .refuse

def ofDocument? (d : Document) : Option Settings := do
  match ← d.fields? ["handleNullPropagation"] with
  | [handling] =>
    return ⟨← Document.optional handling NullHandling.ofDocument? standard.nullHandling⟩
  | _ => none

def toValue (settings : Settings) : Value :=
  .object [("handleNullPropagation", .string settings.nullHandling.name)]

end Settings
end RowPipeline
