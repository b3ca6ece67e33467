import RowPipeline.CommandLine.Arguments
import RowPipeline.Json.Reader
import RowPipeline.Model.Json
import RowPipeline.Host.Request

namespace RowPipeline.CommandLine

-- `file` names the file that cannot be read or decoded.
inductive Failure where
  | usage (error : UsageError)
  | file (name : String)
  | failed (error : Error)

-- The contents of the files that there are.
abbrev Files := String → Option String

def nestingLimit : Nat :=
  128

def decodeFile (files : Files) (decode : Document → Option α) (name : String) :
    Except Failure α :=
  match (files name).bind Document.parse |>.bind decode with
  | some a => .ok a
  | none => .error (.file name)

-- Values nest less deeply than the limit. What is passed over in a file with fields may nest deeper.
def rows? (d : Document) : Option (List Value) :=
  if d.depth < nestingLimit then Document.list? Document.value? d else none

def decodeOption (arguments : Arguments) (files : Files) (name : OptionName)
    (decode : Document → Option α) (standard : α) : Except Failure α :=
  match arguments.value? name with
  | some file => decodeFile files decode file
  | none => .ok standard

def route (arguments : Arguments) (files : Files) : Except Failure (Option Route) :=
  match arguments.value? .model, arguments.value? .path with
  | some file, some path => do
    let model ← decodeFile files Model.ofDocument? file
    return some ⟨model, ResourcePath.parse path⟩
  | _, _ => .ok none

-- The scope that is there for every query. It always holds settings.
def hostScope (defaults : Defaults) (caseInsensitive : Bool) : Scope where
  defaults := some ⟨0, defaults⟩
  resolver := if caseInsensitive then some Resolver.caseInsensitive else none
  text     := none

def runArguments (arguments : Arguments) (files : Files) : Except Failure (List Value) := do
  let rows ← decodeFile files rows? ((arguments.value? .data).getD "")
  let route ← route arguments files
  let defaults ← decodeOption arguments files .defaults Defaults.ofDocument? Defaults.standard
  let settings ← decodeOption arguments files .settings Settings.ofDocument? Settings.standard
  let context := Context.ofRoute route
  let request : Request := {
    text     := (arguments.value? .apply).getD ""
    parser   := ClauseParser.standard context.binding?
    context  := context
    scope    := some (hostScope defaults (arguments.has .caseInsensitive))
    settings := if arguments.has .strictNulls then settings.withNullHandling .refuse else settings
    registry := Registry.builtins
    validate := arguments.has .validate
  }
  (request.run rows).mapError .failed

-- The rows that come out, as the indented text of an array.
def run (args : List String) (files : Files) : Except Failure String := do
  let arguments ← (Arguments.parse args).mapError .usage
  let rows ← runArguments arguments files
  return (Value.array rows).indentedText

end RowPipeline.CommandLine
