namespace RowPipeline.CommandLine

-- Options that take a value.
inductive OptionName where
  | data | apply | model | path | settings | defaults
deriving DecidableEq, Repr

inductive FlagName where
  | caseInsensitive | strictNulls | validate | verbose | help | version
deriving DecidableEq, Repr

inductive UsageError where
  | missingRequired
  | unknownArgument
  | givenTwice
  | invalidValue
  | tooManyValues
  | help
  | version
deriving DecidableEq, Repr

namespace OptionName

def ofName? (name : String) : Option OptionName :=
  [("data", data), ("apply", apply), ("model", model), ("path", path), ("settings", settings),
    ("defaults", defaults)].lookup name

-- The name of a file is not empty. A clause and a path may be.
def namesFile : OptionName → Bool
  | apply | path => false
  | _ => true

end OptionName

namespace FlagName

def ofName? (name : String) : Option FlagName :=
  [("case-insensitive", caseInsensitive), ("strict-nulls", strictNulls), ("validate", validate),
    ("verbose", verbose), ("help", help), ("version", version)].lookup name

def ofLetter? (letter : Char) : Option FlagName :=
  [('v', verbose), ('h', help), ('V', version)].lookup letter

end FlagName

namespace UsageError

def name : UsageError → String
  | missingRequired => "MissingRequiredArgument"
  | unknownArgument => "UnknownArgument"
  | givenTwice => "ArgumentConflict"
  | invalidValue => "InvalidValue"
  | tooManyValues => "TooManyValues"
  | help => "DisplayHelp"
  | version => "DisplayVersion"

end UsageError

structure Arguments where
  options : List (OptionName × String)
  flags   : List FlagName
deriving DecidableEq, Repr

-- `pending` is an option that has not been settled, with its value once it has come. What is wrong with
-- it shows when the next known option or flag or the end is reached.
structure Progress where
  given   : Arguments
  pending : Option (OptionName × Option String)

namespace Arguments

def empty : Arguments where
  options := []
  flags   := []

def value? (arguments : Arguments) (name : OptionName) : Option String :=
  arguments.options.lookup name

def has (arguments : Arguments) (flag : FlagName) : Bool :=
  flag ∈ arguments.flags

def give (arguments : Arguments) (name : OptionName) (value : Option String) :
    Except UsageError Arguments :=
  match value with
  | none => .error .invalidValue
  | some value =>
    if (arguments.value? name).isSome then .error .givenTwice
    else if name.namesFile && value.isEmpty then .error .invalidValue
    else .ok { arguments with options := (name, value) :: arguments.options }

-- Only verbosity may be asked for more than once.
def raise (arguments : Arguments) (flag : FlagName) : Except UsageError Arguments :=
  match flag with
  | .help => .error .help
  | .version => .error .version
  | .verbose => .ok { arguments with flags := flag :: arguments.flags }
  | flag =>
    if arguments.has flag then .error .givenTwice
    else .ok { arguments with flags := flag :: arguments.flags }

end Arguments

namespace Progress

def start : Progress where
  given   := Arguments.empty
  pending := none

def settle (progress : Progress) : Except UsageError Arguments :=
  match progress.pending with
  | none => .ok progress.given
  | some (name, value) => progress.given.give name value

def raise (progress : Progress) (flag : FlagName) : Except UsageError Progress := do
  let given ← (← progress.settle).raise flag
  return ⟨given, none⟩

-- The text behind two hyphens, up to an equals sign and after it.
def long (progress : Progress) (text : List Char) : Except UsageError Progress :=
  let name := String.ofList (text.takeWhile (· ≠ '='))
  let value := ((text.dropWhile (· ≠ '=')).tail?).map String.ofList
  match OptionName.ofName? name, FlagName.ofName? name with
  | some option, _ => do
    let given ← progress.settle
    match value with
    | some value => return ⟨← given.give option (some value), none⟩
    | none => return ⟨given, some (option, none)⟩
  | none, some flag => if value.isSome then .error .tooManyValues else progress.raise flag
  | none, none => .error .unknownArgument

def short (progress : Progress) (letters : List Char) : Except UsageError Progress :=
  letters.foldlM
    (fun progress letter =>
      match FlagName.ofLetter? letter with
      | some flag => progress.raise flag
      | none => .error .unknownArgument)
    progress

-- A plain argument is the value that an option waits for. There are no other plain arguments.
def plain (progress : Progress) (text : String) : Except UsageError Progress :=
  match progress.pending with
  | some (name, none) => .ok { progress with pending := some (name, some text) }
  | _ => .error .unknownArgument

def step (progress : Progress) (argument : String) : Except UsageError Progress :=
  match argument.toList with
  | '-' :: '-' :: text => progress.long text
  | '-' :: c :: letters => progress.short (c :: letters)
  | _ => progress.plain argument

-- After two hyphens alone only plain arguments may follow, of which there are none.
def steps (progress : Progress) : List String → Except UsageError Progress
  | [] => .ok progress
  | "--" :: rest => if rest.isEmpty then .ok progress else .error .unknownArgument
  | argument :: rest => do steps (← progress.step argument) rest

end Progress

namespace Arguments

-- A model and a path into it come together.
def complete (arguments : Arguments) : Bool :=
  (arguments.value? .data).isSome && (arguments.value? .apply).isSome &&
    (arguments.value? .model).isSome == (arguments.value? .path).isSome

def parse (args : List String) : Except UsageError Arguments := do
  let arguments ← (← Progress.start.steps args).settle
  if arguments.complete then return arguments else throw .missingRequired

end Arguments
end RowPipeline.CommandLine
