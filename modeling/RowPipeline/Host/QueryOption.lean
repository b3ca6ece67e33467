import RowPipeline.Clause.Parser
import RowPipeline.Host.Query
import RowPipeline.Host.Validation
import RowPipeline.Host.Context
import RowPipeline.Method.Builtin

namespace RowPipeline

-- `clause` is what the text has been found to be, and `parses` counts the attempts.
structure QueryOption where
  text     : String
  parser   : ClauseParser
  registry : Registry
  clause   : Option Clause
  parses   : Nat

namespace QueryOption

-- The text is not empty.
def make (text : String) (parser : ClauseParser) (registry : Registry) :
    Except Error QueryOption :=
  if text.isEmpty then
    .error (.invalidArgument .clauseText)
  else
    .ok { text, parser, registry, clause := none, parses := 0 }

-- Collects the parts of an option on a context. The first one that is missing is the error.
def build (context : Option α) (text : Option String) (parser : Option ClauseParser)
    (registry : Option Registry) : Except Error (α × QueryOption) :=
  match context, (text.getD "").isEmpty, parser with
  | none, _, _ => .error (.invalidArgument .context)
  | _, true, _ => .error (.invalidArgument .clauseText)
  | _, _, none => .error (.invalidArgument .grammar)
  | some context, _, some parser => do
    return (context, ← make (text.getD "") parser (registry.getD Registry.builtins))

-- Only a success is remembered.
def parse (option : QueryOption) : Except Error Clause × QueryOption :=
  match option.clause with
  | some clause => (.ok clause, option)
  | none =>
    let tried := { option with parses := option.parses + 1 }
    match option.parser.parse option.text with
    | .ok clause => (.ok clause, { tried with clause := some clause })
    | .error error => (.error error, tried)

-- Checks the clause against the default settings of a context, which this may fix. `live` is the scope
-- of the context, as long as it lives, and `serial` the number that fresh settings get.
def validate (option : QueryOption) (context : Context) (live : Option Scope) (serial : Nat) :
    Except Error Unit × QueryOption × Context :=
  match option.parse with
  | (.error error, option) => (.error error, option, context)
  | (.ok clause, option) =>
    match context.settle live serial with
    | (.error error, context) => (.error error, option, context)
    | (.ok defaults, context) =>
      ((clause.validate defaults.value).mapError .validation, option, context)

-- Puts the stages of the clause behind those of a query. They keep the resolver that is active now.
def applyTo (option : QueryOption) (live : Option Scope) (query : Query) (settings : Settings) :
    Except Error Query × QueryOption :=
  match option.parse with
  | (.error error, option) => (.error error, option)
  | (.ok clause, option) =>
    let stages := Stage.ofClause clause (Resolver.active live) settings option.registry
    (stages.map query.compose, option)

end QueryOption

end RowPipeline
