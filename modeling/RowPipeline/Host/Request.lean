import RowPipeline.Host.QueryOption

namespace RowPipeline

-- One use of a clause, with all it depends on.
structure Request where
  text     : String
  parser   : ClauseParser
  context  : Context
  scope    : Option Scope
  settings : Settings
  registry : Registry
  validate : Bool

namespace Request

-- A clause alone: no model, no scope and the standard settings.
def ofText (text : String) : Request where
  text     := text
  parser   := ClauseParser.standard none
  context  := Context.ofRoute none
  scope    := none
  settings := Settings.standard
  registry := Registry.builtins
  validate := false

-- The option after its check, if there is to be one.
def checked (request : Request) : Except Error QueryOption := do
  let option ← QueryOption.make request.text request.parser request.registry
  if request.validate then
    let (result, option, _) := option.validate request.context request.scope 0
    result.map fun () => option
  else
    return option

def query (request : Request) (rows : List Value) : Except Error Query := do
  let option ← request.checked
  (option.applyTo request.scope (Query.ofRows rows) request.settings).1

def run (request : Request) (rows : List Value) : Except Error (List Value) := do
  let query ← request.query rows
  query.execute.mapError .evaluation

end Request

-- The rows that a clause makes of rows.
def apply (text : String) (rows : List Value) : Except Error (List Value) :=
  (Request.ofText text).run rows

end RowPipeline
