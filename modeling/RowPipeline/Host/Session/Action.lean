import RowPipeline.Host.Session.Basic
import RowPipeline.Model.Json

namespace RowPipeline

-- What a failed action has changed stays changed.
abbrev Action := ExceptT Refusal (StateM Session)

namespace Action

def found (field : String) (value : Option α) : Action α :=
  match value with
  | some v => return v
  | none => throw (.absent field)

def decoded (value : Option α) : Action α :=
  match value with
  | some v => return v
  | none => throw .undecodable

def checked (result : Except Error α) : Action α :=
  match result with
  | .ok v => return v
  | .error e => throw (.error e)

def fresh : Action Nat := do
  let session ← get
  set { session with serial := session.serial + 1 }
  return session.serial

-- A number that comes from outside is not given out again.
def reserve (serial : Nat) : Action Unit := do
  modify fun s => { s with serial := max s.serial (serial + 1) }

def scopeNamed (name : String) : Action (Instance Scope) := do
  found "scope" ((← get).scopes.get? name)

def putScope (name : String) (scope : Instance Scope) : Action Unit := do
  modify fun s => { s with scopes := s.scopes.put name scope }

def seatNumber (id : String) : Action Nat := do
  found "id" ((← get).contexts.get? id)

def seat (number : Nat) : Action Seat := do
  found "id" ((← get).seat? number)

-- An option with the number of its context.
def optionNamed (id : String) : Action (Nat × QueryOption) := do
  found "id" ((← get).options.get? id)

def putOption (id : String) (context : Nat) (option : QueryOption) : Action Unit := do
  modify fun s => { s with options := s.options.put id (context, option) }

def queryNamed (field name : String) : Action Query := do
  found field ((← get).queries.get? name)

def putQuery (name : String) (query : Query) : Action Unit := do
  modify fun s => { s with queries := s.queries.put name query }

def serviceReply (scope : Scope) : Service → Option Reply
  | .settings => scope.defaults.map fun d => .defaults d.value
  | .resolver => scope.resolver.map fun r => .text r.name
  | .text => scope.text.map .text

def register (name : String) (registration : Registration) : Action Reply := do
  let held ← scopeNamed name
  let scope ← match registration with
    | .settings value => do
      let defaults ← decoded (Defaults.ofDocument? (.ofValue value))
      let serial ← fresh
      pure { held.value with defaults := some ⟨serial, defaults⟩ }
    | .shared defaults => do
      reserve defaults.serial
      pure { held.value with defaults := some defaults }
    | .resolver resolver => pure { held.value with resolver := some resolver }
    | .text s => pure { held.value with text := some s }
  putScope name ⟨held.serial, scope⟩
  return .text scope.describe

def remove (name : String) (service : Service) : Action Reply := do
  let held ← scopeNamed name
  let scope := held.value.remove service
  putScope name ⟨held.serial, scope⟩
  return .removed (held.value.contains service) scope.describe

def makeContext (id : String) (route : Option (Document × ResourcePath)) : Action Reply := do
  let route ← match route with
    | none => pure none
    | some (model, path) => do pure (some ⟨← decoded (Model.ofDocument? model), path⟩)
  let context := Context.ofRoute route
  modify fun s => { s with
    contexts := s.contexts.put id s.seats.length
    seats    := s.seats ++ [⟨context, none⟩] }
  return .target context.target.name

def attach (id scope : String) : Action Reply := do
  let number ← seatNumber id
  let held ← scopeNamed scope
  let seat ← seat number
  modify (Session.putSeat number { seat with context := seat.context.attach held.serial })
  return .done

def makeOption (id : String) (text context : Option String) (grammar : Option GrammarChoice)
    (registry : Option Registry) : Action Reply := do
  let session ← get
  let number := context.bind session.contexts.get?
  let held := number.bind session.context?
  let parser := grammar.map (GrammarChoice.parser held)
  let (number, option) ← checked (QueryOption.build number text parser registry)
  putOption id number option
  return .option option.text (held.bind fun c => c.target.name)

-- What the attempt leaves of the option is kept, whether it succeeds or not.
def clauseOf (id : String) : Action Reply := do
  let (context, option) ← optionNamed id
  let (result, option) := option.parse
  putOption id context option
  return .clause (← checked result)

def validate (id : String) : Action Reply := do
  let (number, option) ← optionNamed id
  let seat ← seat number
  let live := (← get).scopeOf seat.context
  let (result, option, context) := option.validate seat.context live (← fresh)
  putOption id number option
  modify (Session.putSeat number { seat with context })
  checked result
  return .flag true

def applyTo (id query into : String) (settings : Option Value) : Action Reply := do
  let (number, option) ← optionNamed id
  let query ← queryNamed "query" query
  let settings ← match settings with
    | none => pure Settings.standard
    | some value => decoded (Settings.ofDocument? (.ofValue value))
  let seat ← seat number
  let live := (← get).scopeOf seat.context
  let (result, option) := option.applyTo live query settings
  putOption id number option
  let query ← checked result
  putQuery into query
  return .text query.text

def compose (query source into : String) (index : Option Nat) : Action Reply := do
  let source ← queryNamed "from" source
  let query ← queryNamed "query" query
  let stages ← match index with
    | none => pure source.stages
    | some i => do pure [← found "index" source.stages[i]?]
  let result := query.compose stages
  putQuery into result
  return .text result.text

def execute (id : String) : Action Reply := do
  let query ← queryNamed "id" id
  return .rows (← checked (query.execute.mapError .evaluation))

def defaultSettings (id : String) : Action Reply := do
  let number ← seatNumber id
  let seat ← seat number
  let live := (← get).scopeOf seat.context
  let (result, context) := seat.context.settle live (← fresh)
  let defaults ← checked result
  modify (Session.putSeat number ⟨context, some defaults.serial⟩)
  return .settled defaults.value (seat.shown.map fun serial => serial == defaults.serial)

def perform : Step → Action Reply
  | .scope id => do
    putScope id ⟨← fresh, Scope.empty⟩
    return .done
  | .dropScope id => do
    let scopes := (← get).scopes
    modify fun s => { s with scopes := scopes.erase id }
    return .flag (scopes.get? id).isSome
  | .register scope registration => register scope registration
  | .remove scope service => remove scope service
  | .contains scope => do
    let held ← scopeNamed scope
    return .flags ([Service.settings, .resolver, .text].map held.value.contains)
  | .get scope service => do
    let held ← scopeNamed scope
    return (serviceReply held.value service).getD .done
  | .require scope service => do
    let held ← scopeNamed scope
    match serviceReply held.value service with
    | some reply => return reply
    | none => throw (.error (.missingRegistration service))
  | .active scope => do
    let held := scope.bind (← get).scopes.get?
    return .text (Resolver.active (held.map (·.value))).name
  | .context id route => makeContext id route
  | .attach id scope => attach id scope
  | .hasScope id => do
    let seat ← seat (← seatNumber id)
    let scope := (← get).scopeOf seat.context
    return .flags [scope.isSome, seat.context.route.isSome]
  | .defaultSettings id => defaultSettings id
  | .option id clause context grammar registry => makeOption id clause context grammar registry
  | .clause id => clauseOf id
  | .parseCalls id => do return .number (← optionNamed id).2.parses
  | .validate id => validate id
  | .query id rows => do
    putQuery id (Query.ofRows rows)
    return .done
  | .applyTo id query into settings => applyTo id query into settings
  | .compose query source into index => compose query source into index
  | .inspect id => do return .query (← queryNamed "id" id)
  | .describe id => do
    return .descriptions ((← queryNamed "id" id).stages.map Stage.description?)
  | .execute id => execute id

end Action

namespace Session

def step (session : Session) (s : Step) : Except Refusal Reply × Session :=
  (Action.perform s).run.run session

-- A failed step does not stop the session.
def run : Session → List Step → List (Except Refusal Reply)
  | _, [] => []
  | session, s :: steps =>
    let (reply, session) := session.step s
    reply :: run session steps

end Session
end RowPipeline
