import RowPipeline.Host.Scope
import RowPipeline.Model.Target

namespace RowPipeline

structure Route where
  model : Model
  path  : ResourcePath

-- A scope is kept by its number only, so the context does not hold it back from being dropped.
structure Context where
  route    : Option Route
  scope    : Option Nat
  defaults : Option (Instance Defaults)

namespace Context

def ofRoute (route : Option Route) : Context where
  route    := route
  scope    := none
  defaults := none

def target (context : Context) : Target :=
  match context.route with
  | some route => Target.ofPath route.model route.path
  | none => Target.absent

-- The type that the path addresses, for the paths of clauses.
def binding? (context : Context) : Option Binding :=
  context.route.bind fun route => context.target.binding? route.model

def attach (context : Context) (scope : Nat) : Context :=
  { context with scope := some scope }

-- The settings of the attached scope, which has to hold some, or fresh ones without a scope. They are
-- fixed by the first success.
def settle (context : Context) (live : Option Scope) (serial : Nat) :
    Except Error (Instance Defaults) × Context :=
  match context.defaults, live with
  | some defaults, _ => (.ok defaults, context)
  | none, none =>
    let defaults := ⟨serial, Defaults.standard⟩
    (.ok defaults, { context with defaults := some defaults })
  | none, some scope =>
    match scope.defaults with
    | some defaults => (.ok defaults, { context with defaults := some defaults })
    | none => (.error (.missingRegistration .settings), context)

end Context
end RowPipeline
