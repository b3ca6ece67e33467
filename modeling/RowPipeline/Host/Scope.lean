import RowPipeline.Host.Settings
import RowPipeline.Row.Resolver
import RowPipeline.Error

namespace RowPipeline

-- A value that is held by reference. Two of one number are the same instance.
structure Instance (α : Type u) where
  serial : Nat
  value  : α
deriving DecidableEq, Repr

-- At most one service of each kind.
structure Scope where
  defaults : Option (Instance Defaults)
  resolver : Option Resolver
  text     : Option String

namespace Scope

def empty : Scope where
  defaults := none
  resolver := none
  text     := none

def contains (scope : Scope) : Service → Bool
  | .settings => scope.defaults.isSome
  | .resolver => scope.resolver.isSome
  | .text => scope.text.isSome

def remove (scope : Scope) : Service → Scope
  | .settings => { scope with defaults := none }
  | .resolver => { scope with resolver := none }
  | .text => { scope with text := none }

def size (scope : Scope) : Nat :=
  ([Service.settings, .resolver, .text].filter scope.contains).length

def describe (scope : Scope) : String :=
  "ServiceScope \x7b services: " ++ Nat.repr scope.size ++ " \x7d"

end Scope

namespace Resolver

-- The resolver that a scope holds, or else the exact one.
def active (scope : Option Scope) : Resolver :=
  (scope.bind (·.resolver)).getD exact

end Resolver
end RowPipeline
