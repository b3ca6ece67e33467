import RowPipeline.Host.Table
import RowPipeline.Host.QueryOption

namespace RowPipeline

-- A context, with the number of the settings that its last look at them showed.
structure Seat where
  context : Context
  shown   : Option Nat

-- Contexts have numbers, so an option keeps its context when the name goes to another one. `serial` is
-- above all numbers of scopes and settings that are in use.
structure Session where
  scopes   : Table (Instance Scope)
  contexts : Table Nat
  seats    : List Seat
  options  : Table (Nat × QueryOption)
  queries  : Table Query
  serial   : Nat

-- `own` is a parser that the host brings along.
inductive GrammarChoice where
  | plain
  | bound
  | own (parser : ClauseParser)

-- The parser of an option on a context.
def GrammarChoice.parser (context : Option Context) : GrammarChoice → ClauseParser
  | plain => ClauseParser.standard none
  | bound => ClauseParser.standard (context.bind Context.binding?)
  | own parser => parser

-- A service with its value. Settings come as they are written, or as an instance that the host shares.
inductive Registration where
  | settings (value : Value)
  | shared (defaults : Instance Defaults)
  | resolver (resolver : Resolver)
  | text (s : String)

inductive Step where
  | scope (id : String)
  | dropScope (id : String)
  | register (scope : String) (registration : Registration)
  | remove (scope : String) (service : Service)
  | contains (scope : String)
  | get (scope : String) (service : Service)
  | require (scope : String) (service : Service)
  | active (scope : Option String)
  | context (id : String) (route : Option (Document × ResourcePath))
  | attach (id scope : String)
  | hasScope (id : String)
  | defaultSettings (id : String)
  | option (id : String) (clause context : Option String) (grammar : Option GrammarChoice)
      (registry : Option Registry)
  | clause (id : String)
  | parseCalls (id : String)
  | validate (id : String)
  | query (id : String) (rows : List Value)
  | applyTo (id query into : String) (settings : Option Value)
  | compose (query source into : String) (index : Option Nat)
  | describe (id : String)
  | inspect (id : String)
  | execute (id : String)

inductive Reply where
  | done
  | flag (b : Bool)
  | flags (bs : List Bool)
  | number (n : Nat)
  | text (s : String)
  | removed (found : Bool) (scope : String)
  | defaults (defaults : Defaults)
  | settled (defaults : Defaults) (same : Option Bool)
  | target (name : Option String)
  | option (text : String) (target : Option String)
  | clause (clause : Clause)
  | query (query : Query)
  | descriptions (texts : List (Option String))
  | rows (rows : List Value)

-- `absent` names what a step refers to and the session does not have.
inductive Refusal where
  | absent (field : String)
  | undecodable
  | error (error : Error)

namespace Session

def empty : Session where
  scopes   := []
  contexts := []
  seats    := []
  options  := []
  queries  := []
  serial   := 0

-- The scope of a number, as long as it is under some name.
def live? (session : Session) (serial : Nat) : Option Scope :=
  (session.scopes.find? (·.2.serial = serial)).map (·.2.value)

def scopeOf (session : Session) (context : Context) : Option Scope :=
  context.scope.bind session.live?

def seat? (session : Session) (number : Nat) : Option Seat :=
  session.seats[number]?

def context? (session : Session) (number : Nat) : Option Context :=
  (session.seat? number).map (·.context)

def putSeat (number : Nat) (seat : Seat) (session : Session) : Session :=
  { session with seats := session.seats.set number seat }

end Session

end RowPipeline
