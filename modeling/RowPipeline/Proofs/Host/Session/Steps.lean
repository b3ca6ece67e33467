import RowPipeline.Host.Session.Action

namespace RowPipeline

namespace Session

-- What is in a session, the counter apart. Options and queries are told apart by their names.
inductive Part where
  | scopes
  | contexts
  | seats
  | option (id : String)
  | query (name : String)
deriving DecidableEq

-- Only these parts may differ. Seats come with new contexts and stay, and no number is given out twice.
structure SameBut (parts : List Part) (s s' : Session) : Prop where
  scopes   : .scopes ∉ parts → s'.scopes = s.scopes
  contexts : .contexts ∉ parts → s'.contexts = s.contexts
  seats    : .seats ∉ parts → s'.seats = s.seats
  option   : ∀ id, .option id ∉ parts → s'.options.get? id = s.options.get? id
  query    : ∀ name, .query name ∉ parts → s'.queries.get? name = s.queries.get? name
  length   : .contexts ∉ parts → s'.seats.length = s.seats.length
  stay     : s.seats.length ≤ s'.seats.length
  serial   : s.serial ≤ s'.serial

namespace SameBut

variable {parts : List Part} {s s₁ s₂ : Session}

theorem rfl : SameBut parts s s where
  scopes   := fun _ => Eq.refl _
  contexts := fun _ => Eq.refl _
  seats    := fun _ => Eq.refl _
  option   := fun _ _ => Eq.refl _
  query    := fun _ _ => Eq.refl _
  length   := fun _ => Eq.refl _
  stay     := Nat.le_refl _
  serial   := Nat.le_refl _

theorem trans (h₁ : SameBut parts s s₁) (h₂ : SameBut parts s₁ s₂) : SameBut parts s s₂ where
  scopes h   := (h₂.scopes h).trans (h₁.scopes h)
  contexts h := (h₂.contexts h).trans (h₁.contexts h)
  seats h    := (h₂.seats h).trans (h₁.seats h)
  option id h  := (h₂.option id h).trans (h₁.option id h)
  query name h := (h₂.query name h).trans (h₁.query name h)
  length h   := (h₂.length h).trans (h₁.length h)
  stay       := Nat.le_trans h₁.stay h₂.stay
  serial     := Nat.le_trans h₁.serial h₂.serial

end SameBut
end Session

-- The parts that a step may change.
def Step.parts : Step → List Session.Part
  | .scope _ | .dropScope _ | .register .. | .remove .. => [.scopes]
  | .context .. => [.contexts, .seats]
  | .attach .. | .defaultSettings _ => [.seats]
  | .option id .. | .clause id => [.option id]
  | .validate id => [.seats, .option id]
  | .query id _ => [.query id]
  | .applyTo id _ into _ => [.option id, .query into]
  | .compose _ _ into _ => [.query into]
  | _ => []

namespace Action

open Session

variable {α β : Type} {parts : List Part}

-- The result of an action and the session that it leaves.
def on (m : Action α) (s : Session) : Except Refusal α × Session :=
  m.run.run s

theorem on_bind (m : Action α) (f : α → Action β) (s : Session) :
    (m >>= f).on s = match m.on s with
      | (.ok a, s') => (f a).on s'
      | (.error e, s') => (.error e, s') := by
  simp only [on, ExceptT.run_bind, StateT.run_bind]
  rcases StateT.run (ExceptT.run m) s with ⟨_ | a, s'⟩ <;> rfl

theorem on_pure (a : α) (s : Session) : (pure a : Action α).on s = (.ok a, s) :=
  rfl

theorem on_map (f : α → β) (m : Action α) (s : Session) : (f <$> m).on s = ((m.on s).1.map f, (m.on s).2) := by
  rw [← bind_pure_comp, on_bind]
  rcases m.on s with ⟨_ | a, s'⟩ <;> rfl

theorem on_get (s : Session) : (get : Action Session).on s = (.ok s, s) :=
  rfl

theorem on_modify (f : Session → Session) (s : Session) : (modify f : Action Unit).on s = (.ok (), f s) :=
  rfl

theorem on_fresh (s : Session) : fresh.on s = (.ok s.serial, { s with serial := s.serial + 1 }) :=
  rfl

theorem on_reserve (serial : Nat) (s : Session) :
    (reserve serial).on s = (.ok (), { s with serial := max s.serial (serial + 1) }) :=
  rfl

theorem on_found (field : String) (value : Option α) (s : Session) :
    (found field value).on s = (match value with | some v => .ok v | none => .error (.absent field), s) := by
  cases value <;> rfl

theorem on_decoded (value : Option α) (s : Session) :
    (decoded value).on s = (match value with | some v => .ok v | none => .error .undecodable, s) := by
  cases value <;> rfl

theorem on_checked (result : Except Error α) (s : Session) : (checked result).on s = (result.mapError .error, s) := by
  cases result <;> rfl

theorem on_putScope (name : String) (scope : Instance Scope) (s : Session) :
    (putScope name scope).on s = (.ok (), { s with scopes := s.scopes.put name scope }) :=
  rfl

theorem on_putOption (id : String) (context : Nat) (option : QueryOption) (s : Session) :
    (putOption id context option).on s = (.ok (), { s with options := s.options.put id (context, option) }) :=
  rfl

theorem on_putQuery (name : String) (query : Query) (s : Session) :
    (putQuery name query).on s = (.ok (), { s with queries := s.queries.put name query }) :=
  rfl

attribute [simp] on_bind on_pure on_map on_get on_modify on_fresh on_reserve on_found on_decoded on_checked on_putScope
  on_putOption on_putQuery

@[simp]
theorem on_scopeNamed (name : String) (s : Session) :
    (scopeNamed name).on s = (found "scope" (s.scopes.get? name)).on s := by
  simp [scopeNamed]

@[simp]
theorem on_seatNumber (id : String) (s : Session) :
    (seatNumber id).on s = (found "id" (s.contexts.get? id)).on s := by
  simp [seatNumber]

@[simp]
theorem on_seat (number : Nat) (s : Session) : (seat number).on s = (found "id" (s.seat? number)).on s := by
  simp [seat]

@[simp]
theorem on_optionNamed (id : String) (s : Session) :
    (optionNamed id).on s = (found "id" (s.options.get? id)).on s := by
  simp [optionNamed]

@[simp]
theorem on_queryNamed (field name : String) (s : Session) :
    (queryNamed field name).on s = (found field (s.queries.get? name)).on s := by
  simp [queryNamed]

-- An action that changes nothing but these parts, whether it succeeds or not.
def Keeps (parts : List Part) (m : Action α) : Prop :=
  ∀ s, SameBut parts s (m.on s).2

section Keeps

variable {m : Action α}

theorem keeps_bind {f : α → Action β} (hm : Keeps parts m) (hf : ∀ a, Keeps parts (f a)) :
    Keeps parts (m >>= f) := by
  intro s
  have h := hm s
  rw [on_bind]
  cases hr : m.on s with
  | mk result s' =>
    rw [hr] at h
    cases result with
    | error e => exact h
    | ok a => exact h.trans (hf a s')

theorem keeps_pure (a : α) : Keeps parts (pure a : Action α) :=
  fun _ => .rfl

theorem keeps_throw (e : Refusal) : Keeps parts (throw e : Action α) :=
  fun _ => .rfl

theorem keeps_get : Keeps parts (get : Action Session) :=
  fun _ => .rfl

theorem keeps_modify {f : Session → Session} (h : ∀ s, SameBut parts s (f s)) :
    Keeps parts (modify f : Action Unit) :=
  h

theorem keeps_found {field : String} {value : Option α} : Keeps parts (found field value) := by
  cases value <;> exact fun _ => .rfl

theorem keeps_decoded {value : Option α} : Keeps parts (decoded value) := by
  cases value <;> exact fun _ => .rfl

theorem keeps_checked {result : Except Error α} : Keeps parts (checked result) := by
  cases result <;> exact fun _ => .rfl

theorem keeps_fresh : Keeps parts fresh :=
  fun _ => { SameBut.rfl with serial := Nat.le_succ _ }

theorem keeps_reserve {serial : Nat} : Keeps parts (reserve serial) :=
  fun _ => { SameBut.rfl with serial := Nat.le_max_left _ _ }

theorem keeps_scopeNamed {name : String} : Keeps parts (scopeNamed name) :=
  keeps_bind keeps_get fun _ => keeps_found

theorem keeps_seatNumber {id : String} : Keeps parts (seatNumber id) :=
  keeps_bind keeps_get fun _ => keeps_found

theorem keeps_seat {number : Nat} : Keeps parts (seat number) :=
  keeps_bind keeps_get fun _ => keeps_found

theorem keeps_optionNamed {id : String} : Keeps parts (optionNamed id) :=
  keeps_bind keeps_get fun _ => keeps_found

theorem keeps_queryNamed {field name : String} : Keeps parts (queryNamed field name) :=
  keeps_bind keeps_get fun _ => keeps_found

theorem keeps_putScope {name : String} {scope : Instance Scope} (h : .scopes ∈ parts) :
    Keeps parts (putScope name scope) :=
  fun _ => { SameBut.rfl with scopes := absurd h }

theorem keeps_putSeat {number : Nat} {seat : Seat} (h : .seats ∈ parts) :
    Keeps parts (modify (Session.putSeat number seat) : Action Unit) :=
  fun _ => { SameBut.rfl with
    seats  := absurd h
    length := fun _ => List.length_set
    stay   := Nat.le_of_eq List.length_set.symm }

theorem keeps_putOption {id : String} {context : Nat} {option : QueryOption} (h : .option id ∈ parts) :
    Keeps parts (putOption id context option) :=
  fun _ => { SameBut.rfl with option := fun _ hn => Table.get?_put_of_ne _ (by rintro rfl; exact hn h) _ }

theorem keeps_putQuery {name : String} {query : Query} (h : .query name ∈ parts) :
    Keeps parts (putQuery name query) :=
  fun _ => { SameBut.rfl with query := fun _ hn => Table.get?_put_of_ne _ (by rintro rfl; exact hn h) _ }

end Keeps

theorem keeps_register {name : String} {registration : Registration} :
    Keeps [.scopes] (register name registration) := by
  refine keeps_bind keeps_scopeNamed fun held => ?_
  have h : ∀ scope, Keeps [.scopes] (do putScope name ⟨held.serial, scope⟩; return Reply.text scope.describe) :=
    fun _ => keeps_bind (keeps_putScope (by simp)) fun _ => keeps_pure _
  cases registration with
  | settings value => exact keeps_bind keeps_decoded fun _ => keeps_bind keeps_fresh fun _ => h _
  | shared defaults => exact keeps_bind keeps_reserve fun _ => h _
  | resolver resolver => exact h _
  | text s => exact h _

theorem keeps_makeContext {id : String} {route : Option (Document × ResourcePath)} :
    Keeps [.contexts, .seats] (makeContext id route) := by
  have h : ∀ route, Keeps [.contexts, .seats] (do
      let context := Context.ofRoute route
      modify fun s => { s with
        contexts := s.contexts.put id s.seats.length
        seats    := s.seats ++ [⟨context, none⟩] }
      return Reply.target context.target.name) :=
    fun _ => keeps_bind (keeps_modify fun _ => { SameBut.rfl with
      contexts := absurd (by simp)
      seats    := absurd (by simp)
      length   := absurd (by simp)
      stay     := by simp }) fun _ => keeps_pure _
  cases route with
  | none => exact h none
  | some route => exact keeps_bind keeps_decoded fun _ => h _

theorem keeps_attach {id scope : String} : Keeps [.seats] (attach id scope) :=
  keeps_bind keeps_seatNumber fun _ => keeps_bind keeps_scopeNamed fun _ => keeps_bind keeps_seat fun _ =>
    keeps_bind (keeps_putSeat (by simp)) fun _ => keeps_pure _

theorem keeps_makeOption {id : String} {text context : Option String} {grammar : Option GrammarChoice}
    {registry : Option Registry} : Keeps [.option id] (makeOption id text context grammar registry) :=
  keeps_bind keeps_get fun _ => keeps_bind keeps_checked fun _ => keeps_bind (keeps_putOption (by simp)) fun _ =>
    keeps_pure _

theorem keeps_clauseOf {id : String} : Keeps [.option id] (clauseOf id) :=
  keeps_bind keeps_optionNamed fun _ => keeps_bind (keeps_putOption (by simp)) fun _ =>
    keeps_bind keeps_checked fun _ => keeps_pure _

theorem keeps_defaultSettings {id : String} : Keeps [.seats] (defaultSettings id) :=
  keeps_bind keeps_seatNumber fun _ => keeps_bind keeps_seat fun _ => keeps_bind keeps_get fun _ =>
    keeps_bind keeps_fresh fun _ => keeps_bind keeps_checked fun _ => keeps_bind (keeps_putSeat (by simp)) fun _ =>
      keeps_pure _

theorem keeps_validate {id : String} : Keeps [.seats, .option id] (validate id) :=
  keeps_bind keeps_optionNamed fun _ => keeps_bind keeps_seat fun _ => keeps_bind keeps_get fun _ =>
    keeps_bind keeps_fresh fun _ => keeps_bind (keeps_putOption (by simp)) fun _ =>
      keeps_bind (keeps_putSeat (by simp)) fun _ => keeps_bind keeps_checked fun _ => keeps_pure _

theorem keeps_applyTo {id query into : String} {settings : Option Value} :
    Keeps [.option id, .query into] (applyTo id query into settings) := by
  refine keeps_bind keeps_optionNamed ?_
  rintro ⟨number, option⟩
  refine keeps_bind keeps_queryNamed fun query => ?_
  have h : ∀ settings, Keeps [.option id, .query into] (do
      let seat ← seat number
      let live := (← get).scopeOf seat.context
      let left := option.applyTo live query settings
      putOption id number left.2
      let query ← checked left.1
      putQuery into query
      return Reply.text query.text) :=
    fun _ => keeps_bind keeps_seat fun _ => keeps_bind keeps_get fun _ =>
      keeps_bind (keeps_putOption (by simp)) fun _ => keeps_bind keeps_checked fun _ => keeps_bind (keeps_putQuery (by simp)) fun _ => keeps_pure _
  cases settings with
  | none => exact h _
  | some value => exact keeps_bind keeps_decoded fun _ => h _

theorem keeps_compose {query source into : String} {index : Option Nat} :
    Keeps [.query into] (compose query source into index) := by
  refine keeps_bind keeps_queryNamed fun source => keeps_bind keeps_queryNamed fun query => ?_
  have h : ∀ stages, Keeps [.query into] (do
      let result := query.compose stages
      putQuery into result
      return Reply.text result.text) :=
    fun _ => keeps_bind (keeps_putQuery (by simp)) fun _ => keeps_pure _
  cases index with
  | none => exact h _
  | some i => exact keeps_bind keeps_found fun _ => h _

theorem keeps_perform : (x : Step) → Keeps x.parts (perform x)
  | .scope _ => show Keeps [.scopes] _ from
    keeps_bind keeps_fresh fun _ => keeps_bind (keeps_putScope (by simp)) fun _ => keeps_pure _
  | .dropScope _ => show Keeps [.scopes] _ from keeps_bind keeps_get fun _ =>
    keeps_bind (keeps_modify fun _ => { SameBut.rfl with scopes := absurd (by simp) }) fun _ => keeps_pure _
  | .register .. => keeps_register
  | .remove .. => show Keeps [.scopes] _ from
    keeps_bind keeps_scopeNamed fun _ => keeps_bind (keeps_putScope (by simp)) fun _ => keeps_pure _
  | .contains _ => keeps_bind keeps_scopeNamed fun _ => keeps_pure _
  | .get .. => keeps_bind keeps_scopeNamed fun _ => keeps_pure _
  | .require .. => keeps_bind keeps_scopeNamed fun _ => by
    split
    case h_1 => exact keeps_pure _
    case h_2 => exact keeps_throw _
  | .active _ => keeps_bind keeps_get fun _ => keeps_pure _
  | .context .. => keeps_makeContext
  | .attach .. => keeps_attach
  | .hasScope _ => keeps_bind keeps_seatNumber fun _ => keeps_bind keeps_seat fun _ => keeps_bind keeps_get fun _ =>
    keeps_pure _
  | .defaultSettings _ => keeps_defaultSettings
  | .option .. => keeps_makeOption
  | .clause _ => keeps_clauseOf
  | .parseCalls _ => keeps_bind keeps_optionNamed fun _ => keeps_pure _
  | .validate _ => keeps_validate
  | .query id _ => show Keeps [.query id] _ from keeps_bind (keeps_putQuery (by simp)) fun _ => keeps_pure _
  | .applyTo .. => keeps_applyTo
  | .compose .. => keeps_compose
  | .inspect _ => keeps_bind keeps_queryNamed fun _ => keeps_pure _
  | .describe _ => keeps_bind keeps_queryNamed fun _ => keeps_pure _
  | .execute _ => keeps_bind keeps_queryNamed fun _ => keeps_bind keeps_checked fun _ => keeps_pure _

end Action
end RowPipeline
