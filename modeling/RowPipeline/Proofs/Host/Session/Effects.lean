import RowPipeline.Proofs.Host.Applying
import RowPipeline.Proofs.Host.Session.Steps

namespace RowPipeline

-- A scope with one more service, if the service can be read.
def Registration.onto? (serial : Nat) (scope : Scope) : Registration → Option Scope
  | settings value =>
    (Defaults.ofDocument? (.ofValue value)).map fun defaults => { scope with defaults := some ⟨serial, defaults⟩ }
  | shared defaults => some { scope with defaults := some defaults }
  | resolver r => some { scope with resolver := some r }
  | text t => some { scope with text := some t }

theorem QueryOption.of_build {α : Type} {context : Option α} {text : Option String} {parser : Option ClauseParser}
    {registry : Option Registry} {c : α} {option : QueryOption}
    (h : build context text parser registry = .ok (c, option)) :
    context = some c ∧ ∃ p, parser = some p ∧
      option = ⟨text.getD "", p, registry.getD Registry.builtins, none, 0⟩ := by
  unfold build at h
  split at h
  case h_4 c' p _ =>
    obtain ⟨made, hm, he⟩ := bind_eq_ok.mp h
    obtain ⟨rfl, rfl⟩ := Prod.mk.inj (pure_eq_ok.mp he)
    exact ⟨rfl, p, rfl, (make_eq_ok.mp hm).2.symm⟩
  all_goals contradiction

-- The settings that a clause is applied with, if they can be read. They may be left out.
def Settings.given? : Option Value → Option Settings
  | none => some standard
  | some value => ofDocument? (.ofValue value)

namespace Session

open RowPipeline.Action

variable {s : Session} {id : String} {n : Nat} {seat : Seat} {option : QueryOption}

theorem sameBut_step (s : Session) (x : Step) : SameBut x.parts s (s.step x).2 :=
  keeps_perform x s

-- The scope that a step puts under a name.
def scopePut? (s : Session) : Step → Option (String × Instance Scope)
  | .scope id => some (id, ⟨s.serial, Scope.empty⟩)
  | .register id registration => do
    let held ← s.scopes.get? id
    let scope ← registration.onto? s.serial held.value
    return (id, ⟨held.serial, scope⟩)
  | .remove id service => do
    let held ← s.scopes.get? id
    return (id, ⟨held.serial, held.value.remove service⟩)
  | _ => none

theorem scopes_step (x : Step) (hx : ∀ id, x ≠ .dropScope id) :
    (s.step x).2.scopes = match s.scopePut? x with
      | some (name, held) => s.scopes.put name held
      | none => s.scopes := by
  cases x with
  | scope id => rfl
  | dropScope id => exact absurd rfl (hx id)
  | register id registration =>
    show ((register id registration).on s).2.scopes = _
    cases hs : s.scopes.get? id with
    | none => simp [register, scopePut?, hs]
    | some held =>
      cases registration with
      | settings value =>
        cases hd : Defaults.ofDocument? (.ofValue value) <;>
          simp [register, scopePut?, Registration.onto?, hs, hd]
      | _ => simp [register, scopePut?, Registration.onto?, hs]
  | remove id service =>
    show ((Action.remove id service).on s).2.scopes = _
    cases hs : s.scopes.get? id <;> simp [Action.remove, scopePut?, hs]
  | _ => exact (sameBut_step s _).scopes (by simp [Step.parts])

-- A context is made without a scope and without settings, if its model can be read.
theorem step_context (id : String) (route : Option (Document × ResourcePath)) :
    (s.step (.context id route)).2 = s ∨ ∃ route', (s.step (.context id route)).2 =
      { s with
        contexts := s.contexts.put id s.seats.length
        seats    := s.seats ++ [⟨Context.ofRoute route', none⟩] } := by
  show ((makeContext id route).on s).2 = s ∨ ∃ route', ((makeContext id route).on s).2 = _
  cases route with
  | none => exact .inr ⟨none, by simp [makeContext]⟩
  | some given =>
    cases hm : Model.ofDocument? given.1 with
    | none => exact .inl (by simp [makeContext, hm])
    | some model => exact .inr ⟨some ⟨model, given.2⟩, by simp [makeContext, hm]⟩

theorem step_attach {name : String} {held : Instance Scope} (hn : s.contexts.get? id = some n)
    (hk : s.scopes.get? name = some held) (hs : s.seat? n = some seat) :
    (s.step (.attach id name)).2 = s.putSeat n { seat with context := seat.context.attach held.serial } := by
  show ((Action.attach id name).on s).2 = _
  simp [Action.attach, hn, hk, hs]

-- A name that stands for nothing.
theorem step_attach_of_none {name : String} (h : s.contexts.get? id = none ∨ s.scopes.get? name = none) :
    (s.step (.attach id name)).2 = s := by
  show ((Action.attach id name).on s).2 = _
  cases hn : s.contexts.get? id with
  | none => simp [Action.attach, hn]
  | some n =>
    have hk := h.resolve_left (by simp [hn])
    simp [Action.attach, hn, hk]

theorem step_defaultSettings (hn : s.contexts.get? id = some n) (hs : s.seat? n = some seat) :
    s.step (.defaultSettings id) = match seat.context.settle (s.scopeOf seat.context) s.serial with
      | (.ok defaults, context) =>
        (.ok (.settled defaults.value (seat.shown.map fun serial => serial == defaults.serial)),
          putSeat n ⟨context, some defaults.serial⟩ { s with serial := s.serial + 1 })
      | (.error e, _) => (.error (.error e), { s with serial := s.serial + 1 }) := by
  show (defaultSettings id).on s = _
  rcases hr : seat.context.settle (s.scopeOf seat.context) s.serial with ⟨e | d, context⟩ <;>
    simp [defaultSettings, hn, hs, hr, Except.map, Except.mapError]

theorem step_validate (ho : s.options.get? id = some (n, option)) (hs : s.seat? n = some seat) :
    s.step (.validate id) =
      let left := option.validate seat.context (s.scopeOf seat.context) s.serial
      ((left.1.map fun () => .flag true).mapError .error, putSeat n { seat with context := left.2.2 }
        { s with options := s.options.put id (n, left.2.1), serial := s.serial + 1 }) := by
  show (Action.validate id).on s = _
  cases hr : (option.validate seat.context (s.scopeOf seat.context) s.serial).1 <;>
    simp [validate, ho, hs, hr, Except.map, Except.mapError]

-- An option is made on a context that there is, and its text has not been parsed yet.
theorem step_option (id : String) (text context : Option String) (grammar : Option GrammarChoice)
    (registry : Option Registry) :
    (∃ e, s.step (.option id text context grammar registry) = (.error e, s)) ∨
      ∃ name n choice, context = some name ∧ s.contexts.get? name = some n ∧ grammar = some choice ∧
        s.step (.option id text context grammar registry) =
          (.ok (.option (text.getD "") ((s.context? n).bind (·.target.name))),
            { s with options := s.options.put id (n, ⟨text.getD "", choice.parser (s.context? n),
                registry.getD Registry.builtins, none, 0⟩) }) := by
  show (∃ e, (makeOption id text context grammar registry).on s = _) ∨
    ∃ name n choice, _ ∧ _ ∧ _ ∧ (makeOption id text context grammar registry).on s = _
  let number := context.bind s.contexts.get?
  let held := number.bind s.context?
  cases hb : QueryOption.build number text (grammar.map (GrammarChoice.parser held)) registry with
  | error e => exact .inl ⟨.error e, by simp [makeOption, number, held, hb, Except.mapError]⟩
  | ok made =>
    obtain ⟨n, option⟩ := made
    obtain ⟨hn, p, hp, rfl⟩ := QueryOption.of_build hb
    obtain ⟨name, rfl, hc⟩ := Option.bind_eq_some_iff.mp hn
    obtain ⟨choice, rfl, rfl⟩ := Option.map_eq_some_iff.mp hp
    refine .inr ⟨name, n, choice, rfl, hc, rfl, ?_⟩
    simp only [number, held, Option.bind_some, hc, Option.map_some] at hb
    simp [makeOption, hc, hb, Except.map, Except.mapError]

theorem step_clause (ho : s.options.get? id = some (n, option)) :
    s.step (.clause id) =
      ((option.parse.1.map .clause).mapError .error, { s with options := s.options.put id (n, option.parse.2) }) := by
  show (clauseOf id).on s = _
  cases hr : option.parse.1 <;> simp [clauseOf, ho, hr, Except.map, Except.mapError]

theorem step_applyTo {query into : String} {source : Query} {settings : Option Value} {applied : Settings}
    (ho : s.options.get? id = some (n, option)) (hq : s.queries.get? query = some source)
    (ha : Settings.given? settings = some applied) (hs : s.seat? n = some seat) :
    s.step (.applyTo id query into settings) =
      match option.applyTo (s.scopeOf seat.context) source applied with
      | (.ok query, option) => (.ok (.text query.text),
          { s with options := s.options.put id (n, option), queries := s.queries.put into query })
      | (.error e, option) => (.error (.error e), { s with options := s.options.put id (n, option) }) := by
  show (Action.applyTo id query into settings).on s = _
  rcases hr : option.applyTo (s.scopeOf seat.context) source applied with ⟨e | query, option⟩ <;> cases settings with
  | none =>
    obtain rfl := Option.some.inj ha
    simp [applyTo, ho, hq, hs, hr, Except.map, Except.mapError]
  | some value =>
    have hd : Settings.ofDocument? (.ofValue value) = some applied := ha
    simp [applyTo, ho, hq, hd, hs, hr, Except.map, Except.mapError]

end Session
end RowPipeline
