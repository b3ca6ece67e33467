import RowPipeline.Proofs.Host.Session.Settling

namespace RowPipeline

namespace Session

variable {s : Session} {id : String} {n : Nat} {seat : Seat} {option : QueryOption} {x : Step}

-- What a check makes of a clause: a reply and queries.
def check (s : Session) (found : Except Error (Instance Defaults)) (clause : Clause) :
    Except Error (Reply × Table Query) :=
  (found.bind fun defaults => (clause.validate defaults.value).mapError .validation).map fun () =>
    (.flag true, s.queries)

-- What an application makes of a clause.
def add (s : Session) (live : Option Scope) (source : Query) (into : String) (settings : Settings) (registry : Registry)
    (clause : Clause) : Except Error (Reply × Table Query) :=
  (Stage.ofClause clause (Resolver.active live) settings registry).map fun stages =>
    (.text (source.compose stages).text, s.queries.put into (source.compose stages))

-- What a step does with the clause of an option, if it gets as far as to the option.
def use? (s : Session) (n : Nat) (registry : Registry) : Step → Option (Clause → Except Error (Reply × Table Query))
  | .clause _ => some fun clause => .ok (.clause clause, s.queries)
  | .validate _ => (s.settings? n).map s.check
  | .applyTo _ query into settings => do
    let source ← s.queries.get? query
    let settings ← Settings.given? settings
    let context ← s.context? n
    return s.add (s.scopeOf context) source into settings registry
  | _ => none

-- The reply to a step and the queries after it, with what the step makes. A failure makes nothing.
structure Makes (s : Session) (x : Step) (result : Except Error (Reply × Table Query)) : Prop where
  reply   : (s.step x).1 = (result.map (·.1)).mapError .error
  queries : (s.step x).2.queries = (result.map (·.2)).toOption.getD s.queries

theorem bind_check (option : QueryOption) (context : Context) (live : Option Scope) (serial : Nat) :
    option.parse.1.bind (s.check (context.settle live serial).1) =
      (option.validate context live serial).1.map fun () => (.flag true, s.queries) := by
  rw [QueryOption.validate_fst]
  cases option.parse.1 <;> rfl

theorem bind_add (option : QueryOption) (live : Option Scope) (source : Query) (into : String) (settings : Settings) :
    option.parse.1.bind (s.add live source into settings option.registry) =
      (option.applyTo live source settings).1.map fun query => (.text query.text, s.queries.put into query) := by
  rw [QueryOption.applyTo_fst]
  rcases option.parse.1 with e | clause
  case error => rfl
  case ok =>
    show s.add live source into settings option.registry clause = Except.map _ (Except.map _ _)
    rw [add]
    cases Stage.ofClause clause (Resolver.active live) settings option.registry <;> rfl

theorem makes_of_accesses (ho : s.options.get? id = some (n, option)) (hs : s.seat? n = some seat)
    (ha : s.accesses id x = true) :
    ∃ use, s.use? n option.registry x = some use ∧ s.Makes x (option.parse.1.bind use) := by
  cases x with
  | clause name =>
    obtain rfl : id = name := by simpa [accesses] using ha
    refine ⟨_, rfl, ?_⟩
    constructor <;> rw [step_clause ho] <;> cases option.parse.1 <;> rfl
  | validate name =>
    obtain rfl : id = name := by simpa [accesses] using ha
    refine ⟨_, by rw [use?, settings?_eq hs, Option.map_some], ?_⟩
    rw [bind_check]
    constructor <;> rw [step_validate ho hs] <;>
      rcases option.validate seat.context (s.scopeOf seat.context) s.serial with ⟨e | _, left⟩ <;> rfl
  | applyTo name query into settings =>
    obtain rfl : id = name := by
      simp only [accesses, Bool.and_eq_true, decide_eq_true_eq] at ha
      exact ha.1.1
    obtain ⟨source, applied, hq, hg⟩ := of_accesses_applyTo ha
    refine ⟨s.add (s.scopeOf seat.context) source into applied option.registry, ?_, ?_⟩
    case refine_1 => simp [use?, context?, hq, hg, hs]
    case refine_2 =>
      rw [bind_add]
      constructor <;> rw [step_applyTo ho hq hg hs] <;>
        rcases option.applyTo (s.scopeOf seat.context) source applied with ⟨e | made, option⟩ <;> rfl
  | _ => contradiction

-- How many of these steps get to the option.
def looks (id : String) (s : Session) (steps : List Step) : Nat :=
  (events (fun s x => if s.accesses id x then some x else none) s steps).length

theorem looks_concat {steps : List Step} :
    looks id s (steps ++ [x]) = looks id s steps + if (s.after steps).accesses id x then 1 else 0 := by
  rw [looks, events_concat, List.length_append]
  split <;> rfl

theorem remembered_after {text : String} {parser : ClauseParser} {registry : Registry} {steps : List Step}
    (w : s.WellFormed) (ho : s.options.get? id = some (n, QueryOption.remembered text parser registry 0))
    (hm : ∀ x ∈ steps, x.made? ≠ some id) :
    (s.after steps).options.get? id = some (n, QueryOption.remembered text parser registry (looks id s steps)) := by
  induction steps using List.reverseRecOn with
  | nil => exact ho
  | append_singleton steps x ih =>
    rw [after_concat, looks_concat]
    have ih := ih fun y hy => hm y (List.mem_append_left _ hy)
    obtain ⟨seat, hs⟩ := WellFormed.exists_seat ((w.after steps).options ih)
    rw [options_step ih hs (hm x (by simp)), QueryOption.parse_remembered]
    split <;> rfl

theorem parsed_once_or_each_time {before : List Step} {id : String} {text context : Option String}
    {grammar : Option GrammarChoice} {registry : Option Registry} {reply : Reply}
    (h : ((reached before).step (.option id text context grammar registry)).1 = .ok reply) :
    ∃ n parser, context.bind (reached before).contexts.get? = some n ∧
      grammar.map (GrammarChoice.parser ((reached before).context? n)) = some parser ∧
      ∀ steps, (∀ x ∈ steps, x.made? ≠ some id) →
        let made := ((reached before).step (.option id text context grammar registry)).2
        let s := made.after steps
        let parsed := parser.parse (text.getD "")
        ∃ option, s.options.get? id = some (n, option) ∧
          (match parsed with
            | .ok clause => option.parses = min (looks id made steps) 1 ∧
              option.clause = if looks id made steps = 0 then none else some clause
            | .error _ => option.parses = looks id made steps ∧ option.clause = none) ∧
          ∀ x, s.accesses id x → ∃ use, s.use? n (registry.getD Registry.builtins) x = some use ∧
            s.Makes x (parsed.bind use) := by
  rcases step_option (s := reached before) id text context grammar registry with
    ⟨e, hs⟩ | ⟨name, n, choice, rfl, hc, rfl, hs⟩
  case inl => simp [hs] at h
  case inr =>
    refine ⟨n, _, hc, rfl, fun steps hm => ?_⟩
    intro made s parsed
    have w : made.WellFormed := (wellFormed_reached before).step _
    have ho : made.options.get? id = some (n, QueryOption.remembered (text.getD "")
        (choice.parser ((reached before).context? n)) (registry.getD Registry.builtins) 0) := by
      rw [QueryOption.remembered_zero]
      simp only [made, hs]
      exact Table.get?_put_self _ _ _
    have ho := remembered_after w ho hm
    refine ⟨_, ho, ?_, ?_⟩
    case refine_1 =>
      simp only [parsed, QueryOption.remembered]
      split <;> simp_all [Except.toOption]
    case refine_2 =>
      intro x hx
      obtain ⟨seat, hs⟩ := WellFormed.exists_seat ((w.after steps).options ho)
      have hu := makes_of_accesses ho hs hx
      rwa [QueryOption.parse_remembered] at hu

-- A check that fails for want of settings has parsed the text for all that comes.
theorem parsed_once_or_each_time_unsettled :
    let before : List Step := [.scope "s", .context "c" none, .attach "c" "s"]
    let make : Step := .option "o" (some "top(1)") (some "c") (some .plain) none
    let steps : List Step := [.validate "o", .clause "o"]
    let made := ((reached before).step make).2
    ((reached before).step make).1 = .ok (.option "top(1)" none) ∧
      (made.step (.validate "o")).1 = .error (.error (.missingRegistration .settings)) ∧
      ∃ option, (made.after steps).options.get? "o" = some (0, option) ∧
        option.parses = 1 ∧ option.clause = some [.top 1] := by
  intro before make steps made
  have h : ((reached before).step make).1 = .ok (.option "top(1)" none) := rfl
  have hv : (made.step (.validate "o")).1 = .error (.error (.missingRegistration .settings)) := by
    simp only [made, make, before]
    rfl
  refine ⟨h, hv, ?_⟩
  have ⟨n, parser, hn, hp, hs⟩ := parsed_once_or_each_time h
  cases hn
  cases hp
  have ⟨option, ho, hc, _⟩ := hs steps (by simp [steps, Step.made?])
  exact ⟨option, ho, hc⟩

end Session
end RowPipeline
