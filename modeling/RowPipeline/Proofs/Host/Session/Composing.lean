import RowPipeline.Proofs.Host.Session.Remembering
import RowPipeline.Proofs.Clause.Contents

namespace RowPipeline

namespace Stage

-- How a stage reads members of rows, in its branches as well.
mutual
def accesses : Stage → List Access
  | filter _ access | select _ access | orderBy _ access | aggregate _ access | groupBy _ _ access => [access]
  | top _ | skip _ => []
  | concat branches => branchAccesses branches

def allAccesses : List Stage → List Access
  | [] => []
  | stage :: rest => accesses stage ++ allAccesses rest

def branchAccesses : List (List Stage) → List Access
  | [] => []
  | branch :: rest => allAccesses branch ++ branchAccesses rest
end

variable {access : Access} {registry : Registry} {t : Transformation} {clause : Clause} {stage : Stage}
  {stages : List Stage} {branches : List Clause} {compiled : List (List Stage)}

theorem accesses_compileBranches
    (hb : ∀ b ∈ branches, ∀ stages, compileAll access registry b = .ok stages → ∀ a ∈ allAccesses stages, a = access)
    (h : compileBranches access registry branches = .ok compiled) : ∀ a ∈ branchAccesses compiled, a = access := by
  induction branches generalizing compiled with
  | nil =>
    obtain rfl : [] = compiled := Except.ok.inj h
    exact nofun
  | cons b bs ih =>
    have ⟨stages, hs, h⟩ := bind_eq_ok.mp h
    have ⟨rest, hr, h⟩ := bind_eq_ok.mp h
    obtain rfl : stages :: rest = compiled := Except.ok.inj h
    have ⟨hf, hb⟩ := List.forall_mem_cons.mp hb
    exact List.forall_mem_append.mpr ⟨hf _ hs, ih hb hr⟩

theorem accesses_compile?
    (hb : ∀ b ∈ t.branches, ∀ stages, compileAll access registry b = .ok stages → ∀ a ∈ allAccesses stages, a = access)
    (h : compile? access registry t = .ok (some stage)) : ∀ a ∈ accesses stage, a = access := by
  cases t with
  | identity => simp [compile?] at h
  | filter | select | orderBy | top | skip =>
    obtain rfl := Option.some.inj (Except.ok.inj h)
    simp [accesses]
  | aggregate | groupBy =>
    obtain ⟨summaries, _, h⟩ := bind_eq_ok.mp h
    obtain rfl := Option.some.inj (Except.ok.inj h)
    simp [accesses]
  | concat branches =>
    obtain ⟨compiled, hc, h⟩ := bind_eq_ok.mp h
    obtain rfl := Option.some.inj (Except.ok.inj h)
    exact accesses_compileBranches hb hc

-- All stages of a clause read members in the way that the clause was compiled with.
theorem accesses_compileAll (h : compileAll access registry clause = .ok stages) :
    ∀ a ∈ allAccesses stages, a = access := by
  induction clause using Clause.forall_induction generalizing stages with
  | nil =>
    obtain rfl : [] = stages := Except.ok.inj h
    exact nofun
  | cons t ts branches rest =>
    have ⟨stage, hs, h⟩ := bind_eq_ok.mp h
    have ⟨more, hm, h⟩ := bind_eq_ok.mp h
    obtain rfl : stage.toList ++ more = stages := Except.ok.inj h
    cases stage with
    | none => exact rest hm
    | some stage =>
      exact List.forall_mem_append.mpr ⟨accesses_compile? (fun b hb _ => branches b hb) hs, rest hm⟩

end Stage

-- The name that a step puts a query under.
def Step.queryPut? : Step → Option String
  | .query name _ | .applyTo _ _ name _ | .compose _ _ name _ => some name
  | _ => none

namespace Session

open RowPipeline.Action

variable {s : Session} {steps later : List Step} {n : Nat} {seat : Seat} {x : Step} {id query into name : String}
  {settings : Option Value}

-- The resolver that was registered last in the scope of a context, or else the exact one.
def resolverOf (steps : List Step) (n : Nat) : Resolver :=
  ((attached steps n).bind (Slot.resolver.registered steps)).getD Resolver.exact

theorem active_eq_resolverOf (hs : (reached steps).seat? n = some seat) :
    Resolver.active ((reached steps).scopeOf seat.context) = resolverOf steps n := by
  rw [scopeOf_eq hs, resolverOf]
  rcases ha : attached steps n with _ | k
  case none => rfl
  case some =>
    obtain ⟨scope, hl⟩ := live?_of_attached ha
    rw [Option.bind_some, Option.bind_some, hl, ← Slot.held_eq_registered Slot.lawful_resolver hl]
    rfl

theorem queries_step (hx : x.queryPut? ≠ some name) : (s.step x).2.queries.get? name = s.queries.get? name := by
  apply (sameBut_step s x).query
  cases x <;> simp_all [Step.parts, Step.queryPut?, eq_comm]

theorem queries_after (hl : ∀ x ∈ later, x.queryPut? ≠ some name) :
    (s.after later).queries.get? name = s.queries.get? name := by
  induction later using List.reverseRecOn with
  | nil => rfl
  | append_singleton later x ih =>
    rw [after_concat, queries_step (hl x (by simp))]
    exact ih fun y hy => hl y (List.mem_append_left _ hy)

-- Only the query counts for what its execution returns.
theorem step_execute_congr {s' : Session} (h : s'.queries.get? name = s.queries.get? name) :
    (s'.step (.execute name)).1 = (s.step (.execute name)).1 := by
  show ((execute name).on s').1 = ((execute name).on s).1
  cases hq : s.queries.get? name <;> simp [execute, h, hq]

-- The query has the stages of the option's clause behind those of the source, and they read members with
-- this resolver.
structure Applied (resolver : Resolver) (option : QueryOption) (settings : Settings) (source query : Query) : Prop where
  rows   : query.rows = source.rows
  stages : ∃ clause stages, option.parse.1 = .ok clause ∧
    Stage.ofClause clause resolver settings option.registry = .ok stages ∧
    (∀ access ∈ Stage.allAccesses stages, access.resolver = resolver) ∧ query.stages = source.stages ++ stages

theorem Applied.of_applyTo {option : QueryOption} {live : Option Scope} {source made : Query} {applied : Settings}
    (h : (option.applyTo live source applied).1 = .ok made) :
    Applied (Resolver.active live) option applied source made := by
  obtain ⟨clause, hp, stages, hs, rfl⟩ := QueryOption.applyTo_fst_eq_ok.mp h
  exact ⟨rfl, clause, stages, hp, hs, fun a ha => Stage.accesses_compileAll hs a ha ▸ rfl, rfl⟩

-- An application fails and leaves all queries as they are, or it puts a new one under its name.
theorem step_applyTo_cases (steps : List Step) (id query into : String) (settings : Option Value) :
    (∃ e, ((reached steps).step (.applyTo id query into settings)).1 = .error e ∧
      ((reached steps).step (.applyTo id query into settings)).2.queries = (reached steps).queries) ∨
    ∃ n option source applied made, (reached steps).options.get? id = some (n, option) ∧
      (reached steps).queries.get? query = some source ∧ Settings.given? settings = some applied ∧
      ((reached steps).step (.applyTo id query into settings)).1 = .ok (.text made.text) ∧
      ((reached steps).step (.applyTo id query into settings)).2.queries = (reached steps).queries.put into made ∧
      Applied (resolverOf steps n) option applied source made := by
  cases ha : (reached steps).accesses id (.applyTo id query into settings) with
  | false =>
    obtain ⟨e, he⟩ := step_applyTo_of_not_accesses (.inr ha)
    exact .inl ⟨e, by rw [he], by rw [he]⟩
  | true =>
    rcases ho : (reached steps).options.get? id with _ | ⟨n, option⟩
    case none =>
      obtain ⟨e, he⟩ := step_applyTo_of_not_accesses (.inl ho)
      exact .inl ⟨e, by rw [he], by rw [he]⟩
    case some =>
      obtain ⟨source, applied, hq, hg⟩ := of_accesses_applyTo ha
      obtain ⟨seat, hs⟩ := WellFormed.exists_seat ((wellFormed_reached steps).options ho)
      rw [step_applyTo ho hq hg hs]
      rcases hr : option.applyTo ((reached steps).scopeOf seat.context) source applied with ⟨e | made, left⟩
      case error => exact .inl ⟨.error e, rfl, rfl⟩
      case ok =>
        have h := Applied.of_applyTo (congrArg Prod.fst hr)
        rw [active_eq_resolverOf hs] at h
        exact .inr ⟨n, option, source, applied, made, rfl, hq, hg, rfl, rfl, h⟩

theorem applied_with_resolver_of_moment (steps : List Step) (id query into : String) (settings : Option Value) :
    let s := reached steps
    let s' := (s.step (.applyTo id query into settings)).2
    (∀ reply, (s.step (.applyTo id query into settings)).1 = .ok reply → ∃ n option source applied made,
      s.options.get? id = some (n, option) ∧ s.queries.get? query = some source ∧
      Settings.given? settings = some applied ∧ s'.queries.get? into = some made ∧
      Applied (resolverOf steps n) option applied source made) ∧
    (∀ e, (s.step (.applyTo id query into settings)).1 = .error e → s'.queries = s.queries) ∧
    (∀ name, name ≠ into → s'.queries.get? name = s.queries.get? name) ∧
    ∀ name later, (∀ x ∈ later, x.queryPut? ≠ some name) →
      (s'.after later).queries.get? name = s'.queries.get? name ∧
      ((s'.after later).step (.execute name)).1 = (s'.step (.execute name)).1 := by
  intro s s'
  have hc := step_applyTo_cases steps id query into settings
  refine ⟨?_, ?_, ?_, ?_⟩
  case refine_1 =>
    intro reply hr
    rcases hc with ⟨e, he, _⟩ | ⟨n, option, source, applied, made, ho, hq, hg, _, hm, h⟩
    case inl => exact absurd (he.symm.trans hr) nofun
    case inr => exact ⟨n, option, source, applied, made, ho, hq, hg, hm ▸ Table.get?_put_self _ _ _, h⟩
  case refine_2 =>
    intro e he
    rcases hc with ⟨_, _, hq⟩ | ⟨_, _, _, _, _, _, _, _, hr, _⟩
    case inl => exact hq
    case inr => exact absurd (he.symm.trans hr) nofun
  case refine_3 =>
    intro name hn
    exact queries_step (by simpa [Step.queryPut?] using hn.symm)
  case refine_4 =>
    intro name later hl
    exact ⟨queries_after hl, step_execute_congr (queries_after hl)⟩

-- The rows are read with the resolver that has been removed since, and those of a later application are not.
theorem applied_with_resolver_of_moment_removed :
    let steps : List Step := [.scope "s", .register "s" (.resolver .caseInsensitive), .context "c" none,
      .attach "c" "s", .option "o" (some "select(A)") (some "c") (some .plain) none,
      .query "q" [.object [("a", .int 1)]]]
    let s' := ((reached steps).step (.applyTo "o" "q" "before" none)).2
    let later : List Step := [.remove "s" .resolver, .applyTo "o" "q" "behind" none, .dropScope "s"]
    ((s'.after later).step (.execute "before")).1 = .ok (.rows [.object [("A", .int 1)]]) ∧
      ((s'.after later).step (.execute "behind")).1 = .ok (.rows [.object [("A", .null)]]) := by
  intro steps s' later
  have ⟨_, _, _, h⟩ := applied_with_resolver_of_moment steps "o" "q" "before" none
  have ⟨_, hr⟩ := h "before" later (by simp [later, Step.queryPut?])
  refine ⟨hr.trans ?_, ?_⟩
  case refine_1 =>
    simp only [steps]
    rfl
  case refine_2 =>
    simp only [s', steps, later]
    rfl

end Session
end RowPipeline
