import RowPipeline.Proofs.Clause.Places
import RowPipeline.Proofs.Clause.RoundTrip
import RowPipeline.Proofs.Host.Applying
import RowPipeline.Proofs.Stage.Receiving

namespace RowPipeline

namespace Defaults

-- The settings forbid the transformation, for this reason.
inductive Forbids (defaults : Defaults) : Transformation → ValidationError → Prop
  | filter {condition} : defaults.enableFilter = false → Forbids defaults (.filter condition) .filterNotAllowed
  | orderBy {items} : defaults.enableOrderBy = false → Forbids defaults (.orderBy items) .orderByNotAllowed
  | top {n limit} : defaults.maxTop = some limit → limit < n → Forbids defaults (.top n) (.topTooLarge n limit)
  | aggregate {aggregates output} : defaults.enableCount = false → .count output ∈ aggregates →
    Forbids defaults (.aggregate aggregates) .countNotAllowed
  | groupBy {properties aggregates output} : defaults.enableCount = false → .count output ∈ aggregates →
    Forbids defaults (.groupBy properties (some aggregates)) .countNotAllowed

-- The settings forbid what the stage does.
inductive ForbidsStage (defaults : Defaults) : Stage → Prop
  | filter {condition access} : defaults.enableFilter = false → ForbidsStage defaults (.filter condition access)
  | orderBy {items access} : defaults.enableOrderBy = false → ForbidsStage defaults (.orderBy items access)
  | top {n limit} : defaults.maxTop = some limit → limit < n → ForbidsStage defaults (.top n)
  | aggregate {summaries access output} : defaults.enableCount = false → .count output ∈ summaries →
    ForbidsStage defaults (.aggregate summaries access)
  | groupBy {properties summaries access output} : defaults.enableCount = false → .count output ∈ summaries →
    ForbidsStage defaults (.groupBy properties summaries access)

variable {defaults : Defaults} {t : Transformation} {e : ValidationError} {aggregates : List Aggregate}

theorem counts_iff : Transformation.counts aggregates ↔ ∃ output, .count output ∈ aggregates := by
  rw [Transformation.counts, List.any_eq_true]
  constructor
  case mp =>
    rintro ⟨a, ha, hc⟩
    cases a with
    | count output => exact ⟨output, ha⟩
    | property => contradiction
  case mpr => exact fun ⟨output, h⟩ => ⟨_, h, rfl⟩

theorem countRule_eq_some :
    (if !defaults.enableCount && Transformation.counts aggregates then some ValidationError.countNotAllowed
      else none) = some e ↔
      defaults.enableCount = false ∧ (∃ output, .count output ∈ aggregates) ∧ e = .countNotAllowed := by
  rw [Option.ite_none_right_eq_some, Bool.and_eq_true, Bool.not_eq_true', counts_iff, Option.some_inj, and_assoc,
    eq_comm (a := e)]

theorem violation?_eq_some : t.violation? defaults = some e ↔ defaults.Forbids t e := by
  constructor
  case mp =>
    intro h
    cases t with
    | filter condition =>
      obtain ⟨hf, rfl⟩ : defaults.enableFilter = false ∧ _ = e := by simpa [Transformation.violation?] using h
      exact .filter hf
    | orderBy items =>
      obtain ⟨ho, rfl⟩ : defaults.enableOrderBy = false ∧ _ = e := by simpa [Transformation.violation?] using h
      exact .orderBy ho
    | top n =>
      rw [Transformation.violation?] at h
      split at h
      case h_1 limit hl =>
        have ⟨hn, he⟩ := Option.ite_none_right_eq_some.mp h
        cases he
        exact .top hl hn
      case h_2 => contradiction
    | aggregate aggregates =>
      obtain ⟨hc, ⟨output, ho⟩, rfl⟩ := countRule_eq_some.mp h
      exact .aggregate hc ho
    | groupBy properties aggregates =>
      cases aggregates with
      | none => contradiction
      | some aggregates =>
        obtain ⟨hc, ⟨output, ho⟩, rfl⟩ := countRule_eq_some.mp h
        exact .groupBy hc ho
    | select | skip | concat | identity => contradiction
  case mpr =>
    intro h
    cases h with
    | filter hf => simp [Transformation.violation?, hf]
    | orderBy ho => simp [Transformation.violation?, ho]
    | top hl hn => simp [Transformation.violation?, hl, hn]
    | aggregate hc ho => exact countRule_eq_some.mpr ⟨hc, ⟨_, ho⟩, rfl⟩
    | groupBy hc ho => exact countRule_eq_some.mpr ⟨hc, ⟨_, ho⟩, rfl⟩

theorem violation?_eq_none : t.violation? defaults = none ↔ ∀ e, ¬defaults.Forbids t e := by
  simp only [Option.eq_none_iff_forall_ne_some, ne_eq, violation?_eq_some]

theorem validate_eq_ok {clause : Clause} : clause.validate defaults = .ok () ↔
    ∀ place t, Clause.OccursAt place t clause → ∀ e, ¬defaults.Forbids t e := by
  simp only [← violation?_eq_none, ← Clause.findSome?_walk_eq_none]
  rw [Clause.validate]
  cases (Clause.walk clause).findSome? (Transformation.violation? defaults) <;> simp

theorem validate_eq_error {clause : Clause} : clause.validate defaults = .error e ↔
    clause.Foremost defaults.Forbids e := by
  have hf : (fun t e => Transformation.violation? defaults t = some e) = defaults.Forbids :=
    funext₂ fun _ _ => propext violation?_eq_some
  rw [← hf, ← Clause.findSome?_walk_eq_some, Clause.validate]
  cases (Clause.walk clause).findSome? (Transformation.violation? defaults) <;> simp

variable {access : Access} {registry : Registry} {stage : Stage} {summaries : List Summary} {output : String}

-- An aggregate that counts rows is no other after its method has been looked for.
theorem count_mem_of_ofAggregates (hs : Summary.ofAggregates registry aggregates = .ok summaries)
    (h : .count output ∈ summaries) : .count output ∈ aggregates := by
  have ⟨a, ha, hc⟩ := exists_of_mem_right (mapM_eq_ok.mp hs) _ h
  cases a with
  | count => cases hc; exact ha
  | property path method output =>
    rw [Summary.ofAggregate] at hc
    split at hc <;> cases hc

theorem exists_forbids_of_compile? (hc : Stage.compile? access registry t = .ok (some stage))
    (h : defaults.ForbidsStage stage) : ∃ e, defaults.Forbids t e := by
  cases t with
  | filter | orderBy | top =>
    cases hc
    cases h
    exact ⟨_, by constructor <;> assumption⟩
  | select | skip =>
    cases hc
    cases h
  | identity => cases hc
  | aggregate aggregates =>
    have ⟨summaries, hs, hp⟩ := bind_eq_ok.mp hc
    cases hp
    cases h with
    | aggregate he ho => exact ⟨_, .aggregate he (count_mem_of_ofAggregates hs ho)⟩
  | groupBy properties aggregates =>
    have ⟨summaries, hs, hp⟩ := bind_eq_ok.mp hc
    cases hp
    cases h with
    | groupBy he ho =>
      have hm := count_mem_of_ofAggregates hs ho
      cases aggregates with
      | none => cases hm
      | some aggregates => exact ⟨_, .groupBy he hm⟩
  | concat branches =>
    have ⟨compiled, _, hp⟩ := bind_eq_ok.mp hc
    cases hp
    cases h

end Defaults

namespace QueryOption

variable {option : QueryOption} {context : Context} {live : Option Scope} {serial : Nat} {clause : Clause}
  {defaults : Instance Defaults}

theorem validate_finds_forbidden (hp : option.parse.1 = .ok clause) (hd : (context.settle live serial).1 = .ok defaults) :
    ((option.validate context live serial).1 = .ok () ↔
      ∀ place t, clause.OccursAt place t → ∀ e, ¬defaults.value.Forbids t e) ∧
    (∀ e, (option.validate context live serial).1 = .error e ↔
      ∃ reason, clause.Foremost defaults.value.Forbids reason ∧ e = .validation reason) ∧
    ((option.validate context live serial).1 = .ok () → ∀ resolver settings registry stages,
      Stage.ofClause clause resolver settings registry = .ok stages →
        ∀ rows stage input, Stage.Receives stage input stages rows → ¬defaults.value.ForbidsStage stage) := by
  have hv : (option.validate context live serial).1 = (clause.validate defaults.value).mapError .validation := by
    rw [validate_fst, hp, hd]
    rfl
  have hok : (option.validate context live serial).1 = .ok () ↔
      ∀ place t, clause.OccursAt place t → ∀ e, ¬defaults.value.Forbids t e := by
    rw [hv, mapError_eq_ok, Defaults.validate_eq_ok]
  refine ⟨hok, fun e => ?_, ?_⟩
  case refine_1 => simp only [hv, mapError_eq_error, Defaults.validate_eq_error]
  case refine_2 =>
    intro h resolver settings registry stages hs rows stage input hr hf
    have ⟨t, ht, hc⟩ := hr.exists_mem_walk hs
    have ⟨place, ho⟩ := Clause.mem_walk_iff_occursAt.mp ht
    have ⟨e, he⟩ := Defaults.exists_forbids_of_compile? hc hf
    exact hok.mp h place t ho e he

-- The limit is exceeded two branches deep, and comes before the filter, which is forbidden as well.
theorem validate_finds_forbidden_nested :
    let defaults : Defaults := { Defaults.standard with enableFilter := false, maxTop := some 5 }
    let text := " concat ( identity , concat ( top ( 9 ) , filter ( A ) ) ) "
    let option : QueryOption := .remembered text (.standard none) .builtins 0
    let live : Option Scope := some { Scope.empty with defaults := some ⟨0, defaults⟩ }
    let clause : Clause := [.concat [[.identity], [.concat [[.top 9], [.filter (.truthy (.path ["A"]))]]]]]
    option.parse.1 = .ok clause ∧ ((Context.ofRoute none).settle live 1).1 = .ok ⟨0, defaults⟩ ∧
      (option.validate (Context.ofRoute none) live 1).1 = .error (.validation (.topTooLarge 9 5)) ∧
      clause.Foremost defaults.Forbids (.topTooLarge 9 5) := by
  intro defaults text option live clause
  have ha : IsIdentifier "A" := by decide
  have hw : clause.WellFormed := by
    refine ⟨List.cons_ne_nil _ _, ?_⟩
    simpa [clause, Clause.walk, Clause.walkInside, Clause.walkBranches, Transformation.WellFormed, Filter.WellFormed,
      Operand.WellFormed, Operand.StartsWithNot, PropertyPath.WellFormed, PropertyPath.StartsOperand] using ha
  have hx : ∀ t ∈ Clause.walk clause, ∀ v ∈ t.literals, ¬v.IsFloat := by
    simp [clause, Clause.walk, Clause.walkInside, Clause.walkBranches, Transformation.literals, Filter.literals,
      Operand.literals]
  have ht : clause.render (fun _ => " ") = text := rfl
  have hp : option.parse.1 = .ok clause := by
    simp only [option, parse_remembered, ClauseParser.parse_standard, ← ht]
    exact Clause.parse_render hw hx Clause.isSpacing_blank
  have hd : ((Context.ofRoute none).settle live 1).1 = .ok ⟨0, defaults⟩ := rfl
  have he : (option.validate (Context.ofRoute none) live 1).1 = .error (.validation (.topTooLarge 9 5)) := by
    rw [validate_fst, hp, hd]
    rfl
  obtain ⟨reason, hf, hr⟩ := ((validate_finds_forbidden hp hd).right.left _).mp he
  cases hr
  exact ⟨hp, hd, he, hf⟩

end QueryOption
end RowPipeline
