import RowPipeline.Proofs.Method.Failing
import RowPipeline.Proofs.Stage.Compiling
import RowPipeline.Proofs.Stage.NullHandling
import RowPipeline.Proofs.Stage.RunErrors

namespace RowPipeline

open Access

variable {resolver : Resolver} {registry : Registry} {rows : List Value} {e : EvaluationError}

namespace Access

-- A step into nothing gives null, whatever the resolver finds.
theorem exists_read (resolver : Resolver) (row : Value) (path : PropertyPath) :
    ∃ value, (propagating resolver).read row path = .ok value := by
  have go : ∀ names row, ∃ value, read.go (propagating resolver) path row names = .ok value := by
    intro names
    induction names with
    | nil => exact fun row => ⟨row, rfl⟩
    | cons name rest ih =>
      intro row
      cases hm : resolver.member? row name with
      | some inner => simpa [read.go, propagating, hm] using ih inner
      | none => exact ⟨.null, by simp [read.go, propagating, hm]⟩
  exact go path row

end Access

namespace Stage

variable {t : Transformation} {stage : Stage}

theorem exists_method_of_compile? {access : Access} {path : PropertyPath} {method : Method} {output : String}
    (hc : compile? access registry t = .ok (some stage)) (hs : .property path method output ∈ stage.summaries) :
    ∃ name ∈ t.methods, registry.get? name = some method := by
  cases t with
  | aggregate | groupBy =>
    obtain ⟨summaries, ho, hp⟩ := bind_eq_ok.mp hc
    cases hp
    obtain ⟨name, ha, hg⟩ := Summary.exists_aggregate_of_ofAggregates ho hs
    exact ⟨name, List.mem_filterMap.mpr ⟨_, ha, rfl⟩, hg⟩
  | concat branches =>
    obtain ⟨compiled, -, hp⟩ := bind_eq_ok.mp hc
    cases hp
    cases hs
  | filter | select | orderBy | top | skip =>
    cases hc
    cases hs
  | identity => cases hc

-- A sum or an average meets a value that is neither null nor a number.
def FailsToAdd (stage : Stage) (resolver : Resolver) (rows : List Value) (method : Method) (e : EvaluationError) :
    Prop :=
  (method = .sum ∨ method = .average) ∧ ∃ s ∈ stage.summaries, ∃ values,
    s.Calls (propagating resolver) rows method values ∧ method.call values = .error e ∧
      ∃ v, values.find? Value.isNonNumeric = some v ∧ e = .nonNumeric v

end Stage

namespace Clause

variable {clause : Clause} {handling : NullHandling}

-- Reads do not fail, so what fails in a run is a sorting, or a stage that calls a method of the clause.
theorem disordered_or_failsToAdd {stages : List Stage}
    (hw : ∀ t ∈ walk clause, ∀ name ∈ t.methods, ∃ method ∈ Method.builtins, registry.get? name = some method)
    (hs : Stage.compileAll (propagating resolver) registry clause = .ok stages)
    (h : Stage.runAll stages rows = .error e) :
    (e = .orderNotTotal ∧ Stage.Disordered (propagating resolver) stages rows) ∨
    ∃ stage input method, Stage.Receives stage input stages rows ∧ stage.run input = .error e ∧
      stage.FailsToAdd resolver input method e ∧ ∃ t ∈ walk clause, method.name ∈ t.methods := by
  have hr : ∀ t input, Gets (propagating resolver) registry t input clause rows → ∀ row ∈ input, ∀ q ∈ t.paths,
      ∃ value, (propagating resolver).read row q = .ok value := fun _ _ _ row _ q _ => Access.exists_read resolver row q
  refine (Stage.disordered_or_calls hs hr h).imp_right ?_
  rintro ⟨t, stage, input, hrec, hg, hc, he, s, hm, method, values, hcall, hf⟩
  obtain ⟨name, hname, hmethod⟩ : ∃ name ∈ t.methods, registry.get? name = some method := by
    obtain ⟨path, output, -, rfl, -⟩ := hcall
    exact Stage.exists_method_of_compile? hc hm
  obtain ⟨builtin, hb, hbuiltin⟩ := hw t hg.mem_walk name hname
  cases hmethod.symm.trans hbuiltin
  obtain ⟨ha, hv⟩ := Method.builtin_call_eq_error hb hf
  have he' : method.name = name := by simpa using List.find?_some hmethod
  exact ⟨stage, input, method, hrec, he, ⟨ha, s, hm, values, hcall, hf, hv⟩, t, hg.mem_walk, he' ▸ hname⟩

-- With methods that are always there and propagating nulls, a clause runs on all rows, but for two failures. A sum or
-- an average can fail, on a value that is neither null nor a number, and so can the sorting of many rows, where keys
-- are confounded.
theorem execute_builtins (hh : handling ≠ .refuse)
    (hm : ∀ place t, clause.OccursAt place t → ∀ name ∈ t.methods,
      ∃ method ∈ Method.builtins, registry.get? name = some method) :
    ∃ stages, Stage.ofClause clause resolver ⟨handling⟩ registry = .ok stages ∧
      ((∀ place t, clause.OccursAt place t → ∀ name ∈ t.methods, name ∈ ["min", "max", "countdistinct"]) →
        (∃ out, ((Query.ofRows rows).compose stages).execute = .ok out) ∨
        ((Query.ofRows rows).compose stages).execute = .error .orderNotTotal ∧
          Stage.Disordered (propagating resolver) stages rows) ∧
      ∀ e, ((Query.ofRows rows).compose stages).execute = .error e →
        (e = .orderNotTotal ∧ Stage.Disordered (propagating resolver) stages rows) ∨
        ∃ stage input method, Stage.Receives stage input stages rows ∧ stage.run input = .error e ∧
          stage.FailsToAdd resolver input method e := by
  rw [Stage.ofClause, eq_propagating hh]
  have hw : ∀ t ∈ walk clause, ∀ name ∈ t.methods, ∃ method ∈ Method.builtins, registry.get? name = some method := by
    intro t ht
    obtain ⟨place, ho⟩ := mem_walk_iff_occursAt.mp ht
    exact hm place t ho
  have hi : ∀ t ∈ walk clause, ∀ name ∈ t.methods, (registry.get? name).isSome := by
    intro t ht name hn
    obtain ⟨method, -, hg⟩ := hw t ht name hn
    rw [hg]
    rfl
  obtain ⟨stages, hs⟩ := Stage.exists_compileAll hi
  refine ⟨stages, hs, fun hn => ?_, fun e he => ?_⟩
  case refine_1 =>
    cases hr : Stage.runAll stages rows with
    | ok out => exact .inl ⟨out, hr⟩
    | error e =>
      rcases disordered_or_failsToAdd hw hs hr with ⟨rfl, hd⟩ | ⟨_, _, method, -, -, ⟨ha, -⟩, t, ht, hname⟩
      case inl => exact .inr ⟨hr, hd⟩
      case inr =>
        obtain ⟨place, ho⟩ := mem_walk_iff_occursAt.mp ht
        have hl := hn place t ho method.name hname
        rcases ha with rfl | rfl
        case inl => exact absurd hl (by decide)
        case inr => exact absurd hl (by decide)
  case refine_2 =>
    refine (disordered_or_failsToAdd hw hs he).imp_right ?_
    rintro ⟨stage, input, method, hr, hrun, hf, -⟩
    exact ⟨stage, input, method, hr, hrun, hf⟩

-- Not all rows are objects. The greatest value is a text, and there is no average of texts.
theorem execute_builtins_text :
    let rows : List Value := [.int 3, .object [("A", .string "x")], .null]
    let greatest : Clause := [.concat [[.groupBy [["A", "B"]] (some [.property ["A"] "max" "M", .count "N"])], []]]
    let average : Clause := [.concat [greatest, [.aggregate [.property ["A"] "average" "M"]]]]
    (∀ place t, average.OccursAt place t → ∀ name ∈ t.methods,
      ∃ method ∈ Method.builtins, Registry.builtins.get? name = some method) ∧
    (∃ stages out, Stage.ofClause greatest .exact ⟨.unspecified⟩ .builtins = .ok stages ∧
      ((Query.ofRows rows).compose stages).execute = .ok out) ∧
    ∃ stages, Stage.ofClause average .exact ⟨.unspecified⟩ .builtins = .ok stages ∧
      ((Query.ofRows rows).compose stages).execute = .error (.nonNumeric (.string "x")) ∧
      ∃ stage input method, Stage.Receives stage input stages rows ∧
        stage.FailsToAdd .exact input method (.nonNumeric (.string "x")) := by
  intro rows greatest average
  have hg : ∀ t ∈ walk greatest, ∀ name ∈ t.methods, name = "max" := by
    simp [greatest, walk, walkInside, walkBranches, Transformation.methods, Transformation.aggregates,
      Aggregate.method?]
  have ha : ∀ t ∈ walk average, ∀ name ∈ t.methods, name = "max" ∨ name = "average" := by
    simp [average, greatest, walk, walkInside, walkBranches, Transformation.methods, Transformation.aggregates,
      Aggregate.method?]
  have hm : ∀ place t, average.OccursAt place t → ∀ name ∈ t.methods,
      ∃ method ∈ Method.builtins, Registry.builtins.get? name = some method := by
    intro place t ho name hn
    rcases ha t (mem_walk_iff_occursAt.mpr ⟨place, ho⟩) name hn with rfl | rfl
    case inl => exact ⟨.max, by simp [Method.builtins], rfl⟩
    case inr => exact ⟨.average, by simp [Method.builtins], rfl⟩
  have hg' : ∀ place t, greatest.OccursAt place t → ∀ name ∈ t.methods, name = "max" :=
    fun place t ho => hg t (mem_walk_iff_occursAt.mpr ⟨place, ho⟩)
  have hx : ∀ name, name = "max" → ∃ method ∈ Method.builtins, Registry.builtins.get? name = some method := by
    rintro _ rfl
    exact ⟨.max, by simp [Method.builtins], rfl⟩
  refine ⟨hm, ?_, ?_⟩
  case refine_1 =>
    obtain ⟨stages, hs, ho, -⟩ := @execute_builtins .exact .builtins rows greatest .unspecified (by decide)
      fun place t ht name hn => hx name (hg' place t ht name hn)
    have ho := ho fun place t ht name hn => by simp [hg' place t ht name hn]
    rcases ho with ⟨out, ho⟩ | ⟨he, -⟩
    case inl => exact ⟨stages, out, hs, ho⟩
    case inr =>
      cases hs
      cases he
  case refine_2 =>
    obtain ⟨stages, hs, -, hf⟩ := @execute_builtins .exact .builtins rows average .unspecified (by decide) hm
    have he : ((Query.ofRows rows).compose stages).execute = .error (.nonNumeric (.string "x")) := by
      cases hs
      rfl
    rcases hf _ he with ⟨hx, -⟩ | ⟨stage, input, method, hr, -, hf⟩
    case inl => cases hx
    case inr => exact ⟨stages, hs, he, stage, input, method, hr, hf⟩

-- Between two integers that differ stands a number that is equal to both of them.
theorem execute_orderBy_confused :
    let row (k : Value) : Value := .object [("K", k)]
    let rows := [row (.int 1), row (.int 0)] ++ List.replicate 7 (row (.int 9007199254740993)) ++
      [row (.ofFloat? (Binary64.ofInt 9007199254740992))] ++ List.replicate 11 (row (.int 9007199254740992))
    let clause : Clause := [.orderBy [⟨["K"], .ascending⟩]]
    (∀ place t, clause.OccursAt place t → t.methods = []) ∧
      ∃ stages, Stage.ofClause clause .exact ⟨.unspecified⟩ .builtins = .ok stages ∧
        ((Query.ofRows rows).compose stages).execute = .error .orderNotTotal := by
  intro row rows clause
  let item : OrderItem := ⟨["K"], .ascending⟩
  have hm : ∀ t ∈ walk clause, t.methods = [] := by
    simp [clause, walk, walkInside, Transformation.methods, Transformation.aggregates]
  have hr : ∀ row ∈ rows, ∀ i ∈ [item], ∃ value, (propagating .exact).read row i.path = .ok value :=
    fun row _ i _ => Access.exists_read .exact row i.path
  have hk : ∀ k, item.key (propagating .exact) (row k) = k := fun _ => rfl
  have hc : OrderItem.Confused (propagating .exact) [item] rows := by
    refine ⟨item, List.mem_cons_self, row (.int 9007199254740993), by simp [rows],
      row (.ofFloat? (Binary64.ofInt 9007199254740992)), by simp [rows], row (.int 9007199254740992), by simp [rows], ?_⟩
    rw [hk, hk, hk]
    exact Value.confounds_two_pow
  have hs : ¬CanSort (OrderItem.orderRows (propagating .exact) [item]) rows :=
    not_or.mpr ⟨by simp [rows, insertionLimit], OrderItem.not_isTotalOn_of_confused hc⟩
  have he : Stage.sortRows [item] (propagating .exact) rows = .error .orderNotTotal :=
    Stage.sortRows_eq_error.mpr (.inr ⟨hr, hs, rfl⟩)
  exact ⟨fun place t ho => hm t (mem_walk_iff_occursAt.mpr ⟨place, ho⟩), _, rfl, bind_eq_error.mpr (.inl he)⟩

end Clause
end RowPipeline
