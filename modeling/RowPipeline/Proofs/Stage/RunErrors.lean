import RowPipeline.Proofs.Stage.Projection
import RowPipeline.Proofs.Stage.Receiving
import RowPipeline.Proofs.Stage.SortedRows
import RowPipeline.Proofs.Stage.Summarizing

namespace RowPipeline

open OrderItem

variable {access : Access} {registry : Registry} {rows : List Value} {e : EvaluationError}

namespace Summary

def paths : Summary → List PropertyPath
  | property path _ _ => [path]
  | count _ => []

-- The method is called on what some of the rows have at a path.
def Calls (s : Summary) (access : Access) (rows : List Value) (method : Method) (values : List Value) : Prop :=
  ∃ path output group, s = .property path method output ∧ group ⊆ rows ∧
    List.Forall₂ (fun row value => access.read row path = .ok value) group values

theorem exists_calls_of_eval {s : Summary} (hr : ∀ row ∈ rows, ∀ q ∈ s.paths, ∃ value, access.read row q = .ok value)
    (h : s.eval access rows = .error e) :
    ∃ method values, s.Calls access rows method values ∧ method.call values = .error e := by
  cases s with
  | count output => cases h
  | property path method output =>
    obtain ⟨values, hv⟩ := exists_mapM_eq_ok.mpr fun row hm => hr row hm path List.mem_cons_self
    rcases bind_eq_error.mp h with h | ⟨values', hv', h⟩
    case inl => cases hv.symm.trans h
    case inr => exact ⟨method, values', ⟨path, output, rows, rfl, List.Subset.refl rows, mapM_eq_ok.mp hv'⟩, h⟩

theorem Calls.mono {s : Summary} {method : Method} {values group : List Value}
    (h : s.Calls access group method values) (hs : group ⊆ rows) : s.Calls access rows method values := by
  obtain ⟨path, output, inner, he, hi, hr⟩ := h
  exact ⟨path, output, inner, he, List.Subset.trans hi hs, hr⟩

variable {summaries : List Summary}

theorem exists_calls_of_writeAll {out : Members}
    (hr : ∀ s ∈ summaries, ∀ row ∈ rows, ∀ q ∈ s.paths, ∃ value, access.read row q = .ok value)
    (h : writeAll access rows summaries out = .error e) :
    ∃ s ∈ summaries, ∃ method values, s.Calls access rows method values ∧ method.call values = .error e := by
  induction summaries generalizing out with
  | nil => cases h
  | cons s summaries ih =>
    obtain ⟨hs, hr⟩ := List.forall_mem_cons.mp hr
    rcases bind_eq_error.mp h with h | ⟨value, _, h⟩
    case inl => exact ⟨s, List.mem_cons_self, exists_calls_of_eval hs h⟩
    case inr =>
      obtain ⟨s', hs', hc⟩ := ih hr h
      exact ⟨s', List.mem_cons_of_mem s hs', hc⟩

theorem exists_aggregate_of_ofAggregates {aggregates : List Aggregate} {path : PropertyPath} {method : Method}
    {output : String} (h : ofAggregates registry aggregates = .ok summaries)
    (hs : .property path method output ∈ summaries) :
    ∃ name, .property path name output ∈ aggregates ∧ registry.get? name = some method := by
  obtain ⟨a, ha, h⟩ := exists_of_mem_right (mapM_eq_ok.mp h) _ hs
  cases a with
  | count => cases h
  | property path' name output' =>
    rw [ofAggregate] at h
    split at h
    case h_1 m hm =>
      cases h
      exact ⟨name, ha, hm⟩
    case h_2 => cases h

theorem paths_of_ofAggregates {aggregates : List Aggregate} {q : PropertyPath} {s : Summary}
    (h : ofAggregates registry aggregates = .ok summaries) (hs : s ∈ summaries) (hq : q ∈ s.paths) :
    q ∈ aggregates.flatMap Aggregate.paths := by
  cases s with
  | count => cases hq
  | property path method output =>
    obtain ⟨name, ha, -⟩ := exists_aggregate_of_ofAggregates h hs
    exact List.mem_flatMap.mpr ⟨_, ha, hq⟩

end Summary

namespace Stage

def summaries : Stage → List Summary
  | aggregate summaries _ | groupBy _ summaries _ => summaries
  | filter .. | select .. | orderBy .. | top _ | skip _ | concat _ => []

variable {t : Transformation} {stage : Stage} {stages : List Stage}

theorem exists_calls_of_groupRows {properties : List PropertyPath} {summaries : List Summary}
    (hp : ∀ row ∈ rows, ∀ q ∈ properties, ∃ value, access.read row q = .ok value)
    (hr : ∀ s ∈ summaries, ∀ row ∈ rows, ∀ q ∈ s.paths, ∃ value, access.read row q = .ok value)
    (h : groupRows properties summaries access rows = .error e) :
    ∃ s ∈ summaries, ∃ method values, s.Calls access rows method values ∧ method.call values = .error e := by
  rcases bind_eq_error.mp h with h | ⟨keyed, hk, h⟩
  case inl =>
    obtain ⟨before, row, after, rfl, -, h⟩ := mapM_eq_error.mp h
    obtain ⟨keys, hr⟩ := exists_mapM_eq_ok.mpr (hp row (List.mem_append_right before List.mem_cons_self))
    cases hr.symm.trans (return_eq_error.mp h)
  case inr =>
    obtain ⟨before, group, after, hg, -, h⟩ := mapM_eq_error.mp h
    have hm : group ∈ Group.ofRows keyed := by
      rw [hg]
      exact List.mem_append_right before List.mem_cons_self
    have hsub : group.members ⊆ rows := Group.members_subset (keyed_eq_ok.mp hk) hm
    obtain ⟨s, hs, method, values, hc, he⟩ :=
      Summary.exists_calls_of_writeAll (fun s hs row hrow => hr s hs row (hsub hrow)) (return_eq_error.mp h)
    exact ⟨s, hs, method, values, hc.mono hsub, he⟩

-- A stage of which all paths can be read fails with the failure of a method on values of its rows, or because it
-- cannot sort them.
theorem fails_to_sort_or_calls (hc : compile? access registry t = .ok (some stage))
    (hn : ∀ branches, stage ≠ .concat branches)
    (hr : ∀ row ∈ rows, ∀ q ∈ t.paths, ∃ value, access.read row q = .ok value) (h : stage.run rows = .error e) :
    (∃ items, stage = .orderBy items access ∧ ¬CanSort (orderRows access items) rows ∧ e = .orderNotTotal) ∨
    ∃ s ∈ stage.summaries, ∃ method values, s.Calls access rows method values ∧ method.call values = .error e := by
  cases t with
  | identity => cases hc
  | filter condition =>
    cases hc
    obtain ⟨out, ho⟩ := exists_keep fun row hm => condition.exists_eval (hr row hm)
    cases ho.symm.trans h
  | select paths =>
    cases hc
    have hp : ∀ row ∈ rows, ∃ out, (do return Value.object (← project access row paths [])) = .ok out := by
      intro row hm
      obtain ⟨ms, hm⟩ := exists_project (hr row hm) []
      exact ⟨_, bind_eq_ok.mpr ⟨ms, hm, rfl⟩⟩
    obtain ⟨out, ho⟩ := exists_mapM_eq_ok.mpr hp
    cases ho.symm.trans h
  | orderBy items =>
    cases hc
    rcases sortRows_eq_error.mp h with ⟨before, row, after, rfl, -, hf⟩ | ⟨-, hs, rfl⟩
    case inl =>
      obtain ⟨front, item, rest, rfl, -, he⟩ := hf
      have hi : item ∈ front ++ item :: rest := List.mem_append_right front List.mem_cons_self
      obtain ⟨value, hv⟩ :=
        hr row (List.mem_append_right before List.mem_cons_self) item.path (List.mem_map_of_mem hi)
      cases hv.symm.trans he
    case inr => exact .inl ⟨items, rfl, hs, rfl⟩
  | top | skip =>
    cases hc
    cases h
  | aggregate aggregates =>
    obtain ⟨summaries, ho, hp⟩ := bind_eq_ok.mp hc
    cases hp
    have h := return_eq_error.mp (return_eq_error.mp h)
    refine .inr (Summary.exists_calls_of_writeAll (fun s hs row hm q hq => ?_) h)
    exact hr row hm q (Summary.paths_of_ofAggregates ho hs hq)
  | groupBy properties aggregates =>
    obtain ⟨summaries, ho, hp⟩ := bind_eq_ok.mp hc
    cases hp
    refine .inr (exists_calls_of_groupRows (fun row hm q hq => ?_) (fun s hs row hm q hq => ?_) h)
    case refine_1 => exact hr row hm q (List.mem_append_left _ hq)
    case refine_2 => exact hr row hm q (List.mem_append_right _ (Summary.paths_of_ofAggregates ho hs hq))
  | concat branches =>
    obtain ⟨compiled, -, hp⟩ := bind_eq_ok.mp hc
    cases hp
    exact absurd rfl (hn compiled)

-- In a run of the stages on the rows, more rows than are sorted by insertion get to a sorting by keys that rounding
-- confounds.
def Disordered (access : Access) (stages : List Stage) (rows : List Value) : Prop :=
  ∃ items input, Receives (.orderBy items access) input stages rows ∧ insertionLimit < input.length ∧
    Confused access items input

-- If each step can read its paths on all rows it gets, a run fails on a sorting, or on a method.
theorem disordered_or_calls {clause : Clause} (hs : compileAll access registry clause = .ok stages)
    (hr : ∀ t input, Clause.Gets access registry t input clause rows → ∀ row ∈ input, ∀ q ∈ t.paths,
      ∃ value, access.read row q = .ok value)
    (h : runAll stages rows = .error e) :
    (e = .orderNotTotal ∧ Disordered access stages rows) ∨
    ∃ t stage input, Receives stage input stages rows ∧ Clause.Gets access registry t input clause rows ∧
      compile? access registry t = .ok (some stage) ∧ stage.run input = .error e ∧
      ∃ s ∈ stage.summaries, ∃ method values, s.Calls access input method values ∧ method.call values = .error e := by
  obtain ⟨stage, input, hrec, he, hn⟩ := exists_receives_of_runAll stages h
  obtain ⟨t, hg, hc⟩ := hrec.exists_gets hs
  rcases fails_to_sort_or_calls hc hn (hr t input hg) he with ⟨items, rfl, hsort, rfl⟩ | hcalls
  case inl => exact .inl ⟨rfl, items, input, hrec, confused_of_not_canSort hsort⟩
  case inr => exact .inr ⟨t, stage, input, hrec, hg, hc, he, hcalls⟩

end Stage
end RowPipeline
