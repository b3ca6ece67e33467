import RowPipeline.Proofs.Stage.Making

namespace RowPipeline

namespace Clause

-- In a run of the clause on the rows, the step gets the input, as a stage does in a run of stages.
inductive Gets (access : Access) (registry : Registry) : Transformation → List Value → Clause → List Value → Prop
  | head {t ts rows} : Gets access registry t rows (t :: ts) rows
  | tail {t input first ts rows mid} : Makes access registry [first] rows mid → Gets access registry t input ts mid →
    Gets access registry t input (first :: ts) rows
  | branch {t input branches b ts rows} : b ∈ branches → Gets access registry t input b rows →
    Gets access registry t input (.concat branches :: ts) rows

variable {access : Access} {registry : Registry} {clause : Clause} {t : Transformation} {rows input : List Value}

theorem Gets.mem_walk (h : Gets access registry t input clause rows) : t ∈ walk clause := by
  induction h with
  | head => exact mem_walk_cons.mpr (.inl rfl)
  | tail _ _ ih => exact mem_walk_cons.mpr (.inr (.inr ih))
  | branch hb _ ih => exact mem_walk_cons.mpr (.inr (.inl ⟨_, hb, ih⟩))

end Clause

namespace Stage

-- In a run of the stages on the rows, the stage gets the input. All branches of a concatenation get its rows,
-- also those after a branch that fails.
inductive Receives : Stage → List Value → List Stage → List Value → Prop
  | head {stage rest rows} : Receives stage rows (stage :: rest) rows
  | tail {stage input first rest rows mid} : first.run rows = .ok mid → Receives stage input rest mid →
    Receives stage input (first :: rest) rows
  | branch {stage input branches b rest rows} : b ∈ branches → Receives stage input b rows →
    Receives stage input (.concat branches :: rest) rows

variable {access : Access} {registry : Registry} {clause : Clause} {stage : Stage} {stages : List Stage}
  {rows input : List Value}

theorem compileBranches_eq_mapM (branches : List Clause) :
    compileBranches access registry branches = branches.mapM (compileAll access registry) := by
  induction branches with
  | nil => rfl
  | cons b bs ih => rw [compileBranches, List.mapM_cons, ih]

-- Every stage that gets rows is what a step that gets them is compiled to.
theorem Receives.exists_gets (hr : Receives stage input stages rows)
    (hs : compileAll access registry clause = .ok stages) :
    ∃ t, Clause.Gets access registry t input clause rows ∧ compile? access registry t = .ok (some stage) := by
  induction clause using Clause.forall_induction generalizing stages rows with
  | nil =>
    obtain rfl : [] = stages := Except.ok.inj hs
    cases hr
  | cons t ts branches rest =>
    have ⟨first, hf, hs⟩ := bind_eq_ok.mp hs
    have ⟨more, hm, hs⟩ := bind_eq_ok.mp hs
    obtain rfl : first.toList ++ more = stages := Except.ok.inj hs
    have later : ∀ mid, runAll first.toList rows = .ok mid → Receives stage input more mid →
        ∃ u, Clause.Gets access registry u input (t :: ts) rows ∧ compile? access registry u = .ok (some stage) := by
      intro mid hmid hr
      have ⟨u, hu, hc⟩ := rest hr hm
      exact ⟨u, .tail (Clause.makes_singleton.mpr ⟨first, hf, hmid⟩) hu, hc⟩
    cases first with
    | none => exact later rows rfl hr
    | some first =>
      cases hr with
      | head => exact ⟨t, .head, hf⟩
      | tail hmid hr => exact later _ (bind_eq_ok.mpr ⟨_, hmid, rfl⟩) hr
      | branch hb hr =>
        -- Only a concatenation is compiled to one.
        cases t with
        | concat bs =>
          have ⟨compiled, hc, hp⟩ := bind_eq_ok.mp hf
          cases hp
          rw [compileBranches_eq_mapM, mapM_eq_ok] at hc
          have ⟨source, hm, hs⟩ := exists_of_mem_right hc _ hb
          have ⟨u, hu, hc⟩ := branches source hm hr hs
          exact ⟨u, .branch hm hu, hc⟩
        | aggregate | groupBy =>
          have ⟨summaries, _, hp⟩ := bind_eq_ok.mp hf
          cases hp
        | filter | select | orderBy | top | skip | identity => cases hf

theorem Receives.exists_mem_walk (hr : Receives stage input stages rows)
    (hs : compileAll access registry clause = .ok stages) :
    ∃ t ∈ Clause.walk clause, compile? access registry t = .ok (some stage) := by
  obtain ⟨t, hg, hc⟩ := hr.exists_gets hs
  exact ⟨t, hg.mem_walk, hc⟩

theorem Receives.append (h : Receives stage input stages rows) (more : List Stage) :
    Receives stage input (stages ++ more) rows := by
  induction h with
  | head => exact .head
  | tail hm _ ih => exact .tail hm ih
  | branch hb hr _ => exact .branch hb hr

-- What fails in a run is a stage that gets rows. It is no concatenation, for this fails only where one of its
-- branches does.
mutual
theorem exists_receives_of_run {e : EvaluationError} : (stage : Stage) → {rows : List Value} →
    stage.run rows = .error e → ∃ failing input, Receives failing input [stage] rows ∧ failing.run input = .error e ∧
      ∀ branches, failing ≠ .concat branches
  | .concat branches, rows, h => by
    rw [run] at h
    obtain ⟨b, hb, failing, input, hr, hf⟩ := exists_receives_of_runBranches branches h
    exact ⟨failing, input, .branch hb hr, hf⟩
  | .filter .., _, h | .select .., _, h | .orderBy .., _, h | .top _, _, h | .skip _, _, h | .aggregate .., _, h
  | .groupBy .., _, h => ⟨_, _, .head, h, nofun⟩

theorem exists_receives_of_runAll {e : EvaluationError} : (stages : List Stage) → {rows : List Value} →
    runAll stages rows = .error e → ∃ failing input, Receives failing input stages rows ∧ failing.run input = .error e ∧
      ∀ branches, failing ≠ .concat branches
  | [], rows, h => nomatch h
  | stage :: rest, rows, h => by
    rcases bind_eq_error.mp h with h | ⟨mid, hm, h⟩
    case inl =>
      obtain ⟨failing, input, hr, hf⟩ := exists_receives_of_run stage h
      exact ⟨failing, input, hr.append rest, hf⟩
    case inr =>
      obtain ⟨failing, input, hr, hf⟩ := exists_receives_of_runAll rest h
      exact ⟨failing, input, .tail hm hr, hf⟩

theorem exists_receives_of_runBranches {e : EvaluationError} : (branches : List (List Stage)) → {rows : List Value} →
    runBranches branches rows = .error e → ∃ b ∈ branches, ∃ failing input, Receives failing input b rows ∧
      failing.run input = .error e ∧ ∀ branches, failing ≠ .concat branches
  | [], rows, h => nomatch h
  | b :: bs, rows, h => by
    rcases bind_eq_error.mp h with h | ⟨out, ho, h⟩
    case inl =>
      obtain ⟨failing, input, hr, hf⟩ := exists_receives_of_runAll b h
      exact ⟨b, List.mem_cons_self, failing, input, hr, hf⟩
    case inr =>
      obtain ⟨c, hc, hf⟩ := exists_receives_of_runBranches bs (return_eq_error.mp h)
      exact ⟨c, List.mem_cons_of_mem b hc, hf⟩
end

end Stage
end RowPipeline
