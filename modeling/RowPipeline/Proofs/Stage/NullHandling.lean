import RowPipeline.Host.Query
import RowPipeline.Method.Builtin
import RowPipeline.Proofs.Clause.Contents
import RowPipeline.Proofs.Stage.Making

namespace RowPipeline

namespace Access

-- Nulls are refused: no step into null or from a missing member.
def refusing (resolver : Resolver) : Access where
  resolver        := resolver
  propagatesNulls := false

def propagating (resolver : Resolver) : Access where
  resolver        := resolver
  propagatesNulls := true

variable {resolver : Resolver}

theorem eq_propagating {handling : NullHandling} (h : handling ≠ .refuse) :
    (⟨resolver, Settings.propagatesNulls ⟨handling⟩⟩ : Access) = propagating resolver := by
  cases handling with
  | unspecified | propagate => rfl
  | refuse => contradiction

theorem succeedsAs_read (row : Value) (path : PropertyPath) :
    SucceedsAs ((refusing resolver).read row path) ((propagating resolver).read row path) := by
  have go : ∀ names row, SucceedsAs (read.go (refusing resolver) path row names)
      (read.go (propagating resolver) path row names) := by
    intro names
    induction names with
    | nil => exact fun _ => .rfl
    | cons name rest ih =>
      intro row value h
      rw [read.go] at h ⊢
      by_cases hn : row.isNull
      case pos => simp [refusing, hn] at h
      case neg =>
        simp only [refusing, propagating, hn] at h ⊢
        cases hm : resolver.member? row name with
        | some inner =>
          simp only [hm] at h ⊢
          exact ih inner value h
        | none =>
          -- Only a missing last member is no failure, and it is null in both.
          cases rest with
          | nil => simpa [hm] using h
          | cons next rest => simp [hm] at h
  exact go path row

theorem succeedsAs_readAll (row : Value) (paths : List PropertyPath) :
    SucceedsAs ((refusing resolver).readAll row paths) ((propagating resolver).readAll row paths) :=
  .mapM (succeedsAs_read row) paths

end Access

open Access

variable {resolver : Resolver} {row : Value}

mutual
theorem Operand.succeedsAs_eval : (o : Operand) →
    SucceedsAs (o.eval (refusing resolver) row) (o.eval (propagating resolver) row)
  | .path p => succeedsAs_read row p
  | .literal _ => .rfl
  | .call _ args => .bind (Operand.succeedsAs_evalAll args) fun _ => .rfl

theorem Operand.succeedsAs_evalAll : (os : List Operand) →
    SucceedsAs (Operand.evalAll (refusing resolver) row os) (Operand.evalAll (propagating resolver) row os)
  | [] => .rfl
  | o :: os => .bind (Operand.succeedsAs_eval o) fun _ => .bind (Operand.succeedsAs_evalAll os) fun _ => .rfl
end

-- The left side gives the same answer, so the right side is looked at in both or in neither.
theorem Filter.succeedsAs_eval (f : Filter) :
    SucceedsAs (f.eval (refusing resolver) row) (f.eval (propagating resolver) row) := by
  induction f with
  | compare op left right =>
    exact .bind left.succeedsAs_eval fun _ => .bind right.succeedsAs_eval fun _ => .rfl
  | and left right ihl ihr =>
    apply SucceedsAs.bind ihl
    rintro (_ | _)
    case false => exact .rfl
    case true => exact ihr
  | or left right ihl ihr =>
    apply SucceedsAs.bind ihl
    rintro (_ | _)
    case false => exact ihr
    case true => exact .rfl
  | not inner ih => exact .bind ih fun _ => .rfl
  | truthy operand => exact .bind operand.succeedsAs_eval fun _ => .rfl

namespace Summary

variable {rows : List Value}

theorem succeedsAs_eval (s : Summary) :
    SucceedsAs (s.eval (refusing resolver) rows) (s.eval (propagating resolver) rows) := by
  cases s with
  | property path method output =>
    -- The method gets the same values.
    exact .bind (.mapM (fun row => succeedsAs_read row path) rows) fun _ => .rfl
  | count output => exact .rfl

theorem succeedsAs_writeAll (summaries : List Summary) (out : Members) :
    SucceedsAs (writeAll (refusing resolver) rows summaries out)
      (writeAll (propagating resolver) rows summaries out) := by
  induction summaries generalizing out with
  | nil => exact .rfl
  | cons s rest ih => exact .bind s.succeedsAs_eval fun _ => ih _

end Summary

namespace Stage

variable {rows : List Value}

theorem succeedsAs_keep (condition : Filter) :
    SucceedsAs (keep (condition.eval (refusing resolver)) rows)
      (keep (condition.eval (propagating resolver)) rows) := by
  induction rows with
  | nil => exact .rfl
  | cons row rows ih => exact .bind condition.succeedsAs_eval fun _ => .bind ih fun _ => .rfl

theorem succeedsAs_project (paths : List PropertyPath) (out : Members) :
    SucceedsAs (project (refusing resolver) row paths out) (project (propagating resolver) row paths out) := by
  induction paths generalizing out with
  | nil => exact .rfl
  | cons path rest ih => exact .bind (succeedsAs_read row path) fun _ => ih _

theorem succeedsAs_sortRows (items : List OrderItem) :
    SucceedsAs (sortRows items (refusing resolver) rows) (sortRows items (propagating resolver) rows) :=
  .bind (.mapM (fun row => .bind (succeedsAs_readAll row _) fun _ => .rfl) rows) fun _ => .rfl

theorem succeedsAs_summarize (summaries : List Summary) (out : Members) :
    SucceedsAs (summarize summaries (refusing resolver) rows out)
      (summarize summaries (propagating resolver) rows out) :=
  .bind (Summary.succeedsAs_writeAll summaries out) fun _ => .rfl

theorem succeedsAs_groupRows (properties : List PropertyPath) (summaries : List Summary) :
    SucceedsAs (groupRows properties summaries (refusing resolver) rows)
      (groupRows properties summaries (propagating resolver) rows) :=
  .bind (.mapM (fun row => .bind (succeedsAs_readAll row properties) fun _ => .rfl) rows) fun _ =>
    .mapM (fun _ => succeedsAs_summarize summaries _) _

end Stage

namespace Clause

variable {registry : Registry} {t : Transformation} {clause : Clause} {rows out : List Value}

theorem makes_propagating_step
    (hb : ∀ b ∈ t.branches, ∀ out, Makes (refusing resolver) registry b rows out →
      Makes (propagating resolver) registry b rows out)
    (h : Makes (refusing resolver) registry [t] rows out) : Makes (propagating resolver) registry [t] rows out := by
  cases t with
  | aggregate aggregates =>
    have ⟨summaries, hs, row, hr, ho⟩ := makes_aggregate.mp h
    exact makes_aggregate.mpr ⟨summaries, hs, row, Stage.succeedsAs_summarize summaries [] row hr, ho⟩
  | groupBy properties aggregates =>
    have ⟨summaries, hs, hr⟩ := makes_groupBy.mp h
    exact makes_groupBy.mpr ⟨summaries, hs, Stage.succeedsAs_groupRows properties summaries out hr⟩
  | filter condition => exact makes_filter.mpr (Stage.succeedsAs_keep condition out (makes_filter.mp h))
  | select paths =>
    apply makes_select.mpr
    apply (makes_select.mp h).imp
    rintro row _ ⟨ms, hms, rfl⟩
    exact ⟨ms, Stage.succeedsAs_project paths [] ms hms, rfl⟩
  | orderBy items => exact makes_orderBy.mpr (Stage.succeedsAs_sortRows items out (makes_orderBy.mp h))
  | top count => exact makes_top.mpr (makes_top.mp h)
  | skip count => exact makes_skip.mpr (makes_skip.mp h)
  | concat branches =>
    have ⟨outs, hm, ho⟩ := makes_concat.mp h
    apply makes_concat.mpr
    refine ⟨outs, ?_, ho⟩
    clear ho h
    induction hm with
    | nil => exact .nil
    | cons hf _ ih =>
      have ⟨hfirst, hrest⟩ := List.forall_mem_cons.mp hb
      exact .cons (hfirst _ hf) (ih hrest)
  | identity => exact makes_identity.mpr (makes_identity.mp h)

-- The rows are the same after every step.
theorem makes_propagating (h : Makes (refusing resolver) registry clause rows out) :
    Makes (propagating resolver) registry clause rows out := by
  induction clause using forall_induction generalizing rows out with
  | nil => exact makes_nil.mpr (makes_nil.mp h)
  | cons t ts branches rest =>
    have ⟨mid, hm, ho⟩ := makes_cons.mp h
    exact makes_cons.mpr ⟨mid, makes_propagating_step (fun b hb _ => branches b hb) hm, rest ho⟩

theorem makes_propagating_of_makes {propagates : Bool} (h : Makes ⟨resolver, propagates⟩ registry clause rows out) :
    Makes (propagating resolver) registry clause rows out := by
  cases propagates with
  | true => exact h
  | false => exact makes_propagating h

-- Refusing nulls turns results into failures and into nothing else.
theorem execute_propagating {handling : NullHandling} (hh : handling ≠ .refuse)
    (h : ∃ stages, Stage.ofClause clause resolver ⟨.refuse⟩ registry = .ok stages ∧
      ((Query.ofRows rows).compose stages).execute = .ok out) :
    ∃ stages, Stage.ofClause clause resolver ⟨handling⟩ registry = .ok stages ∧
      ((Query.ofRows rows).compose stages).execute = .ok out := by
  have hm : Makes (propagating resolver) registry clause rows out := makes_propagating h
  rwa [← eq_propagating hh] at hm

theorem execute_propagating_short_circuit :
    ∃ stages, Stage.ofClause [.filter (.or (.truthy (.path ["A"])) (.compare .eq (.path ["B", "C"]) (.literal .null)))]
        .exact ⟨.propagate⟩ Registry.builtins = .ok stages ∧
      ((Query.ofRows [.object (Members.ofList [("A", .bool true)])]).compose stages).execute =
        .ok [.object (Members.ofList [("A", .bool true)])] :=
  execute_propagating (by decide) ⟨_, rfl, rfl⟩

end Clause
end RowPipeline
