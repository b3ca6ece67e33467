import RowPipeline.Stage.Compile
import RowPipeline.Stage.Run
import RowPipeline.Proofs.Clause.Contents
import RowPipeline.Proofs.Success

namespace RowPipeline

namespace Summary

theorem output_of_ofAggregate {registry : Registry} {a : Aggregate} {s : Summary} (h : ofAggregate registry a = .ok s) :
    s.output = a.output := by
  cases a with
  | count output => cases h; rfl
  | property path method output =>
    rw [ofAggregate] at h
    split at h <;> cases h
    rfl

end Summary

namespace Clause

variable {access : Access} {registry : Registry} {rows out : List Value} {t : Transformation} {ts : Clause}

-- The clause compiles, and its stages lead from the rows to others.
def Makes (access : Access) (registry : Registry) (clause : Clause) (rows out : List Value) : Prop :=
  ∃ stages, Stage.compileAll access registry clause = .ok stages ∧ Stage.runAll stages rows = .ok out

theorem makes_iff {clause : Clause} {stages : List Stage} (h : Stage.compileAll access registry clause = .ok stages) :
    Makes access registry clause rows out ↔ Stage.runAll stages rows = .ok out := by
  simp [Makes, h]

theorem eq_of_makes {clause : Clause} {out' : List Value} (h : Makes access registry clause rows out)
    (h' : Makes access registry clause rows out') : out = out' := by
  obtain ⟨stages, hs, hr⟩ := h
  obtain ⟨stages', hs', hr'⟩ := h'
  cases hs.symm.trans hs'
  exact Except.ok.inj (hr.symm.trans hr')

theorem makes_nil : Makes access registry [] rows out ↔ rows = out := by
  simp [Makes, Stage.compileAll, Stage.runAll]

theorem makes_append {as bs : Clause} : Makes access registry (as ++ bs) rows out ↔
    ∃ mid, Makes access registry as rows mid ∧ Makes access registry bs mid out := by
  simp only [Makes, Stage.compileAll_append, bind_eq_ok, pure_eq_ok]
  constructor
  case mp =>
    rintro ⟨_, ⟨first, hf, second, hs, rfl⟩, hr⟩
    obtain ⟨mid, hm, ho⟩ := bind_eq_ok.mp (Stage.runAll_append first second rows ▸ hr)
    exact ⟨mid, ⟨first, hf, hm⟩, second, hs, ho⟩
  case mpr =>
    rintro ⟨mid, ⟨first, hf, hm⟩, second, hs, ho⟩
    refine ⟨_, ⟨first, hf, second, hs, rfl⟩, ?_⟩
    rw [Stage.runAll_append]
    exact bind_eq_ok.mpr ⟨mid, hm, ho⟩

theorem makes_cons : Makes access registry (t :: ts) rows out ↔
    ∃ mid, Makes access registry [t] rows mid ∧ Makes access registry ts mid out :=
  show Makes access registry ([t] ++ ts) rows out ↔ _ from makes_append

theorem makes_singleton : Makes access registry [t] rows out ↔
    ∃ stage, Stage.compile? access registry t = .ok stage ∧ Stage.runAll stage.toList rows = .ok out := by
  simp only [Makes, Stage.compileAll, bind_eq_ok, pure_eq_ok, Except.ok.injEq, exists_eq_left', List.append_nil]
  constructor
  case mp => rintro ⟨_, ⟨stage, hs, rfl⟩, hr⟩; exact ⟨stage, hs, hr⟩
  case mpr => rintro ⟨stage, hs, hr⟩; exact ⟨_, ⟨stage, hs, rfl⟩, hr⟩

theorem makes_of_compile {stage : Stage} (h : Stage.compile? access registry t = .ok (some stage)) :
    Makes access registry [t] rows out ↔ stage.run rows = .ok out := by
  simp [makes_singleton, h, Stage.runAll, bind_eq_ok]

-- A step whose compilation first looks something up.
theorem makes_of_bind {α : Type} {m : Except Error α} {stage : α → Stage}
    (h : Stage.compile? access registry t = do return some (stage (← m))) :
    Makes access registry [t] rows out ↔ ∃ x, m = .ok x ∧ (stage x).run rows = .ok out := by
  simp only [makes_singleton, h, bind_eq_ok, pure_eq_ok]
  constructor
  case mp =>
    rintro ⟨_, ⟨x, hx, rfl⟩, hr⟩
    exact ⟨x, hx, by simpa [Stage.runAll, bind_eq_ok] using hr⟩
  case mpr =>
    rintro ⟨x, hx, hr⟩
    exact ⟨_, ⟨x, hx, rfl⟩, by simpa [Stage.runAll, bind_eq_ok] using hr⟩

@[simp]
theorem makes_identity : Makes access registry [.identity] rows out ↔ rows = out := by
  simp [makes_singleton, Stage.compile?, Stage.runAll]

@[simp]
theorem makes_filter {condition : Filter} : Makes access registry [.filter condition] rows out ↔
    Stage.keep (condition.eval access) rows = .ok out := by
  refine (makes_of_compile rfl).trans ?_
  rw [Stage.run]

@[simp]
theorem makes_select {paths : List PropertyPath} : Makes access registry [.select paths] rows out ↔
    List.Forall₂ (fun row row' => ∃ ms, Stage.project access row paths [] = .ok ms ∧ .object ms = row') rows out := by
  refine (makes_of_compile rfl).trans ?_
  simp only [Stage.run, mapM_eq_ok, bind_eq_ok, pure_eq_ok]

@[simp]
theorem makes_orderBy {items : List OrderItem} : Makes access registry [.orderBy items] rows out ↔
    Stage.sortRows items access rows = .ok out := by
  refine (makes_of_compile rfl).trans ?_
  rw [Stage.run]

@[simp]
theorem makes_top {count : Nat} : Makes access registry [.top count] rows out ↔ rows.take count = out := by
  refine (makes_of_compile rfl).trans ?_
  simp [Stage.run]

@[simp]
theorem makes_skip {count : Nat} : Makes access registry [.skip count] rows out ↔ rows.drop count = out := by
  refine (makes_of_compile rfl).trans ?_
  simp [Stage.run]

theorem makes_aggregate {aggregates : List Aggregate} : Makes access registry [.aggregate aggregates] rows out ↔
    ∃ summaries, Summary.ofAggregates registry aggregates = .ok summaries ∧
      ∃ row, Stage.summarize summaries access rows [] = .ok row ∧ [row] = out := by
  refine (makes_of_bind rfl).trans ?_
  simp only [Stage.run, bind_eq_ok, pure_eq_ok]

-- An aggregate alone makes one row with its value.
theorem makes_aggregate_alone {a : Aggregate} {s : Summary} {value : Value}
    (hs : Summary.ofAggregate registry a = .ok s) (hv : s.eval access rows = .ok value) :
    Makes access registry [.aggregate [a]] rows [.object [(a.output, value)]] := by
  refine makes_aggregate.mpr ⟨[s], mapM_eq_ok.mpr (.cons hs .nil), .object [(a.output, value)], ?_, rfl⟩
  rw [Stage.summarize, Summary.writeAll, hv, ← Summary.output_of_ofAggregate hs]
  rfl

theorem makes_aggregate_property {path : PropertyPath} {method : Method} {name output : String} {values : List Value}
    {value : Value} (hm : registry.get? name = some method)
    (hr : List.Forall₂ (fun row v => access.read row path = .ok v) rows values) (hv : method.call values = .ok value) :
    Makes access registry [.aggregate [.property path name output]] rows [.object [(output, value)]] := by
  have hs : Summary.ofAggregate registry (.property path name output) = .ok (.property path method output) := by
    rw [Summary.ofAggregate, hm]
  exact makes_aggregate_alone hs (bind_eq_ok.mpr ⟨values, mapM_eq_ok.mpr hr, hv⟩)

theorem makes_groupBy {properties : List PropertyPath} {aggregates : Option (List Aggregate)} :
    Makes access registry [.groupBy properties aggregates] rows out ↔
      ∃ summaries, Summary.ofAggregates registry (aggregates.getD []) = .ok summaries ∧
        Stage.groupRows properties summaries access rows = .ok out := by
  refine (makes_of_bind rfl).trans ?_
  simp only [Stage.run]

-- Every branch gets all rows.
theorem makes_concat {branches : List (List Transformation)} : Makes access registry [.concat branches] rows out ↔
    ∃ outs, List.Forall₂ (fun b out => Makes access registry b rows out) branches outs ∧ outs.flatten = out := by
  have hb : (∃ stages, Stage.compileBranches access registry branches = .ok stages ∧
      Stage.runBranches stages rows = .ok out) ↔
      ∃ outs, List.Forall₂ (fun b out => Makes access registry b rows out) branches outs ∧ outs.flatten = out := by
    induction branches generalizing out with
    | nil => simp [Stage.compileBranches, Stage.runBranches]
    | cons b bs ih =>
      simp only [Stage.compileBranches, bind_eq_ok, pure_eq_ok, List.forall₂_cons_left_iff]
      constructor
      case mp =>
        rintro ⟨_, ⟨stages, hs, rest, hc, rfl⟩, hr⟩
        obtain ⟨first, hf, hr⟩ := bind_eq_ok.mp hr
        obtain ⟨others, ho, hp⟩ := bind_eq_ok.mp hr
        cases pure_eq_ok.mp hp
        obtain ⟨outs, hm, rfl⟩ := ih.mp ⟨rest, hc, ho⟩
        exact ⟨first :: outs, ⟨first, outs, ⟨stages, hs, hf⟩, hm, rfl⟩, rfl⟩
      case mpr =>
        rintro ⟨_, ⟨first, outs, ⟨stages, hs, hf⟩, hm, rfl⟩, rfl⟩
        obtain ⟨rest, hc, ho⟩ := ih.mpr ⟨outs, hm, rfl⟩
        exact ⟨_, ⟨stages, hs, rest, hc, rfl⟩, bind_eq_ok.mpr ⟨first, hf, bind_eq_ok.mpr ⟨_, ho, rfl⟩⟩⟩
  rw [← hb]
  refine (makes_of_bind rfl).trans ?_
  simp only [Stage.run]

end Clause

namespace Stage

variable {rows out : List Value}

theorem exists_keep {passes : Value → Except EvaluationError Bool} (h : ∀ row ∈ rows, ∃ b, passes row = .ok b) :
    ∃ out, keep passes rows = .ok out := by
  induction rows with
  | nil => exact ⟨[], rfl⟩
  | cons row rows ih =>
    obtain ⟨⟨b, hb⟩, hr⟩ := List.forall_mem_cons.mp h
    obtain ⟨kept, hk⟩ := ih hr
    exact ⟨_, bind_eq_ok.mpr ⟨b, hb, bind_eq_ok.mpr ⟨kept, hk, rfl⟩⟩⟩

theorem eq_filter_of_keep {passes : Value → Except EvaluationError Bool} (h : keep passes rows = .ok out) :
    out = rows.filter fun row => passes row matches .ok true := by
  induction rows generalizing out with
  | nil => cases h; rfl
  | cons row rows ih =>
    obtain ⟨b, hb, h⟩ := bind_eq_ok.mp h
    obtain ⟨kept, hk, h⟩ := bind_eq_ok.mp h
    cases pure_eq_ok.mp h
    cases b <;> simp [hb, ← ih hk]

theorem sublist_of_keep {passes : Value → Except EvaluationError Bool} (h : keep passes rows = .ok out) :
    out.Sublist rows :=
  eq_filter_of_keep h ▸ List.filter_sublist

variable {items : List OrderItem} {access : Access}

-- The rows with what is read of them.
theorem keyed_eq_ok {paths : List PropertyPath} {keyed : List (List Value × Value)} :
    (rows.mapM fun row => do return (← access.readAll row paths, row)) = .ok keyed ↔
      List.Forall₂ (fun row r => access.readAll row paths = .ok r.1 ∧ row = r.2) rows keyed := by
  rw [mapM_eq_ok]
  have hr : ∀ row (r : List Value × Value), (do return (← access.readAll row paths, row)) = Except.ok r ↔
      access.readAll row paths = .ok r.1 ∧ row = r.2 := by
    intro row r
    simp only [bind_eq_ok, pure_eq_ok]
    constructor
    case mp => rintro ⟨keys, hk, rfl⟩; exact ⟨hk, rfl⟩
    case mpr => intro ⟨hk, he⟩; exact ⟨r.1, hk, by rw [he]⟩
  simp only [hr]

theorem map_snd_keyed {paths : List PropertyPath} {keyed : List (List Value × Value)}
    (h : List.Forall₂ (fun row r => access.readAll row paths = .ok r.1 ∧ row = r.2) rows keyed) :
    keyed.map (·.2) = rows := by
  rw [← List.forall₂_eq_eq_eq, List.forall₂_map_left_iff]
  exact h.flip.imp fun _ _ hr => hr.right.symm

-- The keys of all rows are read before the rows are sorted.
theorem sortRows_eq_ok : sortRows items access rows = .ok out ↔
    ∃ keyed : List (List Value × Value),
      List.Forall₂ (fun row r => access.readAll row (items.map OrderItem.path) = .ok r.1 ∧ row = r.2) rows keyed ∧
      CanSort (fun a b => OrderItem.orderKeys items a.1 b.1) keyed ∧
      (stableSort (fun a b => OrderItem.orderKeys items a.1 b.1) keyed).map (·.2) = out := by
  simp only [sortRows, bind_eq_ok, keyed_eq_ok]
  refine exists_congr fun keyed => and_congr_right fun _ => ?_
  split
  case h_1 sorted hs =>
    obtain ⟨hc, rfl⟩ := stableSort?_eq_some.mp hs
    rw [pure_eq_ok, and_iff_right hc]
  case h_2 hs =>
    have hc : ¬CanSort (fun a b => OrderItem.orderKeys items a.1 b.1) keyed := by
      intro hc
      rw [stableSort?_eq_some.mpr ⟨hc, rfl⟩] at hs
      cases hs
    exact iff_of_false nofun fun h => hc h.left

theorem exists_readAll_of_sortRows (h : sortRows items access rows = .ok out) :
    ∀ row ∈ rows, ∃ ks, access.readAll row (items.map OrderItem.path) = .ok ks := by
  obtain ⟨keyed, hk, -⟩ := sortRows_eq_ok.mp h
  intro row hr
  have ⟨r, _, ha, _⟩ := exists_of_mem_left hk row hr
  exact ⟨r.1, ha⟩

theorem perm_of_sortRows (h : sortRows items access rows = .ok out) : out.Perm rows := by
  obtain ⟨keyed, hk, -, rfl⟩ := sortRows_eq_ok.mp h
  have hp := (stableSort_perm (fun a b => OrderItem.orderKeys items a.1 b.1) keyed).map Prod.snd
  rwa [map_snd_keyed hk] at hp

end Stage
end RowPipeline
