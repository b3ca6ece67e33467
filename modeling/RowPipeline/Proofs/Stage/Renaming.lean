import RowPipeline.Proofs.Clause.Renaming
import RowPipeline.Proofs.Stage.Passing

namespace RowPipeline

variable {access : Access} {g : PropertyPath → PropertyPath} {row : Value}

-- A path and the one in its place read the same.
def Access.ReadsAlike (access : Access) (g : PropertyPath → PropertyPath) (row : Value) : Prop :=
  ∀ p, EndsAs (access.read row (g p)) (access.read row p)

mutual
theorem Operand.endsAs_eval (h : access.ReadsAlike g row) : (o : Operand) →
    EndsAs ((o.mapPaths g).eval access row) (o.eval access row)
  | .path p => h p
  | .literal _ => .rfl
  | .call _ args => (Operand.endsAs_evalAll h args).bind fun _ => .rfl

theorem Operand.endsAs_evalAll (h : access.ReadsAlike g row) : (os : List Operand) →
    EndsAs (Operand.evalAll access row (Operand.mapAll g os)) (Operand.evalAll access row os)
  | [] => .rfl
  | o :: os => (Operand.endsAs_eval h o).bind fun _ => (Operand.endsAs_evalAll h os).bind fun _ => .rfl
end

-- The same sides of `and` and `or` are looked at.
theorem Filter.endsAs_eval (h : access.ReadsAlike g row) (f : Filter) :
    EndsAs ((f.mapPaths g).eval access row) (f.eval access row) := by
  induction f with
  | compare op left right => exact (left.endsAs_eval h).bind fun _ => (right.endsAs_eval h).bind fun _ => .rfl
  | and left right ihl ihr =>
    refine ihl.bind fun a => ?_
    cases a with
    | true => exact ihr
    | false => exact .rfl
  | or left right ihl ihr =>
    refine ihl.bind fun a => ?_
    cases a with
    | true => exact .rfl
    | false => exact ihr
  | not inner ih => exact ih.bind fun _ => .rfl
  | truthy operand => exact (operand.endsAs_eval h).bind fun _ => .rfl

theorem OrderItem.orderKeys_mapPaths (items : List OrderItem) (as bs : List Value) :
    orderKeys (items.map (mapPaths g)) as bs = orderKeys items as bs := by
  induction items generalizing as bs with
  | nil => rfl
  | cons item items ih =>
    cases as with
    | nil => rfl
    | cons a as =>
      cases bs with
      | nil => rfl
      | cons b bs => exact congrArg _ (ih as bs)

theorem Access.endsAs_readAll (h : access.ReadsAlike g row) (paths : List PropertyPath) :
    EndsAs (access.readAll row (paths.map g)) (access.readAll row paths) := by
  rw [readAll, List.mapM_map]
  exact .mapM fun p _ => h p

namespace Stage

variable {rows : List Value}

theorem endsAs_keep {passes passes' : Value → Except EvaluationError Bool}
    (h : ∀ row ∈ rows, EndsAs (passes row) (passes' row)) : EndsAs (keep passes rows) (keep passes' rows) := by
  induction rows with
  | nil => exact .rfl
  | cons row rows ih =>
    obtain ⟨hr, hrs⟩ := List.forall_mem_cons.mp h
    exact hr.bind fun _ => (ih hrs).bind fun _ => .rfl

theorem endsAs_sortRows (h : ∀ row ∈ rows, access.ReadsAlike g row) (items : List OrderItem) :
    EndsAs (sortRows (items.map (OrderItem.mapPaths g)) access rows) (sortRows items access rows) := by
  have hp : (items.map (OrderItem.mapPaths g)).map OrderItem.path = (items.map OrderItem.path).map g := by
    rw [List.map_map, List.map_map]
    rfl
  rw [sortRows, sortRows, hp]
  simp only [OrderItem.orderKeys_mapPaths]
  exact (EndsAs.mapM fun row hr => (Access.endsAs_readAll (h row hr) _).bind fun _ => .rfl).bind fun _ => .rfl

end Stage

-- What comes out of the step are rows that came in, if that is so in its branches.
def Transformation.KeepsRows (t : Transformation) : Prop :=
  t.PassesRows ∨ ∃ branches, t = .concat branches

namespace Clause

variable {registry : Registry} {clause : Clause} {t : Transformation} {rows out : List Value}

theorem subset_of_makes (hk : ∀ t ∈ walk clause, t.KeepsRows) (h : Makes access registry clause rows out) :
    out ⊆ rows := by
  induction clause using forall_induction generalizing rows out with
  | nil => exact makes_nil.mp h ▸ List.Subset.refl rows
  | cons t ts branches rest =>
    obtain ⟨ht, hb, hts⟩ := forall_mem_walk_cons.mp hk
    obtain ⟨mid, hm, ho⟩ := makes_cons.mp h
    refine List.Subset.trans (rest hts ho) ?_
    rcases ht with hp | ⟨bs, rfl⟩
    case inl => exact (subperm_of_makes_step hp hm).subset
    case inr =>
      obtain ⟨outs, hf, rfl⟩ := makes_concat.mp hm
      intro row hr
      obtain ⟨out', ho', hr⟩ := List.mem_flatten.mp hr
      obtain ⟨b, hbm, hb'⟩ := exists_of_mem_right hf out' ho'
      exact branches b hbm (hb b hbm) hb' hr

theorem makes_mapStep (ht : t.KeepsRows)
    (hb : ∀ b ∈ t.branches, ∀ out, Makes access registry (mapPaths g b) rows out ↔ Makes access registry b rows out)
    (hr : ∀ row ∈ rows, access.ReadsAlike g row) :
    Makes access registry [mapStep g t] rows out ↔ Makes access registry [t] rows out := by
  cases t with
  | filter condition =>
    rw [mapStep, makes_filter, makes_filter]
    exact Stage.endsAs_keep (fun row hm => condition.endsAs_eval (hr row hm)) out
  | orderBy items =>
    rw [mapStep, makes_orderBy, makes_orderBy]
    exact Stage.endsAs_sortRows hr items out
  | top | skip | identity => rw [mapStep]
  | concat branches =>
    rw [mapStep, mapBranches_eq_map, makes_concat, makes_concat]
    simp only [List.forall₂_map_left_iff]
    exact exists_congr fun outs => and_congr_left' (forall₂_congr_of_mem hb)
  | aggregate | groupBy | select => simp [Transformation.KeepsRows, Transformation.PassesRows] at ht

-- Paths that read the same on the rows that come in do so on all that come from there.
theorem makes_mapPaths (hk : ∀ t ∈ walk clause, t.KeepsRows) (hr : ∀ row ∈ rows, access.ReadsAlike g row) :
    Makes access registry (mapPaths g clause) rows out ↔ Makes access registry clause rows out := by
  induction clause using forall_induction generalizing rows out with
  | nil => simp only [mapPaths]
  | cons t ts branches rest =>
    obtain ⟨ht, hb, hts⟩ := forall_mem_walk_cons.mp hk
    rw [mapPaths, makes_cons, makes_cons]
    refine exists_congr fun mid => ?_
    rw [makes_mapStep ht (fun b hm _ => branches b hm (hb b hm) hr) hr]
    refine and_congr_right fun hm => rest hts fun row hrow => hr row ?_
    exact subset_of_makes (forall_mem_walk_singleton.mpr ⟨ht, hb⟩) hm hrow

end Clause
end RowPipeline
