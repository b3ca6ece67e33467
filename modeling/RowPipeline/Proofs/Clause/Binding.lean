import RowPipeline.Proofs.Clause.Checking
import RowPipeline.Proofs.Clause.Contents
import RowPipeline.Proofs.Clause.WellFormed

namespace RowPipeline

open Scan

namespace Transformation

-- After these steps the rows are not those of the bound type.
inductive Reshapes : Transformation → Prop
  | aggregate {aggregates} : Reshapes (aggregate aggregates)
  | groupBy {properties aggregates} : Reshapes (groupBy properties aggregates)
  | concat {branches b t} : b ∈ branches → t ∈ b → Reshapes t → Reshapes (concat branches)

mutual
def reshapes : Transformation → Bool
  | aggregate _ => true
  | groupBy .. => true
  | concat branches => branchReshapes branches
  | _ => false

def sequenceReshapes : List Transformation → Bool
  | [] => false
  | t :: ts => t.reshapes || sequenceReshapes ts

def branchReshapes : List (List Transformation) → Bool
  | [] => false
  | b :: bs => sequenceReshapes b || branchReshapes bs
end

mutual
theorem reshapes_iff : (t : Transformation) → (t.reshapes = true ↔ Reshapes t)
  | aggregate _ => ⟨fun _ => .aggregate, fun _ => by simp [reshapes]⟩
  | groupBy .. => ⟨fun _ => .groupBy, fun _ => by simp [reshapes]⟩
  | concat branches => by
    rw [reshapes, branchReshapes_iff]
    constructor
    case mp => rintro ⟨b, hb, t, ht, h⟩; exact .concat hb ht h
    case mpr => rintro (_ | _ | ⟨hb, ht, h⟩); exact ⟨_, hb, _, ht, h⟩
  | filter _ | select _ | orderBy _ | top _ | skip _ | identity => by
    simp only [reshapes, Bool.false_eq_true, false_iff]
    nofun

theorem sequenceReshapes_iff : (ts : List Transformation) →
    (sequenceReshapes ts = true ↔ ∃ t ∈ ts, Reshapes t)
  | [] => by simp [sequenceReshapes]
  | t :: ts => by simp [sequenceReshapes, reshapes_iff t, sequenceReshapes_iff ts]

theorem branchReshapes_iff : (bs : List (List Transformation)) →
    (branchReshapes bs = true ↔ ∃ b ∈ bs, ∃ t ∈ b, Reshapes t)
  | [] => by simp [branchReshapes]
  | b :: bs => by simp [branchReshapes, sequenceReshapes_iff b, branchReshapes_iff bs]
end

end Transformation

-- No step that reshapes comes before the path in its own sequence, nor before the concatenations around this.
inductive Clause.InForce (p : PropertyPath) : Clause → Prop
  | here {before : Clause} {t after} :
    (∀ u ∈ before, ¬u.Reshapes) → p ∈ t.paths → InForce p (before ++ t :: after)
  | inside {before : Clause} {branches b after} :
    (∀ u ∈ before, ¬u.Reshapes) → b ∈ branches → InForce p b → InForce p (before ++ .concat branches :: after)

-- The step has the path itself or in force in a branch.
def Transformation.Holds (p : PropertyPath) (t : Transformation) : Prop :=
  p ∈ t.paths ∨ ∃ b ∈ t.branches, Clause.InForce p b

namespace Clause

variable {p : PropertyPath} {t : Transformation} {ts : Clause}

theorem not_inForce_nil : ¬InForce p [] := by
  intro h
  generalize hc : ([] : Clause) = clause at h
  cases h <;> simp at hc

theorem InForce.of_holds (h : t.Holds p) : InForce p (t :: ts) := by
  rcases h with h | ⟨b, hb, h⟩
  case inl => exact show InForce p ([] ++ t :: ts) from .here nofun h
  case inr =>
    cases t with
    | concat branches => exact show InForce p ([] ++ .concat branches :: ts) from .inside nofun hb h
    | _ => cases hb

theorem InForce.cons (hn : ¬t.Reshapes) (h : InForce p ts) : InForce p (t :: ts) := by
  cases h with
  | @here before u after hb hp =>
    exact show InForce p ((t :: before) ++ u :: after) from .here (List.forall_mem_cons.mpr ⟨hn, hb⟩) hp
  | @inside before branches b after hb hm h =>
    exact show InForce p ((t :: before) ++ .concat branches :: after) from
      .inside (List.forall_mem_cons.mpr ⟨hn, hb⟩) hm h

theorem inForce_cons : InForce p (t :: ts) ↔ t.Holds p ∨ ¬t.Reshapes ∧ InForce p ts := by
  constructor
  case mp =>
    intro h
    generalize hc : t :: ts = clause at h
    cases h with
    | @here before u after hb hp =>
      cases before with
      | nil => cases hc; exact .inl (.inl hp)
      | cons v before => cases hc; exact .inr ⟨hb _ List.mem_cons_self, .here (List.forall_mem_cons.mp hb).right hp⟩
    | @inside before branches b after hb hm h =>
      cases before with
      | nil => cases hc; exact .inl (.inr ⟨b, hm, h⟩)
      | cons v before =>
        cases hc
        exact .inr ⟨hb _ List.mem_cons_self, .inside (List.forall_mem_cons.mp hb).right hm h⟩
  case mpr =>
    rintro (h | ⟨hn, h⟩)
    case inl => exact .of_holds h
    case inr => exact h.cons hn

end Clause

-- What the check of a parser lets through.
def Binding.Accepts (binding : Option Binding) (path : PropertyPath) : Prop :=
  ∀ b ∈ binding, b.checkPath path = .ok ()

open Binding

variable {binding : Option Binding} {p : Prop} {depth : Nat}

namespace PropertyPath

theorem checks_checkPath {path : PropertyPath} {start : Nat} :
    Checks p (checkPath binding path start) (checkPath none path start) fun _ => p ∧ Accepts binding path := by
  intro cursor u next
  simp only [yields_checkPath, Accepts]
  constructor
  case mp => rintro ⟨hp, hn, ha⟩; exact ⟨⟨hn, nofun⟩, hp, ha⟩
  case mpr => rintro ⟨⟨hn, -⟩, hp, ha⟩; exact ⟨hp, hn, ha⟩

theorem checks : Checks True (PropertyPath.scan binding) (PropertyPath.scan none) (Accepts binding) :=
  .same_bind fun _ => .same_bind fun _ => .same_bind fun _ =>
    .bind checks_checkPath fun _ => .pure (iff_of_eq (true_and _))

end PropertyPath

namespace Operand

theorem checks_scanCall {operand operand' : Scan Operand} {start : Nat} {name : String}
    (h : Checks True operand operand' fun o => ∀ q ∈ o.paths, Accepts binding q) :
    Checks True (scanCall start name operand) (scanCall start name operand')
      fun o => ∀ q ∈ o.paths, Accepts binding q := by
  unfold scanCall
  split
  case h_1 => exact .failAt
  case h_2 =>
    refine .same_bind fun _ => .bind (.listBy h) fun args => .same_bind fun _ => .ite (.pure ?_) .failAt
    rw [paths, allPaths_eq_flatMap, List.forall_mem_flatMap]

theorem checks_scanNamed {operand operand' : Scan Operand}
    (h : Checks True operand operand' fun o => ∀ q ∈ o.paths, Accepts binding q) :
    Checks True (scanNamed binding operand) (scanNamed none operand')
      fun o => ∀ q ∈ o.paths, Accepts binding q := by
  refine .same_bind fun _ => .same_bind fun _ => .same_bind fun _ => .same_bind fun _ => .ite (checks_scanCall h) ?_
  refine .same_bind fun _ => .bind PropertyPath.checks_checkPath fun _ => .pure ?_
  rw [paths, List.forall_mem_singleton, true_and]

theorem checks : Checks True (Operand.scan binding depth) (Operand.scan none depth)
    fun o => ∀ q ∈ o.paths, Accepts binding q := by
  induction depth
  case zero => exact .fail
  case succ depth ih =>
    refine .same_bind fun _ => .same_bind fun _ => .ite ?_ (.ite ?_ ?_)
    case refine_1 => exact .same_bind fun _ => .pure (by simp [paths])
    case refine_2 => exact .same_bind fun _ => .pure (by simp [paths])
    case refine_3 =>
      have hw : ∀ {cursor w next}, scanWord?.Yields cursor w next → ∀ o ∈ w, o.paths = [] := by
        rintro cursor _ next h o rfl
        obtain ⟨value, rfl, -⟩ := scanWord?_some h
        rfl
      refine .known_bind hw fun w hp => ?_
      cases w with
      | none => exact checks_scanNamed ih
      | some o => exact .pure (by simp [hp o rfl])

end Operand

namespace Filter

theorem checks_scanOperand : Checks True (scanOperand binding) (scanOperand none)
    fun o => ∀ q ∈ o.paths, Accepts binding q :=
  .same_bind fun _ => Operand.checks

theorem checks_scanComparison : Checks True (scanComparison binding) (scanComparison none)
    fun f => ∀ q ∈ f.paths, Accepts binding q := by
  refine .bind checks_scanOperand fun left => .same_bind fun _ => .same_bind fun op => ?_
  cases op with
  | none => exact .pure Iff.rfl
  | some op =>
    refine .same_bind fun _ => .bind (.after checks_scanOperand) fun right => .pure ?_
    rw [paths, List.forall_mem_append]

theorem checks_disjunction {item item' : Scan Filter}
    (h : Checks True item item' fun f => ∀ q ∈ f.paths, Accepts binding q) :
    Checks True (disjunction item) (disjunction item') fun f => ∀ q ∈ f.paths, Accepts binding q :=
  .chain (.chain h fun _ _ => List.forall_mem_append) fun _ _ => List.forall_mem_append

theorem checks_scanUnary : Checks True (scanUnary binding depth) (scanUnary none depth)
    fun f => ∀ q ∈ f.paths, Accepts binding q := by
  induction depth
  case zero => exact .fail
  case succ depth ih =>
    refine .same_bind fun _ => .same_bind fun _ => .ite ?_ (.same_bind fun _ => .ite ?_ checks_scanComparison)
    case refine_1 => exact .bind ih fun inner => .pure Iff.rfl
    case refine_2 =>
      exact .bind (checks_disjunction ih) fun _ => .same_bind fun _ => .same_bind fun _ => .pure Iff.rfl

theorem checks : Checks True (Filter.scan binding) (Filter.scan none) fun f => ∀ q ∈ f.paths, Accepts binding q :=
  .same_bind fun _ => checks_disjunction checks_scanUnary

end Filter

namespace OrderItem

theorem checks : Checks True (OrderItem.scan binding) (OrderItem.scan none) fun item => Accepts binding item.path :=
  .bind PropertyPath.checks fun _ => .same_bind fun _ => .same_bind fun _ =>
    .ite (.pure Iff.rfl) (.same_bind fun _ => .pure Iff.rfl)

end OrderItem

namespace Aggregate

theorem checks : Checks True (Aggregate.scan binding) (Aggregate.scan none)
    fun a => ∀ q ∈ a.paths, Accepts binding q := by
  refine .same_bind fun _ => .same_bind fun _ => .ite (.same_bind fun _ => .pure (by simp [paths])) ?_
  refine .bind PropertyPath.checks fun path => .same_bind fun _ => .same_bind fun _ => .same_bind fun _ => ?_
  refine .same_bind fun _ => .pure ?_
  rw [paths, List.forall_mem_singleton]

theorem checks_scanList : Checks True (scanList binding) (scanList none)
    fun as => ∀ q ∈ as.flatMap paths, Accepts binding q :=
  .congr (.listBy checks) fun _ => List.forall_mem_flatMap.symm

end Aggregate

namespace Binding

-- What is left after a step.
def after (binding : Option Binding) (t : Transformation) : Option Binding :=
  if t.reshapes then none else binding

@[simp]
theorem after_none (t : Transformation) : after none t = none := by
  unfold after
  split <;> rfl

end Binding

namespace Transformation

-- Every path that is in force as long as the step is.
def Accepted (binding : Option Binding) (t : Transformation) : Prop :=
  ∀ q, t.Holds q → Accepts binding q

theorem accepted_iff {t : Transformation} :
    t.Accepted binding ↔ (∀ q ∈ t.paths, Accepts binding q) ∧
      ∀ b ∈ t.branches, ∀ q, Clause.InForce q b → Accepts binding q := by
  unfold Accepted Holds
  constructor
  case mp => exact fun h => ⟨fun q hq => h q (.inl hq), fun b hb q hq => h q (.inr ⟨b, hb, hq⟩)⟩
  case mpr =>
    rintro ⟨hp, hb⟩ q (hq | ⟨b, hm, hq⟩)
    case inl => exact hp q hq
    case inr => exact hb b hm q hq

theorem accepted_iff_of_no_branches (t : Transformation) (h : t.branches = []) :
    t.Accepted binding ↔ ∀ q ∈ t.paths, Accepts binding q := by
  simp [accepted_iff, h]

theorem accepted_of_no_paths {t : Transformation} (hp : t.paths = []) (hb : t.branches = []) :
    t.Accepted binding := by
  simp [accepted_iff, hp, hb]

theorem checks_scanGroupBy : Checks True (scanGroupBy binding) (scanGroupBy none) (Accepted binding) := by
  refine .same_bind fun _ => .same_bind fun _ => .bind (.listBy PropertyPath.checks) fun properties => ?_
  refine .same_bind fun _ => .same_bind fun _ => .same_bind fun _ => .ite ?_ (.pure ?_)
  case refine_1 =>
    refine .same_bind fun _ => .same_bind fun _ => .same_bind fun _ => ?_
    refine .bind (.after Aggregate.checks_scanList) fun aggregates => .same_bind fun _ => .pure ?_
    rw [accepted_iff_of_no_branches _ rfl, paths, List.forall_mem_append, Option.getD_some]
  case refine_2 =>
    rw [accepted_iff_of_no_branches _ rfl, paths, List.forall_mem_append, Option.getD_none]
    simp

theorem forall_inForce_cons (binding : Option Binding) (t : Transformation) (ts : List Transformation) :
    (∀ q, Clause.InForce q (t :: ts) → Accepts binding q) ↔
      t.Accepted binding ∧ ∀ q, Clause.InForce q ts → Accepts (Binding.after binding t) q := by
  simp only [Clause.inForce_cons, Accepted, Binding.after]
  by_cases ht : t.Reshapes
  case pos => simp [ht, (reshapes_iff t).mpr ht, Accepts]
  case neg => simp [ht, mt (reshapes_iff t).mp ht, or_imp, forall_and]

theorem reshapes_of_scanGroupBy {cursor next : Cursor} {t : Transformation}
    (h : (scanGroupBy binding).Yields cursor t next) : t.reshapes = true := by
  simp only [scanGroupBy, yields_bind, yields_ite, yields_pure, bind_pure_comp, yields_map] at h
  obtain ⟨_, _, _, _, _, _, _, _, _, _, _, _, _, _, _, _, _, _, h⟩ := h
  rcases h with ⟨_, _, _, _, _, _, _, _, _, _, _, _, _, _, _, rfl⟩ | ⟨_, rfl, _⟩
  all_goals rfl

-- The steps with what each of them leaves.
def withAfter (binding : Option Binding) : List Transformation → List (Transformation × Option Binding)
  | [] => []
  | t :: ts => (t, Binding.after binding t) :: withAfter (Binding.after binding t) ts

@[simp]
theorem map_withAfter (binding : Option Binding) (ts : List Transformation) :
    (withAfter binding ts).map (·.1) = ts := by
  induction ts generalizing binding with
  | nil => rfl
  | cons t ts ih => rw [withAfter, List.map_cons, ih]

@[simp]
theorem foldl_withAfter (binding : Option Binding) (ts : List Transformation) :
    (withAfter binding ts).foldl (fun _ t => t.2) binding = ts.foldl Binding.after binding := by
  induction ts generalizing binding with
  | nil => rfl
  | cons t ts ih => rw [withAfter, List.foldl_cons, List.foldl_cons, ih]

theorem isNone_foldl_after (binding : Binding) (ts : List Transformation) :
    (ts.foldl Binding.after (some binding)).isNone = sequenceReshapes ts := by
  induction ts with
  | nil => rfl
  | cons t ts ih =>
    rw [List.foldl_cons, Binding.after, sequenceReshapes]
    cases t.reshapes with
    | true =>
      have hn : ∀ ts : List Transformation, ts.foldl Binding.after none = none := by
        intro ts
        induction ts with
        | nil => rfl
        | cons t ts ih => rw [List.foldl_cons, Binding.after_none, ih]
      simp [hn]
    | false => simpa using ih

theorem after_concat (binding : Option Binding) (bs : List (List Transformation)) :
    Binding.after binding (concat bs) =
      if bs.any fun b => (b.foldl Binding.after binding).isNone then none else binding := by
  cases binding with
  | none => simp
  | some binding =>
    have hb : branchReshapes bs = bs.any sequenceReshapes := by
      induction bs with
      | nil => rfl
      | cons b bs ih => rw [branchReshapes, List.any_cons, ih]
    simp only [isNone_foldl_after, Binding.after, reshapes, hb]

variable {item : Option Binding → Scan (Transformation × Option Binding)}

def leaving (binding : Option Binding) (t : Transformation × Option Binding) : Transformation × Option Binding :=
  (t.1, Binding.after binding t.1)

def sequenceLeaving (binding : Option Binding) (ts : List Transformation × Option Binding) :
    List Transformation × Option Binding :=
  (ts.1, ts.1.foldl Binding.after binding)

-- The step is read as without a binding, but what it leaves comes from the binding before it.
def ChecksStep (binding : Option Binding) (m m' : Scan (Transformation × Option Binding)) : Prop :=
  ChecksThrough (leaving binding) True m m' fun t => t.1.Accepted binding

theorem ChecksStep.eq_none {m : Scan (Transformation × Option Binding)} {cursor next : Cursor}
    {t : Transformation × Option Binding} (hm : ChecksStep none m m) (h : m.Yields cursor t next) : t.2 = none := by
  obtain ⟨t, -, rfl, -⟩ := (hm _ _ _).mp ⟨trivial, h⟩
  exact Binding.after_none _

theorem ChecksStep.return {α : Type} {m m' : Scan α} {P : α → Prop} {make : α → Transformation}
    {left : Option Binding} (hm : Checks True m m' P)
    (h : ∀ x, (P x ↔ (make x).Accepted binding) ∧ left = Binding.after binding (make x)) :
    ChecksStep binding (do return (make (← m), left)) (do return (make (← m'), none)) := by
  refine hm.bind_through fun x => ?_
  rw [(h x).right]
  exact .pure (x := (make x, none)) (h x).left

theorem checks_sequenceOf (hi : ∀ binding, ChecksStep binding (item binding) (item none)) :
    ChecksThrough (sequenceLeaving binding) True (sequenceOf item binding)
      (sequenceOf item none) fun ts => ∀ q, Clause.InForce q ts.1 → Accepts binding q := by
  refine ChecksThrough.known_bind (hi binding) fun first hf => Checks.same_bind_through fun _ => ?_
  obtain ⟨_, _, hf⟩ := hf
  rw [(hi none).eq_none hf]
  have hc : ∀ binding (t : Transformation × Option Binding) (ts : List (Transformation × Option Binding)),
      (∀ q, Clause.InForce q ((t :: ts).map (·.1)) → Accepts binding q) ↔
        t.1.Accepted binding ∧ ∀ q, Clause.InForce q (ts.map (·.1)) → Accepts (leaving binding t).2 q :=
    fun _ _ _ => forall_inForce_cons _ _ _
  have hm : ∀ n binding, ChecksThrough (fun ts => withAfter binding (ts.map (·.1))) True
      (manyAfter (do skipBlank; char? '/') item (fun _ t => t.2) n binding)
      (manyAfter (do skipBlank; char? '/') item (fun _ t => t.2) n none)
      fun ts => ∀ q, Clause.InForce q (ts.map (·.1)) → Accepts binding q :=
    fun n => .manyAfter (fun _ => rfl) (fun _ _ _ => rfl) (fun _ _ h => absurd h Clause.not_inForce_nil) hc
      (fun h => (hi none).eq_none h) hi
  refine .bind (.after (hm _ _)) fun more => ?_
  rw [map_withAfter, foldl_withAfter]
  refine ChecksThrough.pure (g := sequenceLeaving binding)
    (x := (first.1 :: more.map (·.1), more.foldl (fun _ t => t.2) none)) ?_
  exact (forall_inForce_cons _ _ _).symm

theorem checks_scanConcat {start : Nat} (hi : ∀ binding, ChecksStep binding (item binding) (item none)) :
    ChecksStep binding (scanConcat start item binding) (scanConcat start item none) := by
  refine ChecksThrough.bind (.listBy (checks_sequenceOf hi)) fun branches => ?_
  rw [List.length_map]
  refine .ite .failAt ?_
  have hb := after_concat binding (branches.map (·.1))
  simp only [List.map_map, List.any_map, Function.comp_def, sequenceLeaving] at hb ⊢
  rw [← hb]
  refine .pure (x := (concat (branches.map (·.1)), _)) ?_
  rw [accepted_iff]
  exact ⟨fun h => ⟨nofun, List.forall_mem_map.mpr h⟩, fun h => List.forall_mem_map.mp h.right⟩

theorem checks_scanBody {start : Nat} {name : String}
    (hi : ∀ binding, ChecksStep binding (item binding) (item none)) :
    ChecksStep binding (scanBody start name item binding) (scanBody start name item none) := by
  unfold scanBody
  split
  case h_1 =>
    exact .return Aggregate.checks_scanList fun as => ⟨(accepted_iff_of_no_branches (aggregate as) rfl).symm, rfl⟩
  case h_2 =>
    refine ChecksThrough.known_bind (checks_iff.mp checks_scanGroupBy) fun t ht => ?_
    obtain ⟨_, _, ht⟩ := ht
    have ha : Binding.after binding t = none := if_pos (reshapes_of_scanGroupBy ht)
    have h : ChecksThrough (leaving binding) (t.Accepted binding) (pure (leaving binding (t, none)))
        (pure (t, none)) fun t => t.1.Accepted binding := .pure Iff.rfl
    rwa [leaving, ha] at h
  case h_3 => exact .return Filter.checks fun f => ⟨(accepted_iff_of_no_branches (filter f) rfl).symm, rfl⟩
  case h_4 =>
    exact .return (.listBy PropertyPath.checks) fun ps => ⟨(accepted_iff_of_no_branches (select ps) rfl).symm, rfl⟩
  case h_5 =>
    refine .return (.listBy OrderItem.checks) fun items => ⟨?_, rfl⟩
    rw [accepted_iff_of_no_branches _ rfl, paths, List.forall_mem_map]
  case h_6 | h_7 =>
    exact .return (.same _) fun _ => ⟨iff_of_true trivial (accepted_of_no_paths rfl rfl), rfl⟩
  case h_8 => exact checks_scanConcat hi
  case h_9 => exact .failAt

theorem checks : ChecksStep binding (Transformation.scan depth binding) (Transformation.scan depth none) := by
  induction depth generalizing binding
  case zero => exact .fail
  case succ depth ih =>
    refine Checks.same_bind_through fun _ => Checks.same_bind_through fun start =>
      Checks.same_bind_through fun name => .ite ?_ ?_
    case refine_1 => exact .pure (x := (identity, none)) (iff_of_true trivial (accepted_of_no_paths rfl rfl))
    case refine_2 =>
      refine Checks.same_bind_through fun _ => Checks.same_bind_through fun _ =>
        ChecksThrough.bind (checks_scanBody fun _ => ih) fun t => ?_
      exact Checks.same_bind_through fun _ => .pure Iff.rfl

end Transformation

namespace Clause

theorem checks : Checks True (Clause.scan binding) (Clause.scan none)
    fun ts => ∀ q, InForce q ts → Accepts binding q := by
  refine .same_bind fun _ => ?_
  refine checks_iff.mpr (.bind (Transformation.checks_sequenceOf fun _ => Transformation.checks) fun ts => ?_)
  refine checks_iff.mp ?_
  exact .same_bind fun _ => .same_bind fun _ => .ite (.pure Iff.rfl) .fail

theorem parse_iff_parse_and_accepts {s : String} {clause : Clause} :
    parse binding s = .ok clause ↔
      parse none s = .ok clause ∧ ∀ q, InForce q clause → Accepts binding q := by
  unfold parse
  simp only [run'_eq_ok, ← exists_and_right]
  exact exists_congr fun next => by simpa using checks (Cursor.ofString s) clause next

theorem parse_bound_iff (model : Model) (typeName s : String) (clause : Clause) :
    parse (some ⟨model, typeName⟩) s = .ok clause ↔
      parse none s = .ok clause ∧ ∀ p, InForce p clause → Binding.checkPath ⟨model, typeName⟩ p = .ok () := by
  rw [parse_iff_parse_and_accepts]
  simp [Accepts]

end Clause
end RowPipeline
