import RowPipeline.Proofs.Clause.Binding
import RowPipeline.Proofs.Stage.Compiling
import RowPipeline.Proofs.Stage.RunErrors

namespace RowPipeline

open PropertyPath

namespace Clause

-- Rows pass the projection to the paths before they get to a step that reads the path.
inductive SelectedBefore (ps : List PropertyPath) (q : PropertyPath) : Clause → Prop
  | sequence {before after : Clause} {t} :
    .select ps ∈ walk before → t ∈ walk after → q ∈ t.paths → SelectedBefore ps q (before ++ after)
  | branch {before : Clause} {branches b after} :
    b ∈ branches → SelectedBefore ps q b → SelectedBefore ps q (before ++ .concat branches :: after)

def SelectsCover (clause : Clause) : Prop :=
  ∀ ps q, SelectedBefore ps q clause → Covers ps q

-- Every path of the clause can be read on every row.
def ReadableOn (clause : Clause) (rows : List Value) : Prop :=
  ∀ row ∈ rows, ∀ t ∈ walk clause, ∀ q ∈ t.paths, row.Reads q

variable {t : Transformation} {ts : Clause} {rows mid out : List Value} {registry : Registry}

theorem SelectedBefore.cons {ps : List PropertyPath} {q : PropertyPath} (h : SelectedBefore ps q ts) :
    SelectedBefore ps q (t :: ts) := by
  cases h with
  | @sequence before after u hb ha hq =>
    exact show SelectedBefore ps q ((t :: before) ++ after) from .sequence (mem_walk_cons.mpr (.inr (.inr hb))) ha hq
  | @branch before branches b after hb hs =>
    exact show SelectedBefore ps q ((t :: before) ++ .concat branches :: after) from .branch hb hs

theorem SelectedBefore.of_mem_branches {ps : List PropertyPath} {q : PropertyPath} {b : Clause} (hb : b ∈ t.branches)
    (h : SelectedBefore ps q b) : SelectedBefore ps q (t :: ts) := by
  cases t with
  | concat branches => exact show SelectedBefore ps q ([] ++ .concat branches :: ts) from .branch hb h
  | _ => cases hb

theorem selectsCover_nil : SelectsCover [] := by
  intro ps q h
  generalize hc : ([] : Clause) = clause at h
  cases h with
  | @sequence before after u hb ha hq =>
    cases (List.nil_eq_append_iff.mp hc).left
    cases hb
  | branch => simp at hc

-- The projections of the first step cover what the rest reads, and those of its branches and of the rest
-- what is read there.
theorem selectsCover_cons : SelectsCover (t :: ts) ↔
    (∀ ps, .select ps ∈ walk [t] → ∀ u ∈ walk ts, ∀ q ∈ u.paths, Covers ps q) ∧
      (∀ b ∈ t.branches, SelectsCover b) ∧ SelectsCover ts := by
  constructor
  case mp =>
    intro h
    refine ⟨fun ps hp u hu q hq => h ps q ?_, fun b hb ps q hs => h ps q (hs.of_mem_branches hb),
      fun ps q hs => h ps q hs.cons⟩
    exact show SelectedBefore ps q ([t] ++ ts) from .sequence hp hu hq
  case mpr =>
    rintro ⟨hfirst, hbranches, hrest⟩ ps q hs
    generalize hc : t :: ts = clause at hs
    cases hs with
    | @sequence before after u hb ha hq =>
      cases before with
      | nil => cases hb
      | cons v before =>
        cases hc
        rcases mem_walk_cons.mp hb with hp | hp | hp
        case inl => exact hfirst ps (mem_walk_cons.mpr (.inl hp)) u (walk_append _ _ ▸ List.mem_append_right _ ha) q hq
        case inr.inl =>
          exact hfirst ps (mem_walk_cons.mpr (.inr (.inl hp))) u (walk_append _ _ ▸ List.mem_append_right _ ha) q hq
        case inr.inr => exact hrest ps q (.sequence hp ha hq)
    | @branch before branches b after hb hs =>
      cases before with
      | nil => cases hc; exact hbranches b hb ps q hs
      | cons v before => cases hc; exact hrest ps q (.branch hb hs)

theorem ReadableOn.head (h : ReadableOn (t :: ts) rows) : ∀ row ∈ rows, ∀ q ∈ t.paths, row.Reads q :=
  fun row hr => h row hr t (mem_walk_cons.mpr (.inl rfl))

theorem ReadableOn.branch (h : ReadableOn (t :: ts) rows) : ∀ b ∈ t.branches, ReadableOn b rows :=
  fun b hb row hr u hu => h row hr u (mem_walk_cons.mpr (.inr (.inl ⟨b, hb, hu⟩)))

theorem ReadableOn.tail (h : ReadableOn (t :: ts) rows) : ReadableOn ts rows :=
  fun row hr u hu => h row hr u (mem_walk_cons.mpr (.inr (.inr hu)))

section Source

variable {access : Access} {R : Value → Value → Prop}

-- A row that comes out stems from one that went in. It is related to it in every way in which projections are related to
-- their rows.
theorem exists_source_step (refl : ∀ row, R row row) (hk : ¬t.Reshapes)
    (hs : ∀ ps, t = .select ps → ∀ row ms, Stage.project access row ps [] = .ok ms → R row (.object ms))
    (hb : ∀ b ∈ t.branches, ∀ out, Makes access registry b rows out → ∀ row' ∈ out, ∃ row ∈ rows, R row row')
    (h : Makes access registry [t] rows out) : ∀ row' ∈ out, ∃ row ∈ rows, R row row' := by
  have same : out ⊆ rows → ∀ row' ∈ out, ∃ row ∈ rows, R row row' := fun hsub row' hr' => ⟨row', hsub hr', refl row'⟩
  cases t with
  | aggregate => exact absurd .aggregate hk
  | groupBy => exact absurd .groupBy hk
  | filter condition => exact same (Stage.sublist_of_keep (makes_filter.mp h)).subset
  | select ps =>
    intro row' hr'
    obtain ⟨row, hr, ms, hm, rfl⟩ := exists_of_mem_right (makes_select.mp h) row' hr'
    exact ⟨row, hr, hs ps rfl row ms hm⟩
  | orderBy items => exact same (Stage.perm_of_sortRows (makes_orderBy.mp h)).subset
  | top count => exact same (makes_top.mp h ▸ List.take_subset _ _)
  | skip count => exact same (makes_skip.mp h ▸ List.drop_subset _ _)
  | concat branches =>
    obtain ⟨outs, ho, rfl⟩ := makes_concat.mp h
    intro row' hr'
    obtain ⟨out, hout, hr'⟩ := List.mem_flatten.mp hr'
    obtain ⟨b, hbm, hm⟩ := exists_of_mem_right ho out hout
    exact hb b hbm out hm row' hr'
  | identity => exact same (makes_identity.mp h ▸ List.Subset.refl _)

theorem exists_source {clause : Clause} (refl : ∀ row, R row row) (trans : ∀ {a b c}, R a b → R b c → R a c)
    (hk : ∀ t ∈ walk clause, ¬t.Reshapes)
    (hs : ∀ ps, .select ps ∈ walk clause → ∀ row ms, Stage.project access row ps [] = .ok ms → R row (.object ms))
    (h : Makes access registry clause rows out) : ∀ row' ∈ out, ∃ row ∈ rows, R row row' := by
  induction clause using forall_induction generalizing rows out with
  | nil =>
    cases makes_nil.mp h
    exact fun row hr => ⟨row, hr, refl row⟩
  | cons t ts branches rest =>
    obtain ⟨hk, hkb, hkr⟩ := forall_mem_walk_cons.mp hk
    obtain ⟨mid, hm, ho⟩ := makes_cons.mp h
    have hfirst : ∀ row' ∈ mid, ∃ row ∈ rows, R row row' := by
      refine exists_source_step refl hk (fun ps ht => hs ps (mem_walk_cons.mpr (.inl ht.symm))) (fun b hb out => ?_) hm
      exact branches b hb (hkb b hb) fun ps hp => hs ps (mem_walk_cons.mpr (.inr (.inl ⟨b, hb, hp⟩)))
    intro row' hr'
    obtain ⟨inner, hi, hrest⟩ := rest hkr (fun ps hp => hs ps (mem_walk_cons.mpr (.inr (.inr hp)))) ho row' hr'
    obtain ⟨row, hr, hrow⟩ := hfirst inner hi
    exact ⟨row, hr, trans hrow hrest⟩

-- The same for the rows that get to some step.
theorem Gets.exists_source {clause : Clause} (refl : ∀ row, R row row) (trans : ∀ {a b c}, R a b → R b c → R a c)
    (hk : ∀ t ∈ walk clause, ¬t.Reshapes)
    (hs : ∀ ps, .select ps ∈ walk clause → ∀ row ms, Stage.project access row ps [] = .ok ms → R row (.object ms))
    (h : Gets access registry t out clause rows) : ∀ row' ∈ out, ∃ row ∈ rows, R row row' := by
  induction h with
  | head => exact fun row hr => ⟨row, hr, refl row⟩
  | tail hm _ ih =>
    rw [← List.singleton_append, walk_append] at hk hs
    obtain ⟨hk, hkr⟩ := List.forall_mem_append.mp hk
    intro row' hr'
    obtain ⟨inner, hi, hrest⟩ := ih hkr (fun ps hp => hs ps (List.mem_append_right _ hp)) row' hr'
    obtain ⟨row, hr, hrow⟩ :=
      Clause.exists_source refl trans hk (fun ps hp => hs ps (List.mem_append_left _ hp)) hm inner hi
    exact ⟨row, hr, trans hrow hrest⟩
  | branch hb _ ih =>
    exact ih ((forall_mem_walk_cons.mp hk).right.left _ hb)
      fun ps hp => hs ps (mem_walk_cons.mpr (.inr (.inl ⟨_, hb, hp⟩)))

end Source

-- No path of the rest gets lost in the first step, if the projections there cover it.
theorem ReadableOn.step (hw : ∀ u ∈ walk [t], u.WellFormed) (hk : ∀ u ∈ walk [t], ¬u.Reshapes)
    (hc : ∀ ps, .select ps ∈ walk [t] → ∀ u ∈ walk ts, ∀ q ∈ u.paths, Covers ps q) (hr : ReadableOn (t :: ts) rows)
    (hm : Makes .strict registry [t] rows mid) : ReadableOn ts mid := by
  intro row' hr' u hu q hq
  obtain ⟨row, hrow, hkeep⟩ : ∃ row ∈ rows, row.Reads q → row'.Reads q := by
    refine exists_source (R := fun a b => a.Reads q → b.Reads q) (fun _ => id) (fun h h' => h' ∘ h) hk ?_ hm row' hr'
    intro ps hp row ms hms
    exact Stage.reads_project hms (fun p hp' => ((hw _ hp).right p hp').left) (hc ps hp u hu q hq)
  exact hkeep (hr.tail row hrow u hu q hq)

-- Every step can read its paths on all rows that it gets.
theorem Gets.reads {clause : Clause} (hw : ∀ t ∈ walk clause, t.WellFormed) (hk : ∀ t ∈ walk clause, ¬t.Reshapes)
    (hc : SelectsCover clause) (hr : ReadableOn clause rows) (h : Gets .strict registry t mid clause rows) :
    ∀ row ∈ mid, ∀ q ∈ t.paths, row.Reads q := by
  induction h with
  | head => exact hr.head
  | tail hm _ ih =>
    obtain ⟨hc, _, hcr⟩ := selectsCover_cons.mp hc
    rw [← List.singleton_append, walk_append] at hw hk
    obtain ⟨hw, hwr⟩ := List.forall_mem_append.mp hw
    obtain ⟨hk, hkr⟩ := List.forall_mem_append.mp hk
    exact ih hwr hkr hcr (hr.step hw hk hc hm)
  | branch hb _ ih =>
    obtain ⟨_, hwb, _⟩ := forall_mem_walk_cons.mp hw
    obtain ⟨_, hkb, _⟩ := forall_mem_walk_cons.mp hk
    obtain ⟨_, hcb, _⟩ := selectsCover_cons.mp hc
    exact ih (hwb _ hb) (hkb _ hb) (hcb _ hb) (hr.branch _ hb)

theorem summaries_of_compile? {access : Access} {stage : Stage} (hk : ¬t.Reshapes)
    (h : Stage.compile? access registry t = .ok (some stage)) : stage.summaries = [] := by
  cases t with
  | aggregate => exact absurd .aggregate hk
  | groupBy => exact absurd .groupBy hk
  | concat branches =>
    obtain ⟨compiled, -, hp⟩ := bind_eq_ok.mp h
    cases hp
    rfl
  | filter | select | orderBy | top | skip =>
    cases h
    rfl
  | identity => cases h

theorem methods_of_not_reshapes (hk : ¬t.Reshapes) : t.methods = [] := by
  cases t with
  | aggregate => exact absurd .aggregate hk
  | groupBy => exact absurd .groupBy hk
  | filter | select | orderBy | top | skip | concat | identity => rfl

-- The clause compiles, and its run succeeds, if it is not a sorting that breaks off.
theorem exists_execute {clause : Clause} (hw : ∀ t ∈ walk clause, t.WellFormed) (hk : ∀ t ∈ walk clause, ¬t.Reshapes)
    (hc : SelectsCover clause) (hr : ReadableOn clause rows) :
    ∃ stages, Stage.compileAll .strict registry clause = .ok stages ∧
      ((∃ out, Stage.runAll stages rows = .ok out) ∨
        Stage.runAll stages rows = .error .orderNotTotal ∧ Stage.Disordered .strict stages rows) := by
  have hm : ∀ t ∈ walk clause, ∀ name ∈ t.methods, (registry.get? name).isSome := by
    intro t ht name hn
    rw [methods_of_not_reshapes (hk t ht)] at hn
    cases hn
  obtain ⟨stages, hs⟩ := Stage.exists_compileAll hm
  refine ⟨stages, hs, ?_⟩
  cases h : Stage.runAll stages rows with
  | ok out => exact .inl ⟨out, rfl⟩
  | error e =>
    rcases Stage.disordered_or_calls hs (fun t input hg => hg.reads hw hk hc hr) h with ⟨rfl, hd⟩ | hcalls
    case inl => exact .inr ⟨rfl, hd⟩
    case inr =>
      obtain ⟨t, stage, _, -, hg, hcompile, -, s, hm, -⟩ := hcalls
      rw [summaries_of_compile? (hk t hg.mem_walk) hcompile] at hm
      cases hm

end Clause
end RowPipeline
