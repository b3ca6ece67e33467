import Mathlib.Data.List.Lex
import RowPipeline.Proofs.Clause.Contents

namespace RowPipeline.Clause

-- A place is the number of a step in a sequence, or the number of a concatenation with that of a branch and a
-- place in there. So in the order of lists a concatenation comes before its branches, and these come from left
-- to right before the steps that follow.
inductive OccursAt : List Nat → Transformation → Clause → Prop
  | step {clause : Clause} {i t} : clause[i]? = some t → OccursAt [i] t clause
  | branch {clause : Clause} {branches i j b place t} : clause[i]? = some (.concat branches) →
    branches[j]? = some b → OccursAt place t b → OccursAt (i :: j :: place) t clause

-- The first transformation, in the order of places, that anything belongs to is one that this belongs to.
def Foremost {β : Type} (R : Transformation → β → Prop) (clause : Clause) (x : β) : Prop :=
  ∃ place t, OccursAt place t clause ∧ R t x ∧
    ∀ place' u, place' < place → OccursAt place' u clause → ∀ y, ¬R u y

variable {β : Type} {R : Transformation → β → Prop} {t u : Transformation} {ts b : Clause} {place : List Nat} {x y : β}

theorem OccursAt.ne_nil (h : OccursAt place t ts) : place ≠ [] := by
  cases h <;> exact List.cons_ne_nil _ _

theorem getElem?_branches {j : Nat} : t.branches[j]? = some b ↔ ∃ branches, t = .concat branches ∧ branches[j]? = some b := by
  cases t <;> simp [Transformation.branches]

theorem occursAt_cons : OccursAt place u (t :: ts) ↔ place = [0] ∧ u = t ∨
    (∃ j b rest, t.branches[j]? = some b ∧ OccursAt rest u b ∧ place = 0 :: j :: rest) ∨
    ∃ i rest, OccursAt (i :: rest) u ts ∧ place = (i + 1) :: rest := by
  constructor
  case mp =>
    intro h
    cases h with
    | @step _ i _ h =>
      cases i with
      | zero => exact .inl ⟨rfl, (Option.some.inj h).symm⟩
      | succ i => exact .inr (.inr ⟨i, [], .step h, rfl⟩)
    | @branch _ branches i j b rest _ h hb ho =>
      cases i with
      | zero => exact .inr (.inl ⟨j, b, rest, getElem?_branches.mpr ⟨branches, Option.some.inj h, hb⟩, ho, rfl⟩)
      | succ i => exact .inr (.inr ⟨i, j :: rest, .branch h hb ho, rfl⟩)
  case mpr =>
    rintro (⟨rfl, rfl⟩ | ⟨j, b, rest, hb, ho, rfl⟩ | ⟨i, rest, ho, rfl⟩)
    case inl => exact .step rfl
    case inr.inl =>
      obtain ⟨branches, rfl, hb⟩ := getElem?_branches.mp hb
      exact .branch rfl hb ho
    case inr.inr =>
      cases ho with
      | step h => exact .step h
      | branch h hb ho => exact .branch h hb ho

theorem mem_walk_iff_occursAt : u ∈ walk ts ↔ ∃ place, OccursAt place u ts := by
  induction ts using forall_induction with
  | nil => exact ⟨nofun, fun ⟨_, h⟩ => by cases h <;> contradiction⟩
  | cons t ts branches rest =>
    simp only [mem_walk_cons, rest, occursAt_cons]
    constructor
    case mp =>
      rintro (rfl | ⟨b, hb, hu⟩ | ⟨place, h⟩)
      case inl => exact ⟨_, .inl ⟨rfl, rfl⟩⟩
      case inr.inl =>
        have ⟨j, hj⟩ := List.mem_iff_getElem?.mp hb
        have ⟨place, ho⟩ := (branches b hb).mp hu
        exact ⟨_, .inr (.inl ⟨j, b, place, hj, ho, rfl⟩)⟩
      case inr.inr =>
        obtain ⟨i, place, rfl⟩ := List.exists_cons_of_ne_nil h.ne_nil
        exact ⟨_, .inr (.inr ⟨i, place, h, rfl⟩)⟩
    case mpr =>
      rintro ⟨_, ⟨-, rfl⟩ | ⟨j, b, place, hj, ho, -⟩ | ⟨i, place, ho, -⟩⟩
      case inl => exact .inl rfl
      case inr.inl =>
        have hb := List.mem_of_getElem? hj
        exact .inr (.inl ⟨b, hb, (branches b hb).mpr ⟨place, ho⟩⟩)
      case inr.inr => exact .inr (.inr ⟨_, ho⟩)

-- There is one transformation at a place.
theorem OccursAt.unique (h : OccursAt place t ts) (h' : OccursAt place u ts) : t = u := by
  induction h with
  | step h =>
    cases h' with
    | step h' => exact Option.some.inj (h.symm.trans h')
  | branch h hb _ ih =>
    cases h' with
    | branch h' hb' ho' =>
      cases h.symm.trans h'
      cases hb.symm.trans hb'
      exact ih ho'

namespace Foremost

theorem head (h : R t x) : Foremost R (t :: ts) x := by
  refine ⟨[0], t, .step rfl, h, fun place' u hp ho => ?_⟩
  rcases occursAt_cons.mp ho with ⟨rfl, -⟩ | ⟨_, _, _, -, -, rfl⟩ | ⟨_, _, -, rfl⟩
  all_goals simp [List.cons_lt_cons_iff] at hp

theorem branch {j : Nat} (ht : ∀ y, ¬R t y) (hj : t.branches[j]? = some b)
    (hb : ∀ i b, i < j → t.branches[i]? = some b → ∀ u ∈ walk b, ∀ y, ¬R u y) (h : Foremost R b x) :
    Foremost R (t :: ts) x := by
  have ⟨place, u, ho, hx, hf⟩ := h
  refine ⟨0 :: j :: place, u, occursAt_cons.mpr (.inr (.inl ⟨j, b, place, hj, ho, rfl⟩)), hx, fun place' v hp hv => ?_⟩
  rcases occursAt_cons.mp hv with ⟨-, rfl⟩ | ⟨i, c, rest, hi, hc, rfl⟩ | ⟨_, _, -, rfl⟩
  case inl => exact ht
  case inr.inl =>
    simp only [List.cons_lt_cons_iff, Nat.lt_irrefl, true_and, false_or] at hp
    rcases hp with hp | ⟨rfl, hp⟩
    case inl => exact hb i c hp hi v (mem_walk_iff_occursAt.mpr ⟨rest, hc⟩)
    case inr =>
      cases hi.symm.trans hj
      exact hf rest v hp hc
  case inr.inr => simp [List.cons_lt_cons_iff] at hp

theorem tail (ht : ∀ y, ¬R t y) (hb : ∀ b ∈ t.branches, ∀ u ∈ walk b, ∀ y, ¬R u y) (h : Foremost R ts x) :
    Foremost R (t :: ts) x := by
  have ⟨place, u, ho, hx, hf⟩ := h
  obtain ⟨i, place, rfl⟩ := List.exists_cons_of_ne_nil ho.ne_nil
  refine ⟨(i + 1) :: place, u, occursAt_cons.mpr (.inr (.inr ⟨i, place, ho, rfl⟩)), hx, fun place' v hp hv => ?_⟩
  rcases occursAt_cons.mp hv with ⟨-, rfl⟩ | ⟨j, b, rest, hj, hc, -⟩ | ⟨k, rest, hk, rfl⟩
  case inl => exact ht
  case inr.inl => exact hb b (List.mem_of_getElem? hj) v (mem_walk_iff_occursAt.mpr ⟨rest, hc⟩)
  case inr.inr => exact hf (k :: rest) v (by simpa [List.cons_lt_cons_iff] using hp) hk

-- No two places are first.
theorem unique (hR : ∀ t x y, R t x → R t y → x = y) (h : Foremost R ts x) (h' : Foremost R ts y) : x = y := by
  have ⟨place, t, ho, hx, hf⟩ := h
  have ⟨place', t', ho', hy, hf'⟩ := h'
  rcases lt_trichotomy place place' with hlt | rfl | hlt
  case inl => exact absurd hx (hf' place t hlt ho x)
  case inr.inl =>
    obtain rfl := ho.unique ho'
    exact hR t x y hx hy
  case inr.inr => exact absurd hy (hf place' t' hlt ho' y)

end Foremost

variable {f : Transformation → Option β}

theorem exists_of_findSome?_flatMap {α γ : Type} {g : α → List γ} {f : γ → Option β} {as : List α}
    (h : (as.flatMap g).findSome? f = some x) : ∃ (j : Nat) (a : α), as[j]? = some a ∧ (g a).findSome? f = some x ∧
      ∀ i a, i < j → as[i]? = some a → (g a).findSome? f = none := by
  induction as with
  | nil => contradiction
  | cons a as ih =>
    rw [List.flatMap_cons, List.findSome?_append, Option.or_eq_some_iff] at h
    rcases h with h | ⟨hn, h⟩
    case inl => exact ⟨0, a, rfl, h, nofun⟩
    case inr =>
      have ⟨j, b, hj, hb, hf⟩ := ih h
      refine ⟨j + 1, b, hj, hb, fun i c hi hc => ?_⟩
      cases i with
      | zero => exact Option.some.inj hc ▸ hn
      | succ i => exact hf i c (Nat.lt_of_succ_lt_succ hi) hc

theorem foremost_of_findSome? (h : (walk ts).findSome? f = some x) : Foremost (f · = some ·) ts x := by
  have silent : ∀ b : Clause, (walk b).findSome? f = none → ∀ u ∈ walk b, ∀ y, f u ≠ some y := by
    intro b hb u hu y hy
    rw [List.findSome?_eq_none_iff] at hb
    exact nomatch (hb u hu).symm.trans hy
  induction ts using forall_induction generalizing x with
  | nil => contradiction
  | cons t ts branches rest =>
    rw [walk, List.findSome?_cons] at h
    cases ht : f t with
    | some y =>
      rw [ht] at h
      exact .head (ht.trans h)
    | none =>
      have hn : ∀ y, f t ≠ some y := fun y hy => nomatch ht.symm.trans hy
      rw [ht, walkInside_eq_flatMap, List.findSome?_append, Option.or_eq_some_iff] at h
      rcases h with h | ⟨hb, h⟩
      case inl =>
        obtain ⟨j, b, hj, hb, hf⟩ := exists_of_findSome?_flatMap h
        exact .branch hn hj (fun i c hi hc => silent c (hf i c hi hc)) (branches b (List.mem_of_getElem? hj) hb)
      case inr =>
        rw [List.findSome?_eq_none_iff, List.forall_mem_flatMap] at hb
        refine .tail hn (fun b hm => silent b (List.findSome?_eq_none_iff.mpr (hb b hm))) (rest h)

-- Looking for something along the walk through a clause finds what belongs to the first place with any.
theorem findSome?_walk_eq_some : (walk ts).findSome? f = some x ↔ Foremost (f · = some ·) ts x := by
  constructor
  case mp => exact foremost_of_findSome?
  case mpr =>
    intro h
    cases hw : (walk ts).findSome? f with
    | none =>
      have ⟨place, t, ho, ht, _⟩ := h
      have hn := List.findSome?_eq_none_iff.mp hw t (mem_walk_iff_occursAt.mpr ⟨place, ho⟩)
      exact nomatch hn.symm.trans ht
    | some y =>
      exact congrArg some ((foremost_of_findSome? hw).unique (fun t x y hx hy => Option.some.inj (hx.symm.trans hy)) h)

theorem findSome?_walk_eq_none : (walk ts).findSome? f = none ↔ ∀ place t, OccursAt place t ts → f t = none := by
  simp only [List.findSome?_eq_none_iff, mem_walk_iff_occursAt]
  exact ⟨fun h place t ho => h t ⟨place, ho⟩, fun h t ⟨place, ho⟩ => h place t ho⟩

end RowPipeline.Clause
