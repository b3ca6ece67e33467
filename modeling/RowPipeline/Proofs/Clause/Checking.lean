import RowPipeline.Proofs.Clause.Scan

namespace RowPipeline.Scan

variable {α α' β β' σ : Type} {p : Prop}

-- Once `p` has been checked, a step succeeds if the other does and what this yields passes `R`. The results differ
-- by `g`. What has been checked grows along a sequence of steps, and the last one compares it with what had to be.
def ChecksThrough (g : α' → α) (p : Prop) (m : Scan α) (m' : Scan α') (R : α' → Prop) : Prop :=
  ∀ cursor x next, p ∧ m.Yields cursor x next ↔ ∃ x', m'.Yields cursor x' next ∧ x = g x' ∧ R x'

-- The same result.
def Checks (p : Prop) (m m' : Scan α) (R : α → Prop) : Prop :=
  ∀ cursor x next, p ∧ m.Yields cursor x next ↔ m'.Yields cursor x next ∧ R x

namespace ChecksThrough

variable {g : α' → α} {h : β' → β} {P R : α' → Prop} {m : Scan α} {m' : Scan α'}

theorem known_bind {f : α → Scan β} {f' : α' → Scan β'} {R : β' → Prop} (hm : ChecksThrough g p m m' P)
    (hf : ∀ x, (∃ cursor next, m'.Yields cursor x next) → ChecksThrough h (P x) (f (g x)) (f' x) R) :
    ChecksThrough h p (m >>= f) (m' >>= f') R := by
  intro cursor y next
  simp only [yields_bind]
  constructor
  case mp =>
    rintro ⟨hp, x, mid, hx, hy⟩
    obtain ⟨x', hx', rfl, hp⟩ := (hm _ _ _).mp ⟨hp, hx⟩
    obtain ⟨y', hy', rfl, hr⟩ := (hf x' ⟨_, _, hx'⟩ _ _ _).mp ⟨hp, hy⟩
    exact ⟨y', ⟨x', mid, hx', hy'⟩, rfl, hr⟩
  case mpr =>
    rintro ⟨y', ⟨x', mid, hx', hy'⟩, rfl, hr⟩
    obtain ⟨hp, hy⟩ := (hf x' ⟨_, _, hx'⟩ _ _ _).mpr ⟨y', hy', rfl, hr⟩
    obtain ⟨hp, hx⟩ := (hm _ _ _).mpr ⟨x', hx', rfl, hp⟩
    exact ⟨hp, g x', mid, hx, hy⟩

theorem bind {f : α → Scan β} {f' : α' → Scan β'} {R : β' → Prop} (hm : ChecksThrough g p m m' P)
    (hf : ∀ x, ChecksThrough h (P x) (f (g x)) (f' x) R) : ChecksThrough h p (m >>= f) (m' >>= f') R :=
  hm.known_bind fun x _ => hf x

theorem pure {x : α'} (h : p ↔ R x) : ChecksThrough g p (pure (g x)) (Pure.pure x) R := by
  intro cursor y next
  simp only [yields_pure]
  constructor
  case mp => rintro ⟨hp, rfl, hn⟩; exact ⟨x, ⟨rfl, hn⟩, rfl, h.mp hp⟩
  case mpr => rintro ⟨_, ⟨rfl, hn⟩, rfl, hr⟩; exact ⟨h.mpr hr, rfl, hn⟩

theorem after (hm : ChecksThrough g True m m' R) : ChecksThrough g p m m' fun x => p ∧ R x := by
  intro cursor x next
  have h := hm cursor x next
  rw [true_and] at h
  rw [h]
  constructor
  case mp => rintro ⟨hp, x', hx, rfl, hr⟩; exact ⟨x', hx, rfl, hp, hr⟩
  case mpr => rintro ⟨x', hx, rfl, hp, hr⟩; exact ⟨hp, x', hx, rfl, hr⟩

theorem ite {c : Prop} [Decidable c] {n : Scan α} {n' : Scan α'} (hm : ChecksThrough g p m m' R)
    (hn : ChecksThrough g p n n' R) :
    ChecksThrough g p (if c then m else n) (if c then m' else n') R := by
  split
  case isTrue => exact hm
  case isFalse => exact hn

theorem failAt {position : Nat} {fault : SyntaxFault} :
    ChecksThrough g p (failAt position fault : Scan α) (Scan.failAt position fault) R := by
  intro cursor x next
  simp

theorem fail {fault : SyntaxFault} : ChecksThrough g p (fail fault : Scan α) (Scan.fail fault) R := by
  intro cursor x next
  simp

-- Repetitions. How an item is checked and its result may hang on what has been read before.
section Many

variable {σ' : Type} {again : Scan Bool} {item : σ → Scan α} {item' : σ' → Scan α'} {step : σ → α → σ}
  {step' : σ' → α' → σ'} {s₀ : σ'} {g : σ → α' → α} {G : σ → List α' → List α} {P : σ → α' → Prop}
  {R : σ → List α' → Prop} {n : Nat}

theorem manyAfter (hg : ∀ s, G s [] = []) (hgc : ∀ s x xs, G s (x :: xs) = g s x :: G (step s (g s x)) xs)
    (hr : ∀ s, R s []) (hrc : ∀ s x xs, R s (x :: xs) ↔ P s x ∧ R (step s (g s x)) xs)
    (hs : ∀ {cursor x next}, (item' s₀).Yields cursor x next → step' s₀ x = s₀)
    (hi : ∀ s, ChecksThrough (g s) True (item s) (item' s₀) (P s)) (s : σ) :
    ChecksThrough (G s) True (manyAfter again item step n s) (Scan.manyAfter again item' step' n s₀) (R s) := by
  have hn : ∀ s, ChecksThrough (G s) True (Pure.pure []) (Pure.pure []) (R s) := by
    intro s
    have h : ChecksThrough (G s) True (Pure.pure (G s [])) (Pure.pure []) (R s) := pure (iff_of_true trivial (hr s))
    rwa [hg] at h
  induction n generalizing s
  case zero => exact hn s
  case succ n ih =>
    refine bind (g := id) (P := fun _ => True) (fun _ _ _ => by simp) fun b => ite ?_ (hn s)
    refine known_bind (hi s) fun x hx => ?_
    obtain ⟨_, _, hx⟩ := hx
    rw [hs hx]
    refine bind (after (ih (step s (g s x)))) fun xs => ?_
    rw [← hgc]
    exact pure (hrc s x xs).symm

end Many

-- What all items of a repetition have to pass is what each of them has to.
section Joined

variable {again : Scan Bool}

theorem many (hi : ChecksThrough g True m m' P) :
    ChecksThrough (List.map g) True (many again m) (Scan.many again m') fun xs => ∀ x ∈ xs, P x :=
  bind (g := id) (P := fun _ => True) (fun _ _ _ => by simp) fun _ =>
    manyAfter (G := fun _ => List.map g) (P := fun _ => P) (R := fun _ xs => ∀ x ∈ xs, P x) (fun _ => rfl)
      (fun _ _ _ => rfl) (fun _ => List.forall_mem_nil _) (fun _ _ _ => List.forall_mem_cons) (fun _ => rfl)
      (fun _ => hi) ()

theorem listBy {mark : Char} (hi : ChecksThrough g True m m' P) :
    ChecksThrough (List.map g) True (listBy mark m) (Scan.listBy mark m') fun xs => ∀ x ∈ xs, P x :=
  bind hi fun x => bind (after (many hi)) fun xs =>
    pure (g := List.map g) (x := x :: xs) List.forall_mem_cons.symm

end Joined

end ChecksThrough

theorem checks_iff {m m' : Scan α} {R : α → Prop} : Checks p m m' R ↔ ChecksThrough id p m m' R := by
  have h : ∀ cursor x next, (∃ x', m'.Yields cursor x' next ∧ x = id x' ∧ R x') ↔ m'.Yields cursor x next ∧ R x := by
    intro cursor x next
    constructor
    case mp => rintro ⟨_, hx, rfl, hr⟩; exact ⟨hx, hr⟩
    case mpr => rintro ⟨hx, hr⟩; exact ⟨x, hx, rfl, hr⟩
  simp only [Checks, ChecksThrough, h]

namespace Checks

variable {P R : α → Prop} {m m' : Scan α}

theorem bind_through {h : β' → β} {f : α → Scan β} {f' : α → Scan β'} {R : β' → Prop} (hm : Checks p m m' P)
    (hf : ∀ x, ChecksThrough h (P x) (f x) (f' x) R) : ChecksThrough h p (m >>= f) (m' >>= f') R :=
  (checks_iff.mp hm).bind hf

theorem bind {f f' : α → Scan β} {R : β → Prop} (hm : Checks p m m' P)
    (hf : ∀ x, Checks (P x) (f x) (f' x) R) : Checks p (m >>= f) (m' >>= f') R :=
  checks_iff.mpr (hm.bind_through fun x => checks_iff.mp (hf x))

theorem pure {x : α} (h : p ↔ R x) : Checks p (pure x) (Pure.pure x) R :=
  checks_iff.mpr (.pure h)

-- A step that checks nothing.
theorem same (m : Scan α) : Checks p m m fun _ => p :=
  fun _ _ _ => and_comm

theorem same_bind {f f' : α → Scan β} {R : β → Prop} (hf : ∀ x, Checks p (f x) (f' x) R) :
    Checks p (m >>= f) (m >>= f') R :=
  bind (same m) hf

theorem same_bind_through {h : β' → β} {f : α → Scan β} {f' : α → Scan β'} {R : β' → Prop}
    (hf : ∀ x, ChecksThrough h p (f x) (f' x) R) : ChecksThrough h p (m >>= f) (m >>= f') R :=
  bind_through (same m) hf

-- The same, for results of which something is known.
theorem known_bind {f f' : α → Scan β} {R : β → Prop} (hk : ∀ {cursor x next}, m.Yields cursor x next → P x)
    (hf : ∀ x, P x → Checks p (f x) (f' x) R) : Checks p (m >>= f) (m >>= f') R := by
  refine checks_iff.mpr ((checks_iff.mp (same m)).known_bind fun x hx => ?_)
  obtain ⟨_, _, hx⟩ := hx
  exact checks_iff.mp (hf x (hk hx))

theorem after (hm : Checks True m m' R) : Checks p m m' fun x => p ∧ R x :=
  checks_iff.mpr (checks_iff.mp hm).after

theorem congr {Q : α → Prop} (hm : Checks p m m' P) (h : ∀ x, P x ↔ Q x) : Checks p m m' Q := by
  intro cursor x next
  rw [← h]
  exact hm cursor x next

theorem ite {c : Prop} [Decidable c] {n n' : Scan α} (hm : Checks p m m' R) (hn : Checks p n n' R) :
    Checks p (if c then m else n) (if c then m' else n') R :=
  checks_iff.mpr (.ite (checks_iff.mp hm) (checks_iff.mp hn))

theorem failAt {position : Nat} {fault : SyntaxFault} :
    Checks p (failAt position fault : Scan α) (Scan.failAt position fault) R :=
  checks_iff.mpr .failAt

theorem fail {fault : SyntaxFault} : Checks p (fail fault : Scan α) (Scan.fail fault) R :=
  checks_iff.mpr .fail

theorem many {again : Scan Bool} (hm : Checks True m m' P) :
    Checks True (many again m) (Scan.many again m') fun xs => ∀ x ∈ xs, P x := by
  have h : ChecksThrough (List.map id) True (Scan.many again m) (Scan.many again m') fun xs => ∀ x ∈ xs, P x :=
    (checks_iff.mp hm).many
  rw [List.map_id_fun] at h
  exact checks_iff.mpr h

theorem listBy {mark : Char} (hm : Checks True m m' P) :
    Checks True (listBy mark m) (Scan.listBy mark m') fun xs => ∀ x ∈ xs, P x :=
  bind hm fun _ => bind (after (many hm)) fun _ => pure List.forall_mem_cons.symm

theorem chain {word : String} {combine : α → α → α} (hm : Checks True m m' P)
    (hc : ∀ x y, P (combine x y) ↔ P x ∧ P y) :
    Checks True (chain word combine m) (Scan.chain word combine m') P := by
  refine bind hm fun x => bind (after (many hm)) fun xs => pure ?_
  induction xs generalizing x with
  | nil => simp
  | cons y ys ih => rw [List.foldl_cons, ← ih, hc, List.forall_mem_cons, and_assoc]

end Checks
end RowPipeline.Scan
