import Mathlib.Data.List.Forall2

namespace RowPipeline

variable {α β ε : Type}

theorem bind_eq_ok {m : Except ε α} {f : α → Except ε β} {b : β} :
    m >>= f = .ok b ↔ ∃ a, m = .ok a ∧ f a = .ok b := by
  cases m with
  | error e => simp [bind, Except.bind]
  | ok a => simp [bind, Except.bind]

theorem bind_eq_error {m : Except ε α} {f : α → Except ε β} {e : ε} :
    m >>= f = .error e ↔ m = .error e ∨ ∃ a, m = .ok a ∧ f a = .error e := by
  cases m with
  | error e => simp [bind, Except.bind]
  | ok a => simp [bind, Except.bind]

theorem return_eq_error {m : Except ε α} {f : α → β} {e : ε} : (do return f (← m)) = Except.error e ↔ m = .error e := by
  rw [bind_eq_error]
  simp [pure, Except.pure]

theorem pure_eq_ok {a b : α} : (pure a : Except ε α) = .ok b ↔ a = b := by
  simp [pure, Except.pure]

theorem throw_eq_error {e e' : ε} : (throw e : Except ε α) = .error e' ↔ e = e' :=
  ⟨Except.error.inj, congrArg Except.error⟩

theorem mapError_eq_ok {ε' : Type} {m : Except ε α} {f : ε → ε'} {a : α} : m.mapError f = .ok a ↔ m = .ok a := by
  cases m with
  | error e => simp [Except.mapError]
  | ok b => simp [Except.mapError]

theorem mapError_eq_error {ε' : Type} {m : Except ε α} {f : ε → ε'} {e' : ε'} :
    m.mapError f = .error e' ↔ ∃ e, m = .error e ∧ e' = f e := by
  cases m with
  | error e => simp [Except.mapError, eq_comm]
  | ok b => simp [Except.mapError]

theorem mapM_eq_ok {f : α → Except ε β} {as : List α} {bs : List β} :
    as.mapM f = .ok bs ↔ List.Forall₂ (fun a b => f a = .ok b) as bs := by
  induction as generalizing bs with
  | nil => rw [List.mapM_nil, pure_eq_ok, List.forall₂_nil_left_iff, eq_comm]
  | cons a as ih =>
    simp only [List.mapM_cons, bind_eq_ok, pure_eq_ok, ih, List.forall₂_cons_left_iff]
    constructor
    case mp => rintro ⟨b, hb, bs', hbs, rfl⟩; exact ⟨b, bs', hb, hbs, rfl⟩
    case mpr => rintro ⟨b, bs', hb, hbs, rfl⟩; exact ⟨b, hb, bs', hbs, rfl⟩

-- The first failure is that of the whole.
theorem mapM_eq_error {f : α → Except ε β} {as : List α} {e : ε} : as.mapM f = .error e ↔
    ∃ before a after, as = before ++ a :: after ∧ (∀ b ∈ before, ∃ x, f b = .ok x) ∧ f a = .error e := by
  induction as with
  | nil => simp [pure, Except.pure]
  | cons a as ih =>
    rw [List.mapM_cons, bind_eq_error]
    simp only [return_eq_error, ih]
    constructor
    case mp =>
      rintro (ha | ⟨x, hx, before, a', after, rfl, hb, ha⟩)
      case inl => exact ⟨[], a, as, rfl, nofun, ha⟩
      case inr => exact ⟨a :: before, a', after, rfl, List.forall_mem_cons.mpr ⟨⟨x, hx⟩, hb⟩, ha⟩
    case mpr =>
      rintro ⟨before, a', after, hs, hb, ha⟩
      cases before with
      | nil =>
        obtain ⟨rfl, rfl⟩ := List.cons.inj hs
        exact .inl ha
      | cons b before =>
        obtain ⟨rfl, rfl⟩ := List.cons.inj hs
        obtain ⟨⟨x, hx⟩, hb⟩ := List.forall_mem_cons.mp hb
        exact .inr ⟨x, hx, before, a', after, rfl, hb, ha⟩

theorem exists_forall₂ {R : α → β → Prop} {as : List α} :
    (∃ bs, List.Forall₂ R as bs) ↔ ∀ a ∈ as, ∃ b, R a b := by
  induction as with
  | nil => simp
  | cons a as ih =>
    rw [List.forall_mem_cons, ← ih]
    simp only [List.forall₂_cons_left_iff]
    constructor
    case mp => rintro ⟨_, b, bs, hb, hbs, -⟩; exact ⟨⟨b, hb⟩, bs, hbs⟩
    case mpr => rintro ⟨⟨b, hb⟩, bs, hbs⟩; exact ⟨_, b, bs, hb, hbs, rfl⟩

theorem exists_of_mem_left {R : α → β → Prop} {as : List α} {bs : List β} (h : List.Forall₂ R as bs) :
    ∀ a ∈ as, ∃ b ∈ bs, R a b := by
  induction h with
  | nil => exact nofun
  | cons hb _ ih =>
    refine List.forall_mem_cons.mpr ⟨⟨_, List.mem_cons_self, hb⟩, fun a ha => ?_⟩
    obtain ⟨b, hm, hb⟩ := ih a ha
    exact ⟨b, List.mem_cons_of_mem _ hm, hb⟩

theorem exists_of_mem_right {R : α → β → Prop} {as : List α} {bs : List β} (h : List.Forall₂ R as bs) :
    ∀ b ∈ bs, ∃ a ∈ as, R a b :=
  exists_of_mem_left h.flip

theorem forall₂_congr_of_mem {R R' : α → β → Prop} {as : List α} {bs : List β} (h : ∀ a ∈ as, ∀ b, R a b ↔ R' a b) :
    List.Forall₂ R as bs ↔ List.Forall₂ R' as bs := by
  induction as generalizing bs with
  | nil => simp only [List.forall₂_nil_left_iff]
  | cons a as ih =>
    obtain ⟨ha, has⟩ := List.forall_mem_cons.mp h
    simp only [List.forall₂_cons_left_iff, ha, ih has]

theorem mapM_return {γ : Type} {f : α → Except ε β} {g : β → γ} {as : List α} :
    (as.mapM fun a => do return g (← f a)) = do return (← as.mapM f).map g := by
  induction as with
  | nil => rfl
  | cons a as ih =>
    rw [List.mapM_cons, List.mapM_cons, ih]
    cases f a with
    | error e => rfl
    | ok b => cases as.mapM f <;> rfl

theorem exists_mapM_eq_ok {f : α → Except ε β} {as : List α} :
    (∃ bs, as.mapM f = .ok bs) ↔ ∀ a ∈ as, ∃ b, f a = .ok b := by
  simp only [mapM_eq_ok, exists_forall₂]

-- Where the one computation succeeds, the other one does with the same result.
def SucceedsAs (m m' : Except ε α) : Prop :=
  ∀ a, m = .ok a → m' = .ok a

namespace SucceedsAs

variable {m m' : Except ε α}

theorem rfl : SucceedsAs m m :=
  fun _ => id

theorem bind {f f' : α → Except ε β} (hm : SucceedsAs m m') (hf : ∀ a, SucceedsAs (f a) (f' a)) :
    SucceedsAs (m >>= f) (m' >>= f') := by
  intro b h
  have ⟨a, ha, hb⟩ := bind_eq_ok.mp h
  exact bind_eq_ok.mpr ⟨a, hm a ha, hf a b hb⟩

theorem mapM {f f' : α → Except ε β} (h : ∀ a, SucceedsAs (f a) (f' a)) (as : List α) :
    SucceedsAs (as.mapM f) (as.mapM f') := by
  intro bs hbs
  rw [mapM_eq_ok] at hbs ⊢
  exact hbs.imp fun a => h a

end SucceedsAs

-- Both fail, or both succeed with the same result.
def EndsAs (m m' : Except ε α) : Prop :=
  ∀ a, m = .ok a ↔ m' = .ok a

namespace EndsAs

variable {m m' : Except ε α}

theorem rfl : EndsAs m m :=
  fun _ => Iff.rfl

theorem bind {f f' : α → Except ε β} (hm : EndsAs m m') (hf : ∀ a, EndsAs (f a) (f' a)) :
    EndsAs (m >>= f) (m' >>= f') := by
  intro b
  simp only [bind_eq_ok]
  exact exists_congr fun a => and_congr (hm a) (hf a b)

theorem mapM {f f' : α → Except ε β} {as : List α} (h : ∀ a ∈ as, EndsAs (f a) (f' a)) :
    EndsAs (as.mapM f) (as.mapM f') := by
  induction as with
  | nil => exact .rfl
  | cons a as ih =>
    obtain ⟨ha, has⟩ := List.forall_mem_cons.mp h
    rw [List.mapM_cons, List.mapM_cons]
    exact ha.bind fun b => (ih has).bind fun _ => .rfl

end EndsAs

end RowPipeline
