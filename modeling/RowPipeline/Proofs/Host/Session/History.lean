import Mathlib.Data.List.Induction
import RowPipeline.Proofs.Host.Session.Options
import RowPipeline.Proofs.Host.Session.Scopes

namespace RowPipeline.Session

variable {α : Type} {s : Session} {x : Step} {steps more : List Step} {event : Session → Step → Option α}

def after (s : Session) (steps : List Step) : Session :=
  steps.foldl (fun s x => (s.step x).2) s

-- The session after steps that began with an empty one.
def reached (steps : List Step) : Session :=
  empty.after steps

theorem after_append : s.after (steps ++ more) = (s.after steps).after more :=
  List.foldl_append

theorem after_concat : s.after (steps ++ [x]) = ((s.after steps).step x).2 :=
  after_append

theorem reached_concat : reached (steps ++ [x]) = ((reached steps).step x).2 :=
  after_append

-- What happens along steps, in turn. `event` tells what happens at a step of a session, if anything does.
def events (event : Session → Step → Option α) : Session → List Step → List α
  | _, [] => []
  | s, x :: rest => (event s x).toList ++ events event (s.step x).2 rest

theorem events_append :
    events event s (steps ++ more) = events event s steps ++ events event (s.after steps) more := by
  induction steps generalizing s with
  | nil => rfl
  | cons x rest ih => rw [List.cons_append, events, ih, events, List.append_assoc]; rfl

theorem events_concat : events event s (steps ++ [x]) = events event s steps ++ (event (s.after steps) x).toList := by
  rw [events_append, events, events, List.append_nil]

theorem mem_events {a : α} : a ∈ events event s steps ↔
    ∃ before x rest, steps = before ++ x :: rest ∧ event (s.after before) x = some a := by
  constructor
  case mp =>
    intro h
    induction steps generalizing s with
    | nil => cases h
    | cons y rest ih =>
      rcases List.mem_append.mp h with h | h
      case inl => exact ⟨[], y, rest, rfl, by simpa [after] using h⟩
      case inr =>
        obtain ⟨before, x, rest, rfl, hx⟩ := ih h
        exact ⟨y :: before, x, rest, rfl, hx⟩
  case mpr =>
    rintro ⟨before, x, rest, rfl, hx⟩
    simp [events_append, events, hx]

def earliest (event : Session → Step → Option α) (steps : List Step) : Option α :=
  (events event empty steps).head?

def latest (event : Session → Step → Option α) (steps : List Step) : Option α :=
  (events event empty steps).getLast?

theorem earliest_concat : earliest event (steps ++ [x]) = (earliest event steps).or (event (reached steps) x) := by
  rw [earliest, events_concat, List.head?_append, Option.head?_toList]
  rfl

theorem earliest_append {a : α} (h : earliest event steps = some a) : earliest event (steps ++ more) = some a := by
  rw [earliest] at h ⊢
  rw [events_append, List.head?_append, h, Option.some_or]

theorem latest_concat : latest event (steps ++ [x]) = (event (reached steps) x).or (latest event steps) := by
  have hl : (event (reached steps) x).toList.getLast? = event (reached steps) x := by
    cases event (reached steps) x <;> rfl
  rw [latest, events_concat, List.getLast?_append]
  exact congrArg (·.or (latest event steps)) hl

-- What a session keeps as soon as it has happened is what has happened first.
theorem eq_earliest (view : Session → Option α) (h₀ : view empty = none)
    (h : ∀ steps x, view ((reached steps).step x).2 = (view (reached steps)).or (event (reached steps) x))
    (steps : List Step) : view (reached steps) = earliest event steps := by
  induction steps using List.reverseRecOn with
  | nil => exact h₀
  | append_singleton steps x ih => rw [reached_concat, h, ih, earliest_concat]

-- What a session keeps until it happens again is what has happened last.
theorem eq_latest (view : Session → Option α) (h₀ : view empty = none)
    (h : ∀ steps x, view ((reached steps).step x).2 = (event (reached steps) x).or (view (reached steps)))
    (steps : List Step) : view (reached steps) = latest event steps := by
  induction steps using List.reverseRecOn with
  | nil => exact h₀
  | append_singleton steps x ih => rw [reached_concat, h, ih, latest_concat]

-- All that has a name or a number is there.
structure WellFormed (s : Session) : Prop where
  numbered : Numbered s.scopes s.serial
  contexts : ∀ {id n}, s.contexts.get? id = some n → n < s.seats.length
  options  : ∀ {id n option}, s.options.get? id = some (n, option) → n < s.seats.length

namespace WellFormed

theorem empty : WellFormed empty where
  numbered   := .empty
  contexts h := by simp [Session.empty, Table.get?] at h
  options h  := by simp [Session.empty, Table.get?] at h

theorem exists_seat {n : Nat} (h : n < s.seats.length) : ∃ seat, s.seat? n = some seat :=
  ⟨_, List.getElem?_eq_getElem h⟩

theorem contexts_step (h : WellFormed s) {id : String} {n : Nat} (hg : (s.step x).2.contexts.get? id = some n) :
    n < (s.step x).2.seats.length := by
  by_cases hx : .contexts ∈ x.parts
  case neg =>
    rw [(sameBut_step s x).contexts hx] at hg
    exact Nat.lt_of_lt_of_le (h.contexts hg) (sameBut_step s x).stay
  case pos =>
    obtain ⟨id', route, rfl⟩ : ∃ id route, x = .context id route := by
      cases x <;> simp [Step.parts] at hx ⊢
    rcases step_context (s := s) id' route with hs | ⟨route', hs⟩ <;> rw [hs] at hg ⊢
    case inl => exact h.contexts hg
    case inr =>
      rcases Table.of_get?_put hg with ⟨-, rfl⟩ | ⟨-, hg⟩
      case inl => simp
      case inr => exact Nat.lt_of_lt_of_le (h.contexts hg) (by simp)

theorem options_step (h : WellFormed s) {id : String} {n : Nat} {option : QueryOption}
    (hg : (s.step x).2.options.get? id = some (n, option)) : n < (s.step x).2.seats.length := by
  by_cases hx : x.made? = some id
  case pos =>
    obtain ⟨text, context, grammar, registry, rfl⟩ :
        ∃ text context grammar registry, x = .option id text context grammar registry := by
      cases x <;> simp [Step.made?] at hx ⊢
      exact hx
    rcases step_option (s := s) id text context grammar registry with ⟨e, hs⟩ | ⟨name, number, choice, -, hc, -, hs⟩ <;>
      rw [hs] at hg ⊢
    case inl => exact h.options hg
    case inr =>
      rw [Table.get?_put_self] at hg
      cases hg
      exact h.contexts hc
  case neg =>
    refine Nat.lt_of_lt_of_le ?_ (sameBut_step s x).stay
    rcases ho : s.options.get? id with _ | ⟨number, old⟩
    case none => simp [options_step_of_none ho hx] at hg
    case some =>
      obtain ⟨seat, hs⟩ := exists_seat (h.options ho)
      rw [Session.options_step ho hs hx] at hg
      cases hg
      exact h.options ho

theorem step (h : WellFormed s) (x : Step) : WellFormed (s.step x).2 where
  numbered := numbered_step h.numbered x
  contexts := h.contexts_step
  options  := h.options_step

theorem after (h : WellFormed s) (steps : List Step) : WellFormed (s.after steps) := by
  induction steps using List.reverseRecOn with
  | nil => exact h
  | append_singleton steps x ih => exact after_concat ▸ ih.step x

end WellFormed

theorem wellFormed_reached (steps : List Step) : WellFormed (reached steps) :=
  WellFormed.empty.after steps

end RowPipeline.Session
