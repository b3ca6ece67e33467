import RowPipeline.Proofs.Host.Session.History

namespace RowPipeline

open Session

-- A kind of service: what a scope holds of it and what a registration gives.
structure Slot (α : Type) where
  service : Service
  held    : Scope → Option α
  given?  : Nat → Registration → Option α

namespace Slot

variable {α : Type} {slot : Slot α} {steps : List Step} {k : Nat} {scope : Scope}

def settings : Slot (Instance Defaults) where
  service := .settings
  held    := Scope.defaults
  given? serial
    | .settings value => (Defaults.ofDocument? (.ofValue value)).map (⟨serial, ·⟩)
    | .shared defaults => some defaults
    | _ => none

def resolver : Slot Resolver where
  service := .resolver
  held    := Scope.resolver
  given? _
    | .resolver resolver => some resolver
    | _ => none

-- Registrations and removals reach the services of their own kind only.
structure Lawful (slot : Slot α) : Prop where
  empty  : slot.held Scope.empty = none
  onto   : ∀ serial scope registration, slot.held ((registration.onto? serial scope).getD scope) =
    (slot.given? serial registration).or (slot.held scope)
  remove : ∀ scope service, slot.held (Scope.remove scope service) =
    if service = slot.service then none else slot.held scope

theorem lawful_settings : settings.Lawful where
  empty := rfl
  onto serial scope registration := by
    cases registration with
    | settings value =>
      cases hd : Defaults.ofDocument? (.ofValue value) <;> simp [Registration.onto?, settings, hd]
    | _ => rfl
  remove scope service := by cases service <;> rfl

theorem lawful_resolver : resolver.Lawful where
  empty := rfl
  onto serial scope registration := by
    cases registration with
    | settings value =>
      cases hd : Defaults.ofDocument? (.ofValue value) <;> simp [Registration.onto?, resolver, hd]
    | _ => rfl
  remove scope service := by cases service <;> rfl

-- What a step makes of the service in a scope: it registers one or takes the one there away.
def change (slot : Slot α) (k : Nat) (s : Session) : Step → Option (Option α)
  | .register name registration =>
    if s.number? name = some k then (slot.given? s.serial registration).map some else none
  | .remove name service => if s.number? name = some k ∧ service = slot.service then some none else none
  | _ => none

-- What was registered last in a scope, if it has not been removed since.
def registered (slot : Slot α) (steps : List Step) (k : Nat) : Option α :=
  (latest (slot.change k) steps).join

theorem held_scopeAfter (h : slot.Lawful) (s : Session) (x : Step) :
    slot.held (s.scopeAfter k scope x) = (slot.change k s x).getD (slot.held scope) := by
  cases x with
  | register name registration =>
    simp only [scopeAfter, change]
    split
    case isTrue =>
      rw [h.onto]
      cases slot.given? s.serial registration <;> rfl
    case isFalse => rfl
  | remove name service =>
    by_cases hk : s.number? name = some k <;> simp [scopeAfter, change, hk, h.remove]
    split <;> rfl
  | _ => rfl

-- Nothing happens to a scope before it is made.
theorem change_eq_none {s : Session} (h : Numbered s.scopes s.serial) (hk : s.serial ≤ k) (x : Step) :
    slot.change k s x = none := by
  have hn : ∀ name, s.number? name ≠ some k := by
    intro name hn
    obtain ⟨scope, hg⟩ := number?_eq_some.mp hn
    exact Nat.not_lt.mpr hk (h.below hg)
  cases x with
  | register | remove => simp [change, hn]
  | _ => rfl

theorem latest_change_eq_none (hk : (reached steps).serial ≤ k) : latest (slot.change k) steps = none := by
  induction steps using List.reverseRecOn with
  | nil => rfl
  | append_singleton steps x ih =>
    rw [reached_concat] at hk
    have hk := Nat.le_trans (sameBut_step (reached steps) x).serial hk
    rw [latest_concat, change_eq_none (wellFormed_reached steps).numbered hk, ih hk]
    rfl

theorem held_eq_registered (h : slot.Lawful) (hl : (reached steps).live? k = some scope) :
    slot.held scope = slot.registered steps k := by
  rw [registered]
  induction steps using List.reverseRecOn generalizing scope with
  | nil => simp [reached, after, Session.empty, live?] at hl
  | append_singleton steps x ih =>
    have hw := (wellFormed_reached steps).numbered
    rw [reached_concat] at hl
    rw [latest_concat]
    rcases live?_step hw hl with ⟨rfl, rfl⟩ | ⟨old, ho, rfl⟩
    case inl =>
      rw [h.empty, change_eq_none hw (Nat.le_refl _), latest_change_eq_none (Nat.le_refl _)]
      rfl
    case inr =>
      rw [held_scopeAfter h, ih ho]
      cases slot.change k (reached steps) x <;> rfl

end Slot
end RowPipeline
