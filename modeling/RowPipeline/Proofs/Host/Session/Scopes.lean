import RowPipeline.Proofs.Host.Session.Effects

namespace RowPipeline

namespace Table

variable {α : Type} {table : Table α} {name other : String} {value v : α}

theorem mem_iff_get? (h : (table.map (·.1)).Nodup) : (name, value) ∈ table ↔ table.get? name = some value := by
  rw [get?, List.lookup_eq_some_iff]
  constructor
  case mp =>
    intro hm
    obtain ⟨before, behind, rfl⟩ := List.append_of_mem hm
    refine ⟨before, behind, rfl, fun m hb => bne_iff_ne.mpr ?_⟩
    rw [List.map_append, List.map_cons, List.nodup_append] at h
    exact (h.2.2 m.1 (List.mem_map_of_mem hb) name List.mem_cons_self).symm
  case mpr =>
    rintro ⟨before, behind, rfl, -⟩
    exact List.mem_append_right _ List.mem_cons_self

theorem of_get?_put (h : (table.put name value).get? other = some v) :
    (other = name ∧ v = value) ∨ (other ≠ name ∧ table.get? other = some v) := by
  by_cases hn : other = name
  case pos =>
    rw [hn, get?_put_self] at h
    exact .inl ⟨hn, (Option.some.inj h).symm⟩
  case neg => exact .inr ⟨hn, get?_put_of_ne table hn value ▸ h⟩

theorem of_get?_erase (h : (table.erase name).get? other = some v) : table.get? other = some v := by
  by_cases hn : other = name
  case pos => simp [hn, get?_erase_self] at h
  case neg => rwa [get?_erase_of_ne table hn] at h

end Table

namespace Session

-- Names and numbers are not used twice, and new numbers begin at `next`.
structure Numbered (scopes : Table (Instance Scope)) (next : Nat) : Prop where
  names    : (scopes.map (·.1)).Nodup
  below    : ∀ {name held}, scopes.get? name = some held → held.serial < next
  distinct : ∀ {name name' held held'}, scopes.get? name = some held → scopes.get? name' = some held' →
    held.serial = held'.serial → name = name'

namespace Numbered

variable {scopes : Table (Instance Scope)} {next : Nat} {name : String} {held : Instance Scope}

theorem empty : Numbered [] next where
  names        := List.nodup_nil
  below h      := by simp [Table.get?] at h
  distinct h _ := by simp [Table.get?] at h

theorem mono (h : Numbered scopes next) {next' : Nat} (hn : next ≤ next') : Numbered scopes next' where
  names    := h.names
  below hg := Nat.lt_of_lt_of_le (h.below hg) hn
  distinct := h.distinct

theorem erase (h : Numbered scopes next) (name : String) : Numbered (scopes.erase name) next where
  names         := h.names.sublist (List.filter_sublist.map _)
  below he      := h.below (Table.of_get?_erase he)
  distinct he₁ he₂ := h.distinct (Table.of_get?_erase he₁) (Table.of_get?_erase he₂)

-- The number is new, or it is the one that the name had before.
theorem put (h : Numbered scopes next) (hb : held.serial < next)
    (hd : ∀ {name' held'}, scopes.get? name' = some held' → held'.serial = held.serial → name' = name) :
    Numbered (scopes.put name held) next where
  names := List.nodup_cons.mpr ⟨by simp, (h.erase name).names⟩
  below hg := by
    rcases Table.of_get?_put hg with ⟨-, rfl⟩ | ⟨-, hg⟩
    case inl => exact hb
    case inr => exact h.below hg
  distinct h₁ h₂ hs := by
    rcases Table.of_get?_put h₁ with ⟨rfl, rfl⟩ | ⟨-, ho₁⟩
    case inl =>
      rcases Table.of_get?_put h₂ with ⟨rfl, -⟩ | ⟨-, ho₂⟩
      case inl => rfl
      case inr => exact (hd ho₂ hs.symm).symm
    case inr =>
      rcases Table.of_get?_put h₂ with ⟨rfl, rfl⟩ | ⟨-, ho₂⟩
      case inl => exact hd ho₁ hs
      case inr => exact h.distinct ho₁ ho₂ hs

end Numbered

variable {s : Session} {k : Nat} {scope : Scope} {x : Step}

theorem live?_eq_some (h : Numbered s.scopes s.serial) :
    s.live? k = some scope ↔ ∃ name, s.scopes.get? name = some ⟨k, scope⟩ := by
  rw [live?, Option.map_eq_some_iff]
  constructor
  case mp =>
    rintro ⟨⟨name, held⟩, hf, rfl⟩
    obtain rfl : held.serial = k := by simpa using List.find?_some hf
    exact ⟨name, (Table.mem_iff_get? h.names).mp (List.mem_of_find?_eq_some hf)⟩
  case mpr =>
    rintro ⟨name, hg⟩
    have hm := (Table.mem_iff_get? h.names).mpr hg
    obtain ⟨⟨name', held'⟩, hf⟩ := Option.isSome_iff_exists.mp
      (List.find?_isSome.mpr ⟨_, hm, by simp⟩ : (s.scopes.find? fun m => decide (m.2.serial = k)).isSome)
    refine ⟨_, hf, ?_⟩
    -- Another entry with this number has the same name.
    have hs : held'.serial = k := by simpa using List.find?_some hf
    have hg' := (Table.mem_iff_get? h.names).mp (List.mem_of_find?_eq_some hf)
    obtain rfl := h.distinct hg' hg hs
    rw [hg'] at hg
    obtain rfl := Option.some.inj hg
    rfl

-- The number of the scope that a name stands for.
def number? (s : Session) (name : String) : Option Nat :=
  (s.scopes.get? name).map (·.serial)

theorem number?_eq_some {name : String} : s.number? name = some k ↔ ∃ scope, s.scopes.get? name = some ⟨k, scope⟩ := by
  simp only [number?, Option.map_eq_some_iff]
  constructor
  case mp =>
    rintro ⟨held, hg, rfl⟩
    exact ⟨held.value, hg⟩
  case mpr =>
    rintro ⟨scope, hg⟩
    exact ⟨_, hg, rfl⟩

-- What a step makes of a scope that it does not end.
def scopeAfter (s : Session) (k : Nat) (scope : Scope) : Step → Scope
  | .register id registration =>
    if s.number? id = some k then (registration.onto? s.serial scope).getD scope else scope
  | .remove id service => if s.number? id = some k then scope.remove service else scope
  | _ => scope

-- What a step puts under a name is a new scope, or what it makes of the one there.
theorem of_scopePut? {name : String} {held : Instance Scope} (h : s.scopePut? x = some (name, held)) :
    (x = .scope name ∧ held = ⟨s.serial, Scope.empty⟩) ∨
      ∃ scope, s.scopes.get? name = some ⟨held.serial, scope⟩ ∧ held.value = s.scopeAfter held.serial scope x := by
  cases x with
  | scope id =>
    obtain ⟨rfl, rfl⟩ : id = name ∧ ⟨s.serial, Scope.empty⟩ = held := by simpa [scopePut?] using h
    exact .inl ⟨rfl, rfl⟩
  | register id registration =>
    simp only [scopePut?, Option.bind_eq_bind, Option.bind_eq_some_iff, Option.pure_def, Option.some.injEq,
      Prod.mk.injEq] at h
    obtain ⟨old, hg, scope, ha, rfl, rfl⟩ := h
    refine .inr ⟨old.value, hg, ?_⟩
    simp [scopeAfter, number?, hg, ha]
  | remove id service =>
    simp only [scopePut?, Option.bind_eq_bind, Option.bind_eq_some_iff, Option.pure_def, Option.some.injEq,
      Prod.mk.injEq] at h
    obtain ⟨old, hg, rfl, rfl⟩ := h
    refine .inr ⟨old.value, hg, ?_⟩
    simp [scopeAfter, number?, hg]
  | _ => simp [scopePut?] at h

theorem scopeAfter_of_no_put {name : String} (h : Numbered s.scopes s.serial)
    (hg : s.scopes.get? name = some ⟨k, scope⟩) (hp : ∀ held, s.scopePut? x ≠ some (name, held)) :
    s.scopeAfter k scope x = scope := by
  have hn : ∀ {id}, s.number? id = some k → id = name := by
    intro id hk
    obtain ⟨_, hi⟩ := number?_eq_some.mp hk
    exact h.distinct hi hg rfl
  cases x with
  | register id registration =>
    rw [scopeAfter, ite_eq_right_iff]
    intro hk
    obtain rfl := hn hk
    cases ha : registration.onto? s.serial scope with
    | none => rfl
    | some applied => exact absurd (by simp [scopePut?, hg, ha]) (hp ⟨k, applied⟩)
  | remove id service =>
    rw [scopeAfter, ite_eq_right_iff]
    intro hk
    obtain rfl := hn hk
    exact absurd (by simp [scopePut?, hg]) (hp ⟨k, scope.remove service⟩)
  | _ => rfl

theorem numbered_step (h : Numbered s.scopes s.serial) (x : Step) :
    Numbered (s.step x).2.scopes (s.step x).2.serial := by
  by_cases hx : ∃ id, x = .dropScope id
  case pos =>
    obtain ⟨id, rfl⟩ := hx
    exact h.erase id
  case neg =>
    rw [scopes_step x (fun id he => hx ⟨id, he⟩)]
    have hm := h.mono (sameBut_step s x).serial
    rcases hp : s.scopePut? x with _ | ⟨name, held⟩
    case none => exact hm
    case some =>
      rcases of_scopePut? hp with ⟨rfl, rfl⟩ | ⟨scope, hg, -⟩
      case inl => exact hm.put (Nat.lt_succ_self _) fun hg hs => absurd hs (Nat.ne_of_lt (h.below hg))
      case inr => exact hm.put (hm.below hg :) fun hg' hs => h.distinct hg' hg hs

-- A scope that lives after a step is new, or it is what the step has made of one that lived before.
theorem live?_step (h : Numbered s.scopes s.serial) (hl : (s.step x).2.live? k = some scope) :
    (k = s.serial ∧ scope = Scope.empty) ∨ ∃ old, s.live? k = some old ∧ scope = s.scopeAfter k old x := by
  obtain ⟨name, hg⟩ := (live?_eq_some (numbered_step h x)).mp hl
  by_cases hx : ∃ id, x = .dropScope id
  case pos =>
    obtain ⟨id, rfl⟩ := hx
    exact .inr ⟨scope, (live?_eq_some h).mpr ⟨name, Table.of_get?_erase hg⟩, rfl⟩
  case neg =>
    have other : s.scopes.get? name = some ⟨k, scope⟩ → (∀ held, s.scopePut? x ≠ some (name, held)) →
        ∃ old, s.live? k = some old ∧ scope = s.scopeAfter k old x :=
      fun hg hp => ⟨scope, (live?_eq_some h).mpr ⟨name, hg⟩, (scopeAfter_of_no_put h hg hp).symm⟩
    rw [scopes_step x (fun id he => hx ⟨id, he⟩)] at hg
    rcases hp : s.scopePut? x with _ | ⟨put, held⟩ <;> rw [hp] at hg
    case none => exact .inr (other hg (by simp [hp]))
    case some =>
      rcases Table.of_get?_put hg with ⟨rfl, rfl⟩ | ⟨hn, hg⟩
      case inr => exact .inr (other hg (by simp [hp, hn.symm]))
      case inl =>
        rcases of_scopePut? hp with ⟨-, he⟩ | ⟨old, ho, he⟩
        case inl =>
          cases he
          exact .inl ⟨rfl, rfl⟩
        case inr => exact .inr ⟨old, (live?_eq_some h).mpr ⟨name, ho⟩, he⟩

end Session
end RowPipeline
