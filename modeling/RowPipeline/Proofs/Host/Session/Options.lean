import RowPipeline.Proofs.Host.Session.Effects

namespace RowPipeline

namespace Step

-- The option that a step makes.
def made? : Step → Option String
  | .option id .. => some id
  | _ => none

theorem cases_of_option_mem {x : Step} {id : String} (h : .option id ∈ x.parts) :
    x.made? = some id ∨ x = .clause id ∨ x = .validate id ∨
      ∃ query into settings, x = .applyTo id query into settings := by
  cases x with
  | option | clause | validate | applyTo => simp_all [parts, made?]
  | _ => simp [parts] at h

end Step

namespace Session

open RowPipeline.Action

variable {s : Session} {id : String} {n : Nat} {seat : Seat} {option : QueryOption} {x : Step}

-- The step gets as far as to the option. Applications look for the query and the settings before.
def accesses (s : Session) (id : String) : Step → Bool
  | .clause name | .validate name => id = name
  | .applyTo name query _ settings =>
    id = name && (s.queries.get? query).isSome && (Settings.given? settings).isSome
  | _ => false

-- An application that does not get to its option changes nothing.
theorem step_applyTo_of_not_accesses {query into : String} {settings : Option Value}
    (h : s.options.get? id = none ∨ s.accesses id (.applyTo id query into settings) = false) :
    ∃ e, s.step (.applyTo id query into settings) = (.error e, s) := by
  show ∃ e, (Action.applyTo id query into settings).on s = _
  cases ho : s.options.get? id with
  | none => simp [applyTo, ho]
  | some held =>
    cases hq : s.queries.get? query with
    | none => simp [applyTo, ho, hq]
    | some source =>
      have hg : Settings.given? settings = none := by simpa [accesses, ho, hq] using h
      cases settings with
      | none => contradiction
      | some value =>
        have hd : Settings.ofDocument? (.ofValue value) = none := hg
        simp [applyTo, ho, hq, hd]

theorem of_accesses_applyTo {query into : String} {settings : Option Value}
    (h : s.accesses id (.applyTo id query into settings) = true) :
    ∃ source applied, s.queries.get? query = some source ∧ Settings.given? settings = some applied := by
  obtain ⟨hq, hg⟩ : (s.queries.get? query).isSome ∧ (Settings.given? settings).isSome := by simpa [accesses] using h
  obtain ⟨source, hq⟩ := Option.isSome_iff_exists.mp hq
  obtain ⟨applied, hg⟩ := Option.isSome_iff_exists.mp hg
  exact ⟨source, applied, hq, hg⟩

-- A name that stands for no option is given one by making it only.
theorem options_step_of_none (h : s.options.get? id = none) (hx : x.made? ≠ some id) :
    (s.step x).2.options.get? id = none := by
  by_cases hp : .option id ∈ x.parts
  case neg => rwa [(sameBut_step s x).option id hp]
  case pos =>
    suffices hs : (s.step x).2 = s by rwa [hs]
    rcases (Step.cases_of_option_mem hp).resolve_left hx with rfl | rfl | ⟨query, into, settings, rfl⟩
    case inl =>
      show ((clauseOf id).on s).2 = s
      simp [clauseOf, h]
    case inr.inl =>
      show ((Action.validate id).on s).2 = s
      simp [validate, h]
    case inr.inr =>
      obtain ⟨e, he⟩ := step_applyTo_of_not_accesses (.inl h)
      rw [he]

theorem options_step (ho : s.options.get? id = some (n, option)) (hs : s.seat? n = some seat)
    (hx : x.made? ≠ some id) :
    (s.step x).2.options.get? id = some (n, if s.accesses id x then option.parse.2 else option) := by
  by_cases hp : .option id ∈ x.parts
  case neg =>
    have ha : s.accesses id x = false := by
      cases x with
      | clause | validate | applyTo => simp_all [accesses, Step.parts]
      | _ => rfl
    rw [(sameBut_step s x).option id hp, ho, ha]
    rfl
  case pos =>
    rcases (Step.cases_of_option_mem hp).resolve_left hx with rfl | rfl | ⟨query, into, settings, rfl⟩
    case inl => simp [step_clause ho, accesses, Table.get?_put_self]
    case inr.inl =>
      simp [step_validate ho hs, accesses, putSeat, QueryOption.validate_snd_fst, Table.get?_put_self]
    case inr.inr =>
      cases ha : s.accesses id (.applyTo id query into settings) with
      | false =>
        obtain ⟨e, he⟩ := step_applyTo_of_not_accesses (.inr ha)
        rw [he]
        exact ho
      | true =>
        obtain ⟨source, applied, hq, hg⟩ := of_accesses_applyTo ha
        have hr := QueryOption.applyTo_snd option (s.scopeOf seat.context) source applied
        rw [step_applyTo ho hq hg hs]
        rcases hp : option.applyTo (s.scopeOf seat.context) source applied with ⟨e | made, left⟩ <;>
          simp [← hr, hp, Table.get?_put_self]

end Session
end RowPipeline
