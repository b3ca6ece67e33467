import RowPipeline.Proofs.Host.Session.Contexts
import RowPipeline.Proofs.Host.Session.Registering

namespace RowPipeline

namespace Context

variable {context : Context} {live : Option Scope} {serial : Nat} {defaults : Instance Defaults}

theorem settle_of_fixed (h : context.defaults = some defaults) : (context.settle live serial).1 = .ok defaults := by
  obtain ⟨route, attached, fixed⟩ := context
  obtain rfl : fixed = some defaults := h
  rfl

theorem settle_of_open (h : context.defaults = none) : (context.settle live serial).1 =
    match live with
    | none => .ok ⟨serial, Defaults.standard⟩
    | some scope =>
      match scope.defaults with
      | some defaults => .ok defaults
      | none => .error (.missingRegistration .settings) := by
  obtain ⟨route, attached, fixed⟩ := context
  obtain rfl : fixed = none := h
  cases live with
  | none => rfl
  | some scope => cases hd : scope.defaults <;> simp [settle, hd]

end Context

namespace Session

variable {s : Session} {steps before rest : List Step} {n : Nat} {seat : Seat} {x : Step} {defaults : Instance Defaults}

-- What there is to find for a context whose settings are not fixed.
def offered (steps : List Step) (n : Nat) : Except Error (Instance Defaults) :=
  match attached steps n with
  | none => .ok ⟨(reached steps).serial, Defaults.standard⟩
  | some k =>
    match Slot.settings.registered steps k with
    | some defaults => .ok defaults
    | none => .error (.missingRegistration .settings)

-- What the steps that look at the settings of a context answer when this is what they find. Settings that
-- are shown are not told to be others than those shown before.
structure Answers (s : Session) (n : Nat) (result : Except Error (Instance Defaults)) : Prop where
  shows  : ∀ id, s.contexts.get? id = some n → ∃ same, same ≠ some false ∧
    (s.step (.defaultSettings id)).1 = (result.map fun defaults => .settled defaults.value same).mapError .error
  checks : ∀ id option clause, s.options.get? id = some (n, option) → option.parse.1 = .ok clause →
    (s.step (.validate id)).1 = ((result.bind fun defaults =>
      (clause.validate defaults.value).mapError .validation).map fun () => .flag true).mapError .error

theorem settings?_eq (hs : s.seat? n = some seat) :
    s.settings? n = some (seat.context.settle (s.scopeOf seat.context) s.serial).1 := by
  simp [settings?, context?, hs]

theorem settings?_of_open (hs : (reached steps).seat? n = some seat) (hd : seat.context.defaults = none) :
    (reached steps).settings? n = some (offered steps n) := by
  rw [settings?_eq hs, Context.settle_of_open hd, scopeOf_eq hs, offered]
  rcases ha : attached steps n with _ | k
  case none => rfl
  case some =>
    have ⟨scope, hl⟩ := live?_of_attached ha
    have hr := Slot.held_eq_registered Slot.lawful_settings hl
    simp only [Option.bind_some, hl, ← hr]
    rfl

theorem settings?_of_found (h : found n s x = some defaults) : s.settings? n = some (.ok defaults) := by
  obtain ⟨-, h⟩ := Option.ite_none_right_eq_some.mp h
  obtain ⟨result, hr, hd⟩ := Option.bind_eq_some_iff.mp h
  cases result with
  | error e => contradiction
  | ok found => rw [hr, Option.some.inj hd]

theorem settings?_of_earliest (h : earliest (found n) steps = some defaults) :
    (reached steps).settings? n = some (.ok defaults) := by
  rw [← defaults_eq_earliest] at h
  obtain ⟨seat, hs, hd⟩ := Option.bind_eq_some_iff.mp h
  rw [settings?_eq hs, Context.settle_of_fixed hd]

-- The first find is one of all looks from then on.
theorem earliest_of_found (h : found n (reached before) x = some defaults) :
    earliest (found n) (before ++ x :: rest) = some defaults := by
  rw [List.append_cons]
  refine earliest_append ?_
  rw [earliest_concat, h]
  cases he : earliest (found n) before with
  | none => rfl
  | some fixed =>
    have hf := (settings?_of_earliest he).symm.trans (settings?_of_found h)
    rw [Except.ok.inj (Option.some.inj hf), Option.some_or]

theorem found_of_showing {k : Nat} (h : showing n s x = some k) :
    ∃ defaults, found n s x = some defaults ∧ defaults.serial = k := by
  cases x with
  | defaultSettings id => exact Option.map_eq_some_iff.mp h
  | _ => contradiction

-- What a context has shown is what it will show.
theorem serial_of_shown {k : Nat} (hs : (reached steps).seat? n = some seat) (hk : seat.shown = some k) :
    ∃ defaults, (reached steps).settings? n = some (.ok defaults) ∧ defaults.serial = k := by
  have hl : latest (showing n) steps = some k := by rw [← shown_eq_latest, hs]; exact hk
  obtain ⟨before, x, rest, rfl, hx⟩ := mem_events.mp (List.mem_of_getLast? hl)
  obtain ⟨defaults, hf, hd⟩ := found_of_showing hx
  exact ⟨defaults, settings?_of_earliest (earliest_of_found hf), hd⟩

theorem answers_settings {result : Except Error (Instance Defaults)} (h : (reached steps).settings? n = some result) :
    (reached steps).Answers n result := by
  obtain ⟨context, hc, rfl⟩ := Option.map_eq_some_iff.mp h
  obtain ⟨seat, hs, rfl⟩ := Option.map_eq_some_iff.mp hc
  constructor
  case shows =>
    intro id hn
    refine ⟨seat.shown.map fun _ => true, by cases seat.shown <;> simp, ?_⟩
    rw [step_defaultSettings hn hs]
    rcases hr : seat.context.settle ((reached steps).scopeOf seat.context) (reached steps).serial with
      ⟨e | defaults, context⟩
    case error => rfl
    case ok =>
      have hm : (seat.shown.map fun serial => serial == defaults.serial) = seat.shown.map fun _ => true := by
        cases hk : seat.shown with
        | none => rfl
        | some k =>
          obtain ⟨found, hf, rfl⟩ := serial_of_shown hs hk
          rw [h, hr] at hf
          obtain rfl : defaults = found := Except.ok.inj (Option.some.inj hf)
          simp
      simp only [hm]
      rfl
  case checks =>
    intro id option clause ho hp
    rw [step_validate ho hs]
    simp only [QueryOption.validate_fst, hp]
    rfl

theorem settings_fixed_by_first_find (hn : n < (reached steps).seats.length) :
    ∃ result, (reached steps).settings? n = some result ∧ (reached steps).Answers n result ∧
      ((∀ before x rest, steps = before ++ x :: rest → found n (reached before) x = none) →
        result = offered steps n) ∧
      ∀ before x rest defaults, steps = before ++ x :: rest → found n (reached before) x = some defaults →
        result = .ok defaults := by
  obtain ⟨seat, hs⟩ := WellFormed.exists_seat hn
  have hr := settings?_eq hs
  refine ⟨_, hr, answers_settings hr, ?_, ?_⟩
  case refine_1 =>
    intro hx
    have he : earliest (found n) steps = none := by
      rw [earliest, List.head?_eq_none_iff, List.eq_nil_iff_forall_not_mem]
      intro defaults hm
      obtain ⟨before, x, rest, rfl, hf⟩ := mem_events.mp hm
      exact Option.some_ne_none _ (hf.symm.trans (hx _ _ _ rfl))
    rw [← defaults_eq_earliest, hs] at he
    exact Option.some.inj (hr.symm.trans (settings?_of_open hs he))
  case refine_2 =>
    rintro before x rest defaults rfl hf
    exact Option.some.inj (hr.symm.trans (settings?_of_earliest (earliest_of_found hf)))

-- A look before there are settings fixes nothing, and one after that is not undone with the scope.
theorem settings_fixed_by_first_find_dropped :
    let early : List Step := [.scope "s", .context "c" none, .attach "c" "s", .defaultSettings "c"]
    let late : List Step := [.register "s" (.shared ⟨7, { Defaults.standard with maxTop := some 1 }⟩)]
    let steps := early ++ late ++ [.defaultSettings "c", .dropScope "s"]
    0 < (reached steps).seats.length ∧
      (reached early).settings? 0 = some (.error (.missingRegistration .settings)) ∧
      (reached steps).settings? 0 = some (.ok ⟨7, { Defaults.standard with maxTop := some 1 }⟩) := by
  intro early late steps
  have hn : 0 < (reached steps).seats.length := by decide
  refine ⟨hn, ?_, ?_⟩
  case refine_1 => rfl
  case refine_2 =>
    obtain ⟨result, hr, -, -, hf⟩ := settings_fixed_by_first_find hn
    rw [hr, hf (early ++ late) (.defaultSettings "c") [.dropScope "s"] _ rfl rfl]

end Session
end RowPipeline
