import RowPipeline.Proofs.Host.Session.History

namespace RowPipeline

namespace Context

-- Settings that are found are fixed, and a failure changes nothing.
theorem settle_eq (context : Context) (live : Option Scope) (serial : Nat) :
    (∃ defaults, context.settle live serial =
      (.ok defaults, { context with defaults := context.defaults.or (some defaults) })) ∨
    ∃ e, context.settle live serial = (.error e, context) := by
  obtain ⟨route, attached, fixed⟩ := context
  cases fixed with
  | some defaults => exact .inl ⟨defaults, rfl⟩
  | none =>
    cases live with
    | none => exact .inl ⟨_, rfl⟩
    | some scope => cases hd : scope.defaults <;> simp [settle, hd]

end Context

namespace Session

open RowPipeline.Action

variable {s : Session} {n : Nat} {seat : Seat} {x : Step}

-- The scope that a step attaches a context to.
def attachment (n : Nat) (s : Session) : Step → Option Nat
  | .attach id name => if s.contexts.get? id = some n then s.number? name else none
  | _ => none

-- What a look at the settings of a context finds.
def settings? (s : Session) (n : Nat) : Option (Except Error (Instance Defaults)) :=
  (s.context? n).map fun context => (context.settle (s.scopeOf context) s.serial).1

-- The context whose settings a step looks at: to show them, or to check a clause that has been parsed.
def lookedAt (s : Session) : Step → Option Nat
  | .defaultSettings id => s.contexts.get? id
  | .validate id => ((s.options.get? id).filter fun (_, option) => option.parse.1.isOk).map (·.1)
  | _ => none

-- The settings that a step finds for a context.
def found (n : Nat) (s : Session) (x : Step) : Option (Instance Defaults) :=
  if s.lookedAt x = some n then (s.settings? n).bind Except.toOption else none

-- The settings that a step shows for a context.
def showing (n : Nat) (s : Session) : Step → Option Nat
  | .defaultSettings id => (found n s (.defaultSettings id)).map (·.serial)
  | _ => none

theorem seat?_putSeat_self {old : Seat} (h : s.seat? n = some old) (seat : Seat) :
    (s.putSeat n seat).seat? n = some seat := by
  obtain ⟨hn, -⟩ := List.getElem?_eq_some_iff.mp h
  exact List.getElem?_set_self hn

theorem seat?_putSeat_of_ne {m : Nat} (h : m ≠ n) (seat : Seat) : (s.putSeat m seat).seat? n = s.seat? n :=
  List.getElem?_set_ne h

-- What a step makes of a seat.
def seatAfter (s : Session) (n : Nat) (x : Step) (seat : Seat) : Seat where
  context := { seat.context with
    scope    := (attachment n s x).or seat.context.scope
    defaults := seat.context.defaults.or (found n s x) }
  shown   := (showing n s x).or seat.shown

-- A seat that the step has nothing to do with.
theorem seatAfter_of_other (ha : attachment n s x = none) (hl : s.lookedAt x ≠ some n) :
    s.seatAfter n x seat = seat := by
  have hf : found n s x = none := if_neg hl
  have hs : showing n s x = none := by cases x <;> simp_all [showing]
  simp [seatAfter, ha, hf, hs]

theorem seat?_attach (w : s.WellFormed) (hs : s.seat? n = some seat) (id name : String) :
    (s.step (.attach id name)).2.seat? n = some (s.seatAfter n (.attach id name) seat) := by
  cases hn : s.contexts.get? id with
  | none => rw [step_attach_of_none (.inl hn), seatAfter_of_other (by simp [attachment, hn]) (by simp [lookedAt]), hs]
  | some m =>
    cases hk : s.scopes.get? name with
    | none =>
      rw [step_attach_of_none (.inr hk),
        seatAfter_of_other (by simp [attachment, number?, hk]) (by simp [lookedAt]), hs]
    | some held =>
      obtain ⟨old, ho⟩ := WellFormed.exists_seat (w.contexts hn)
      rw [step_attach hn hk ho]
      by_cases hm : m = n
      case neg =>
        rw [seat?_putSeat_of_ne hm, seatAfter_of_other (by simp [attachment, hn, hm]) (by simp [lookedAt]), hs]
      case pos =>
        subst hm
        obtain rfl := Option.some.inj (ho.symm.trans hs)
        rw [seat?_putSeat_self ho]
        simp [seatAfter, attachment, number?, found, lookedAt, showing, hn, hk, Context.attach]

theorem seat?_defaultSettings (w : s.WellFormed) (hs : s.seat? n = some seat) (id : String) :
    (s.step (.defaultSettings id)).2.seat? n = some (s.seatAfter n (.defaultSettings id) seat) := by
  cases hn : s.contexts.get? id with
  | none =>
    have h : (s.step (.defaultSettings id)).2 = s := by
      show ((defaultSettings id).on s).2 = s
      simp [defaultSettings, hn]
    rw [h, seatAfter_of_other rfl (by simp [lookedAt, hn]), hs]
  | some m =>
    obtain ⟨old, ho⟩ := WellFormed.exists_seat (w.contexts hn)
    rw [step_defaultSettings hn ho]
    by_cases hm : m = n
    case neg =>
      rw [seatAfter_of_other rfl (by simp [lookedAt, hn, hm])]
      rcases old.context.settle (s.scopeOf old.context) s.serial with ⟨e | defaults, context⟩
      case error => exact hs
      case ok => exact (seat?_putSeat_of_ne hm _).trans hs
    case pos =>
      subst hm
      obtain rfl := Option.some.inj (ho.symm.trans hs)
      rcases Context.settle_eq old.context (s.scopeOf old.context) s.serial with ⟨defaults, hr⟩ | ⟨e, hr⟩ <;> rw [hr]
      case inl =>
        refine (seat?_putSeat_self ho _).trans ?_
        simp [seatAfter, attachment, showing, found, lookedAt, settings?, context?, hn, ho, hr, Except.toOption]
      case inr =>
        refine hs.trans ?_
        simp [seatAfter, attachment, showing, found, lookedAt, settings?, context?, hn, ho, hr, Except.toOption]

theorem seat?_validate (w : s.WellFormed) (hs : s.seat? n = some seat) (id : String) :
    (s.step (.validate id)).2.seat? n = some (s.seatAfter n (.validate id) seat) := by
  rcases ho : s.options.get? id with _ | ⟨m, option⟩
  case none =>
    have h : (s.step (.validate id)).2 = s := by
      show ((Action.validate id).on s).2 = s
      simp [validate, ho]
    rw [h, seatAfter_of_other rfl (by simp [lookedAt, ho]), hs]
  case some =>
    obtain ⟨old, hm⟩ := WellFormed.exists_seat (w.options ho)
    rw [step_validate ho hm]
    by_cases hn : m = n
    case neg =>
      rw [seatAfter_of_other rfl (by simp [lookedAt, ho, Option.filter, hn])]
      exact (seat?_putSeat_of_ne hn _).trans hs
    case pos =>
      subst hn
      obtain rfl := Option.some.inj (hm.symm.trans hs)
      refine (seat?_putSeat_self hm _).trans ?_
      rw [QueryOption.validate_snd_snd]
      rcases hp : option.parse.1 with e | clause
      case error =>
        simp [seatAfter, attachment, showing, found, lookedAt, ho, hp, Option.filter, Except.isOk, Except.toBool]
      case ok =>
        rcases Context.settle_eq old.context (s.scopeOf old.context) s.serial with ⟨defaults, hr⟩ | ⟨e, hr⟩ <;>
          simp [seatAfter, attachment, showing, found, lookedAt, settings?, context?, ho, hm, hp, hr, Option.filter,
            Except.isOk, Except.toBool, Except.toOption]

theorem seat?_step (w : s.WellFormed) (hs : s.seat? n = some seat) (x : Step) :
    (s.step x).2.seat? n = some (s.seatAfter n x seat) := by
  cases x with
  | context id route =>
    rw [seatAfter_of_other rfl (by simp [lookedAt])]
    rcases step_context (s := s) id route with h | ⟨route', h⟩ <;> rw [h]
    case inl => exact hs
    case inr => exact (List.getElem?_append_left (List.getElem?_eq_some_iff.mp hs).1).trans hs
  | attach id name => exact seat?_attach w hs id name
  | defaultSettings id => exact seat?_defaultSettings w hs id
  | validate id => exact seat?_validate w hs id
  | _ =>
    rw [seatAfter_of_other rfl (by simp [lookedAt])]
    exact (congrArg (·[n]?) ((sameBut_step s _).seats (by simp [Step.parts]))).trans hs

-- A seat that a step brings is one of a new context.
theorem seat?_step_of_none (h : s.seat? n = none) (x : Step) :
    (s.step x).2.seat? n = none ∨ ∃ route, (s.step x).2.seat? n = some ⟨Context.ofRoute route, none⟩ := by
  have hn : s.seats.length ≤ n := List.getElem?_eq_none_iff.mp h
  by_cases hx : .contexts ∈ x.parts
  case neg => exact .inl (List.getElem?_eq_none_iff.mpr ((sameBut_step s x).length hx ▸ hn))
  case pos =>
    obtain ⟨id, route, rfl⟩ : ∃ id route, x = .context id route := by
      cases x <;> simp [Step.parts] at hx ⊢
    rcases step_context (s := s) id route with hs | ⟨route', hs⟩ <;> rw [hs]
    case inl => exact .inl h
    case inr =>
      by_cases he : n = s.seats.length
      case pos => exact .inr ⟨route', by simp [seat?, he]⟩
      case neg => exact .inl (List.getElem?_eq_none_iff.mpr (by simp; omega))

theorem attachment_of_none (w : s.WellFormed) (h : s.seat? n = none) (x : Step) : attachment n s x = none := by
  cases x with
  | attach id name =>
    rw [attachment, if_neg]
    intro hc
    exact Nat.not_lt.mpr (List.getElem?_eq_none_iff.mp h) (w.contexts hc)
  | _ => rfl

theorem found_of_none (h : s.seat? n = none) (x : Step) : found n s x = none := by
  simp [found, settings?, context?, h]

theorem showing_of_none (h : s.seat? n = none) (x : Step) : showing n s x = none := by
  cases x <;> simp [showing, found_of_none h]

variable {steps : List Step}

-- What is kept of a context is what its last attachment, its first find and its last show have left.
theorem scope_eq_latest (steps : List Step) :
    ((reached steps).seat? n).bind (·.context.scope) = latest (attachment n) steps := by
  refine eq_latest (fun s => (s.seat? n).bind (·.context.scope)) rfl (fun steps x => ?_) steps
  have w := wellFormed_reached steps
  cases hs : (reached steps).seat? n with
  | some seat => rw [seat?_step w hs]; rfl
  | none =>
    rw [attachment_of_none w hs]
    rcases seat?_step_of_none hs x with h | ⟨route, h⟩ <;> rw [h] <;> rfl

theorem defaults_eq_earliest (steps : List Step) :
    ((reached steps).seat? n).bind (·.context.defaults) = earliest (found n) steps := by
  refine eq_earliest (fun s => (s.seat? n).bind (·.context.defaults)) rfl (fun steps x => ?_) steps
  have w := wellFormed_reached steps
  cases hs : (reached steps).seat? n with
  | some seat => rw [seat?_step w hs]; rfl
  | none =>
    rw [found_of_none hs]
    rcases seat?_step_of_none hs x with h | ⟨route, h⟩ <;> rw [h] <;> rfl

theorem shown_eq_latest (steps : List Step) :
    ((reached steps).seat? n).bind (·.shown) = latest (showing n) steps := by
  refine eq_latest (fun s => (s.seat? n).bind (·.shown)) rfl (fun steps x => ?_) steps
  have w := wellFormed_reached steps
  cases hs : (reached steps).seat? n with
  | some seat => rw [seat?_step w hs]; rfl
  | none =>
    rw [showing_of_none hs]
    rcases seat?_step_of_none hs x with h | ⟨route, h⟩ <;> rw [h] <;> rfl

def holds (s : Session) (k : Nat) : Bool :=
  s.scopes.any fun m => m.2.serial = k

-- The scope that a context was attached to last, as long as the session holds it.
def attached (steps : List Step) (n : Nat) : Option Nat :=
  (latest (attachment n) steps).filter (reached steps).holds

theorem holds_eq (s : Session) (k : Nat) : s.holds k = (s.live? k).isSome := by
  rw [Bool.eq_iff_iff]
  simp [holds, live?]

theorem live?_of_attached {k : Nat} (h : attached steps n = some k) :
    ∃ scope, (reached steps).live? k = some scope := by
  have hk : (reached steps).holds k = true := (Option.filter_eq_some_iff.mp h).2
  rw [holds_eq] at hk
  exact Option.isSome_iff_exists.mp hk

theorem scopeOf_eq {seat : Seat} (hs : (reached steps).seat? n = some seat) :
    (reached steps).scopeOf seat.context = (attached steps n).bind (reached steps).live? := by
  have h : seat.context.scope = latest (attachment n) steps := by simpa [hs] using scope_eq_latest (n := n) steps
  rw [scopeOf, attached, h]
  rcases latest (attachment n) steps with _ | k
  case none => rfl
  case some =>
    cases hl : (reached steps).live? k <;> simp [Option.filter, holds_eq, hl]

end Session
end RowPipeline
