import RowPipeline.CommandLine.Run
import RowPipeline.Proofs.Clause.Binding
import RowPipeline.Proofs.Host.Applying
import RowPipeline.Proofs.Stage.NullHandling

namespace RowPipeline

namespace Request

variable {request : Request} {option : QueryOption} {rows out : List Value}

-- A check that succeeds leaves the option with its clause.
theorem remembered_of_checked (h : request.checked = .ok option) :
    ∃ looks, option = .remembered request.text request.parser request.registry looks := by
  obtain ⟨made, hm, h⟩ := bind_eq_ok.mp h
  obtain ⟨_, rfl⟩ := QueryOption.make_eq_ok.mp hm
  rw [← QueryOption.remembered_zero] at h
  cases hv : request.validate with
  | false =>
    rw [hv] at h
    exact ⟨0, (pure_eq_ok.mp h).symm⟩
  | true =>
    have hs := QueryOption.validate_snd_fst (.remembered request.text request.parser request.registry 0)
      request.context request.scope 0
    rw [QueryOption.parse_remembered] at hs
    rw [hv] at h
    rcases hr : (QueryOption.remembered request.text request.parser request.registry 0).validate request.context
      request.scope 0 with ⟨e | _, left⟩
    case error => simp [hr, Except.map] at h
    case ok =>
      rw [hr] at hs
      refine ⟨1, Eq.trans ?_ hs⟩
      simpa [hr, Except.map, eq_comm] using h

-- A request that succeeds has parsed and compiled its clause and run it.
theorem makes_of_run (h : request.run rows = .ok out) : ∃ clause, request.parser.parse request.text = .ok clause ∧
    clause.Makes ⟨Resolver.active request.scope, request.settings.propagatesNulls⟩ request.registry rows out := by
  obtain ⟨query, hq, hr⟩ := bind_eq_ok.mp h
  obtain ⟨option, ho, hq⟩ := bind_eq_ok.mp hq
  obtain ⟨looks, rfl⟩ := remembered_of_checked ho
  obtain ⟨clause, hp, stages, hs, rfl⟩ := QueryOption.applyTo_fst_eq_ok.mp hq
  rw [QueryOption.parse_remembered] at hp
  exact ⟨clause, hp, stages, hs, mapError_eq_ok.mp hr⟩

-- Without a check, the scope counts for its resolver only and the settings for what they do with nulls.
theorem run_congr {request' : Request} (ht : request.text = request'.text) (hp : request.parser = request'.parser)
    (hr : request.registry = request'.registry) (hs : Resolver.active request.scope = Resolver.active request'.scope)
    (hn : request.settings.propagatesNulls = request'.settings.propagatesNulls)
    (hv : request.validate = false) (hv' : request'.validate = false) : request.run rows = request'.run rows := by
  have ha : ∀ option query, (QueryOption.applyTo option request.scope query request.settings).1 =
      (option.applyTo request'.scope query request'.settings).1 := by
    intro option query
    simp only [QueryOption.applyTo_fst, Stage.ofClause, hs, hn]
  simp only [run, Request.query, checked, ht, hp, hr, hv, hv', ha, Bool.false_eq_true, ↓reduceIte]

end Request

namespace CommandLine

variable {arguments : Arguments} {files : Files} {rows out : List Value}

-- The clause of the arguments.
def clauseText (arguments : Arguments) : String :=
  (arguments.value? .apply).getD ""

-- Nothing is asked for that makes more fail than the clause alone, and the files for the rest can be read.
structure IsPlain (arguments : Arguments) (files : Files) : Prop where
  model       : arguments.value? .model = none
  validate    : arguments.has .validate = false
  strictNulls : arguments.has .strictNulls = false
  defaults    : ∃ defaults, decodeOption arguments files .defaults Defaults.ofDocument? .standard = .ok defaults
  settings    : ∃ settings, decodeOption arguments files .settings Settings.ofDocument? .standard = .ok settings ∧
    settings.propagatesNulls = true

theorem apply_of_runArguments (hd : decodeFile files rows? ((arguments.value? .data).getD "") = .ok rows)
    (hc : arguments.has .caseInsensitive = false) (h : runArguments arguments files = .ok out) :
    apply (clauseText arguments) rows = .ok out := by
  obtain ⟨_, hr, h⟩ := bind_eq_ok.mp h
  obtain rfl := Except.ok.inj (hd.symm.trans hr)
  obtain ⟨route, -, h⟩ := bind_eq_ok.mp h
  obtain ⟨defaults, -, h⟩ := bind_eq_ok.mp h
  obtain ⟨settings, -, h⟩ := bind_eq_ok.mp h
  obtain ⟨clause, hp, hm⟩ := Request.makes_of_run (mapError_eq_ok.mp h)
  have ⟨hp, _⟩ := Clause.parse_iff_parse_and_accepts.mp (ClauseParser.parse_standard.mp hp)
  refine apply_eq_ok.mpr ⟨clause, hp, ?_⟩
  simp only [hc] at hm
  exact Clause.makes_propagating_of_makes hm

theorem runArguments_eq_apply (hd : decodeFile files rows? ((arguments.value? .data).getD "") = .ok rows)
    (hc : arguments.has .caseInsensitive = false) (h : IsPlain arguments files) :
    runArguments arguments files = (apply (clauseText arguments) rows).mapError .failed := by
  have ⟨defaults, hf⟩ := h.defaults
  have ⟨settings, hs, hn⟩ := h.settings
  have hr : route arguments files = .ok none := by simp [route, h.model]
  simp only [runArguments, hd, hr, hf, hs, bind, Except.bind]
  congr 1
  refine Request.run_congr rfl rfl rfl ?_ ?_ h.validate rfl
  case refine_1 =>
    rw [hc]
    rfl
  case refine_2 =>
    rw [h.strictNulls]
    exact hn

theorem runArguments_agrees (hd : decodeFile files rows? ((arguments.value? .data).getD "") = .ok rows)
    (hc : arguments.has .caseInsensitive = false) :
    (∀ out, runArguments arguments files = .ok out → apply (clauseText arguments) rows = .ok out) ∧
    (IsPlain arguments files →
      runArguments arguments files = (apply (clauseText arguments) rows).mapError .failed) :=
  ⟨fun _ => apply_of_runArguments hd hc, runArguments_eq_apply hd hc⟩

theorem runArguments_agrees_skip :
    let arguments : Arguments := ⟨[(.apply, "skip(1)"), (.data, "rows")], []⟩
    let files : Files := fun name => if name = "rows" then some "[1,2]" else none
    decodeFile files rows? ((arguments.value? .data).getD "") = .ok [.int 1, .int 2] ∧
      arguments.has .caseInsensitive = false ∧ IsPlain arguments files ∧
      runArguments arguments files = .ok [.int 2] := by
  intro arguments files
  have hd : decodeFile files rows? ((arguments.value? .data).getD "") = .ok [.int 1, .int 2] := rfl
  have hc : arguments.has .caseInsensitive = false := rfl
  have hp : IsPlain arguments files := ⟨rfl, rfl, rfl, ⟨_, rfl⟩, _, rfl, rfl⟩
  have ⟨_, h⟩ := runArguments_agrees hd hc
  have ha : apply "skip(1)" [.int 1, .int 2] = .ok [.int 2] := rfl
  exact ⟨hd, hc, hp, (h hp).trans (congrArg (Except.mapError Failure.failed) ha)⟩

end CommandLine
end RowPipeline
