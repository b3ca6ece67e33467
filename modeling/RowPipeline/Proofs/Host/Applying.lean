import RowPipeline.Host.Request
import RowPipeline.Proofs.Clause.Composition
import RowPipeline.Proofs.Host.QueryOption
import RowPipeline.Proofs.Stage.Making

namespace RowPipeline

variable {text text₁ text₂ : String} {clause clause₁ clause₂ : Clause} {rows out : List Value}

theorem Clause.ne_empty_of_parse (h : Clause.parse none text = .ok clause) : text.isEmpty = false := by
  have ⟨t, rest, _, _, ht, _⟩ := Clause.parse_iff_spelt.mp h
  exact Bool.eq_false_iff.mpr fun he => ht.ne_nil (String.toList_eq_nil_iff.mpr (String.isEmpty_iff.mp he))

theorem ClauseParser.parse_standard {binding : Option Binding} :
    (ClauseParser.standard binding).parse text = .ok clause ↔ Clause.parse binding text = .ok clause := by
  exact mapError_eq_ok

theorem QueryOption.make_eq_ok {parser : ClauseParser} {registry : Registry} {option : QueryOption} :
    QueryOption.make text parser registry = .ok option ↔
      text.isEmpty = false ∧ ⟨text, parser, registry, none, 0⟩ = option := by
  rw [QueryOption.make]
  cases text.isEmpty <;> simp

-- An option whose text has not been parsed yet parses it and compiles the clause.
theorem QueryOption.applyTo_eq_ok {parser : ClauseParser} {registry : Registry} {scope : Option Scope}
    {settings : Settings} {query query' : Query} :
    (QueryOption.applyTo ⟨text, parser, registry, none, 0⟩ scope query settings).1 = .ok query' ↔
      ∃ clause, parser.parse text = .ok clause ∧
        ∃ stages, Stage.ofClause clause (Resolver.active scope) settings registry = .ok stages ∧
          query.compose stages = query' := by
  rw [← remembered_zero, applyTo_fst_eq_ok, parse_remembered]
  rfl

theorem Request.query_eq_ok {query : Query} : (Request.ofText text).query rows = .ok query ↔
    ∃ clause, Clause.parse none text = .ok clause ∧
      ∃ stages, Stage.ofClause clause (Resolver.active none) Settings.standard Registry.builtins = .ok stages ∧
        (Query.ofRows rows).compose stages = query := by
  have hc : ∀ option, (Request.ofText text).checked = .ok option ↔
      text.isEmpty = false ∧ ⟨text, .standard none, .builtins, none, 0⟩ = option := by
    intro option
    rw [← QueryOption.make_eq_ok]
    simp [Request.checked, Request.ofText]
  simp only [Request.query, bind_eq_ok, hc]
  constructor
  case mp =>
    rintro ⟨_, ⟨_, rfl⟩, h⟩
    have ⟨clause, hp, hs⟩ := QueryOption.applyTo_eq_ok.mp h
    exact ⟨clause, ClauseParser.parse_standard.mp hp, hs⟩
  case mpr =>
    intro ⟨clause, hp, hs⟩
    refine ⟨_, ⟨Clause.ne_empty_of_parse hp, rfl⟩, ?_⟩
    exact QueryOption.applyTo_eq_ok.mpr ⟨clause, ClauseParser.parse_standard.mpr hp, hs⟩

theorem apply_eq_ok : apply text rows = .ok out ↔
    ∃ clause, Clause.parse none text = .ok clause ∧
      clause.Makes ⟨Resolver.active none, Settings.standard.propagatesNulls⟩ Registry.builtins rows out := by
  simp only [apply, Request.run, bind_eq_ok, Request.query_eq_ok, mapError_eq_ok, Clause.Makes]
  constructor
  case mp =>
    rintro ⟨_, ⟨clause, hc, stages, hs, rfl⟩, hr⟩
    exact ⟨clause, hc, stages, hs, hr⟩
  case mpr =>
    rintro ⟨clause, hc, stages, hs, hr⟩
    exact ⟨_, ⟨clause, hc, stages, hs, rfl⟩, hr⟩

theorem apply_slash (h₁ : (ClauseParser.standard none).parse text₁ = .ok clause₁)
    (h₂ : (ClauseParser.standard none).parse text₂ = .ok clause₂) :
    (ClauseParser.standard none).parse (text₁ ++ "/" ++ text₂) = .ok (clause₁ ++ clause₂) ∧
    ∀ rows out, apply (text₁ ++ "/" ++ text₂) rows = .ok out ↔
      ∃ mid, apply text₁ rows = .ok mid ∧ apply text₂ mid = .ok out := by
  have h₁ := ClauseParser.parse_standard.mp h₁
  have h₂ := ClauseParser.parse_standard.mp h₂
  have h := Clause.parse_slash h₁ h₂
  refine ⟨ClauseParser.parse_standard.mpr h, fun rows out => ?_⟩
  simp [apply_eq_ok, h₁, h₂, h, Clause.makes_append]

theorem apply_slash_filter_top :
    (ClauseParser.standard none).parse "filter(A gt 1) " =
      .ok [.filter (.compare .gt (.path ["A"]) (.literal (.int 1)))] ∧
    (ClauseParser.standard none).parse " top(1)" = .ok [.top 1] ∧
    ∀ rows out, apply ("filter(A gt 1) " ++ "/" ++ " top(1)") rows = .ok out ↔
      ∃ mid, apply "filter(A gt 1) " rows = .ok mid ∧ apply " top(1)" mid = .ok out := by
  have h₁ : (ClauseParser.standard none).parse "filter(A gt 1) " =
      .ok [.filter (.compare .gt (.path ["A"]) (.literal (.int 1)))] := rfl
  have h₂ : (ClauseParser.standard none).parse " top(1)" = .ok [.top 1] := rfl
  exact ⟨h₁, h₂, (apply_slash h₁ h₂).right⟩

end RowPipeline
