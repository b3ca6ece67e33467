import RowPipeline.Host.QueryOption

namespace RowPipeline.QueryOption

section Uses

variable {option : QueryOption} {context : Context} {live : Option Scope} {serial : Nat} {source query : Query}
  {settings : Settings}

theorem registry_parse (option : QueryOption) : option.parse.2.registry = option.registry := by
  unfold parse
  cases option.clause with
  | some clause => rfl
  | none => cases option.parser.parse option.text <;> rfl

theorem validate_fst (option : QueryOption) (context : Context) (live : Option Scope) (serial : Nat) :
    (option.validate context live serial).1 = option.parse.1.bind fun clause =>
      (context.settle live serial).1.bind fun defaults => (clause.validate defaults.value).mapError .validation := by
  unfold validate
  rcases option.parse with ⟨e | clause, option⟩
  case error => rfl
  case ok => rcases context.settle live serial with ⟨e | defaults, context⟩ <;> rfl

-- Whatever comes of a use of an option, the option is as its parsing leaves it.
theorem validate_snd_fst (option : QueryOption) (context : Context) (live : Option Scope) (serial : Nat) :
    (option.validate context live serial).2.1 = option.parse.2 := by
  unfold validate
  rcases option.parse with ⟨e | clause, option⟩
  case error => rfl
  case ok => rcases context.settle live serial with ⟨e | defaults, context⟩ <;> rfl

-- A check looks at the settings as soon as the clause has been parsed.
theorem validate_snd_snd : (option.validate context live serial).2.2 =
    if option.parse.1.isOk then (context.settle live serial).2 else context := by
  unfold validate
  rcases option.parse with ⟨e | clause, option⟩
  case error => rfl
  case ok => rcases context.settle live serial with ⟨e | defaults, context⟩ <;> rfl

theorem applyTo_fst (option : QueryOption) (live : Option Scope) (query : Query) (settings : Settings) :
    (option.applyTo live query settings).1 = option.parse.1.bind fun clause =>
      (Stage.ofClause clause (Resolver.active live) settings option.registry).map query.compose := by
  rw [← registry_parse option]
  unfold applyTo
  rcases option.parse with ⟨e | clause, option⟩ <;> rfl

theorem applyTo_snd (option : QueryOption) (live : Option Scope) (query : Query) (settings : Settings) :
    (option.applyTo live query settings).2 = option.parse.2 := by
  unfold applyTo
  rcases option.parse with ⟨e | clause, option⟩ <;> rfl

theorem applyTo_fst_eq_ok : (option.applyTo live source settings).1 = .ok query ↔
    ∃ clause, option.parse.1 = .ok clause ∧
      ∃ stages, Stage.ofClause clause (Resolver.active live) settings option.registry = .ok stages ∧
        source.compose stages = query := by
  rw [applyTo_fst]
  cases option.parse.1 with
  | error e => simp [Except.bind]
  | ok clause =>
    cases hs : Stage.ofClause clause (Resolver.active live) settings option.registry <;>
      simp [Except.bind, Except.map, hs]

end Uses

variable {text : String} {parser : ClauseParser} {registry : Registry}

-- An option whose clause has been looked for a number of times.
def remembered (text : String) (parser : ClauseParser) (registry : Registry) (looks : Nat) : QueryOption where
  text     := text
  parser   := parser
  registry := registry
  clause   := if looks = 0 then none else (parser.parse text).toOption
  parses   := match parser.parse text with
    | .ok _ => min looks 1
    | .error _ => looks

theorem remembered_zero : remembered text parser registry 0 = ⟨text, parser, registry, none, 0⟩ := by
  cases hp : parser.parse text <;> simp [remembered, hp]

theorem parse_remembered (looks : Nat) : (remembered text parser registry looks).parse =
    (parser.parse text, remembered text parser registry (looks + 1)) := by
  cases hp : parser.parse text with
  | error e => simp [parse, remembered, hp, Except.toOption]
  | ok clause => cases looks <;> simp [parse, remembered, hp, Except.toOption]

end RowPipeline.QueryOption
