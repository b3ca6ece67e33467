import RowPipeline.Proofs.Clause.StepReading

namespace RowPipeline

open Scan Token

namespace Token

variable {t u s mark : String} {ts : List String} {items : List (List String)} {gap : Nat → String}

theorem isToken_of_isIdentifier (h : IsIdentifier t) : IsToken t := by
  have hne : t.toList ≠ [] := by simpa using h.left
  exact ⟨_, List.head?_eq_some_head hne, not_isBlank_of_isIdentifierChar (h.right _ (List.head_mem hne))⟩

theorem isToken_mark (h : t ∈ ["(", ")", ",", "/"]) : IsToken t := by
  simp only [List.mem_cons, List.not_mem_nil, or_false] at h
  rcases h with rfl | rfl | rfl | rfl
  all_goals exact ⟨_, rfl, by decide⟩

theorem isToken_joined {c : Char} {names : List String} (hs : s.toList = [c]) (hne : names ≠ [])
    (hn : ∀ n ∈ names, IsIdentifier n) : IsToken (s.intercalate names) := by
  obtain ⟨name, names, rfl⟩ := List.exists_cons_of_ne_nil hne
  obtain ⟨d, hd, hb⟩ := isToken_of_isIdentifier (hn name List.mem_cons_self)
  refine ⟨d, ?_, hb⟩
  rw [Reads.toList_intercalate_cons hs, List.head?_append, Option.mem_def.mp hd]
  rfl

theorem isToken_number {k : Int} : IsToken (String.ofList (intChars k)) := by
  obtain ⟨c, hc, hd⟩ := Operand.head?_intChars k
  refine ⟨c, by simpa using hc, ?_⟩
  rcases Bool.or_eq_true_iff.mp hd with h | h
  case inl => rw [beq_iff_eq.mp h]; decide
  case inr => exact not_isBlank_of_isIdentifierChar (isIdentifierChar_of_isDigit h)

theorem forall_separated (hm : IsToken mark) (hi : ∀ item ∈ items, ∀ t ∈ item, IsToken t) :
    ∀ t ∈ separated mark items, IsToken t := by
  cases items with
  | nil => nofun
  | cons item items =>
    obtain ⟨hi, his⟩ := List.forall_mem_cons.mp hi
    refine List.forall_mem_append.mpr ⟨hi, List.forall_mem_flatMap.mpr fun item h => ?_⟩
    exact List.forall_mem_cons.mpr ⟨hm, his item h⟩

theorem forall_enclosed (h : ∀ t ∈ ts, IsToken t) : ∀ t ∈ enclosed ts, IsToken t := by
  refine List.forall_mem_cons.mpr ⟨isToken_mark (by decide), List.forall_mem_append.mpr ⟨h, ?_⟩⟩
  exact List.forall_mem_singleton.mpr (isToken_mark (by decide))

theorem forall_list (hi : ∀ item ∈ items, ∀ t ∈ item, IsToken t) :
    ∀ t ∈ enclosed (separated "," items), IsToken t :=
  forall_enclosed (forall_separated (isToken_mark (by decide)) hi)

theorem head?_blank_append {cs rest : List Char} (hb : IsBlank cs)
    (h : cs = [] → rest.head?.any isIdentifierChar = false) : (cs ++ rest).head?.any isIdentifierChar = false := by
  cases cs with
  | nil => exact h rfl
  | cons c cs =>
    have hc : ¬isIdentifierChar c := fun hi => not_isBlank_of_isIdentifierChar hi (hb c List.mem_cons_self)
    simpa using hc

theorem IsSpacing.apart_spell (ht : ∀ t ∈ ts, IsToken t) (hg : IsSpacing (t :: ts) gap) :
    Apart t (spell ts fun i => gap (i + 1)).toList := by
  intro hl
  cases ts with
  | nil =>
    have hn : ([] : List Char).head?.any isIdentifierChar = false := rfl
    simpa [spell] using head?_blank_append (hg.blank 1) fun _ => hn
  | cons u ts =>
    obtain ⟨⟨c, hc, _⟩, _⟩ := List.forall_mem_cons.mp ht
    rw [spell, String.toList_append, String.toList_append, List.append_assoc]
    refine head?_blank_append (hg.blank 1) fun he => ?_
    have hu : ¬u.toList.head?.any isIdentifierChar :=
      fun hu => hg.apart 0 t u rfl rfl hl hu (String.toList_eq_nil_iff.mp he)
    rw [List.head?_append, Option.mem_def.mp hc]
    simpa [Option.mem_def.mp hc] using hu

-- The text that is made of tokens with gaps consists of these tokens.
theorem spells_spell (ht : ∀ t ∈ ts, IsToken t) (hg : IsSpacing ts gap) : Spells ts (spell ts gap).toList := by
  induction ts generalizing gap with
  | nil => exact .nil (hg.blank 0)
  | cons t ts ih =>
    obtain ⟨ht, hts⟩ := List.forall_mem_cons.mp ht
    have hg' : IsSpacing ts fun i => gap (i + 1) :=
      ⟨fun i => hg.blank (i + 1), fun i t u h h' => hg.apart (i + 1) t u h h'⟩
    rw [spell, String.toList_append, String.toList_append, List.append_assoc]
    exact .cons (hg.blank 0) ht (hg.apart_spell hts) (ih hts hg')

end Token

theorem PropertyPath.isToken_text {path : PropertyPath} (h : path.WellFormed) : IsToken path.text :=
  isToken_joined rfl h.left h.right

namespace Operand

theorem isToken_literal {value : Value} (hv : IsLiteral value) (hx : ¬value.IsFloat) :
    IsToken (literalToken value) := by
  cases value with
  | null => exact isToken_of_isIdentifier (by decide : IsIdentifier "null")
  | bool b =>
    cases b with
    | false => exact isToken_of_isIdentifier (by decide : IsIdentifier "false")
    | true => exact isToken_of_isIdentifier (by decide : IsIdentifier "true")
  | int k => exact isToken_number
  | string s => exact ⟨'\x27', by simp [literalToken, quoted], by decide⟩
  | float x => exact absurd trivial hx
  | array items => exact hv.elim
  | object members => exact hv.elim

mutual
theorem isToken_tokens : (o : Operand) → o.WellFormed → (∀ v ∈ o.literals, ¬v.IsFloat) → ∀ t ∈ o.tokens, IsToken t
  | path _, ho, _ => List.forall_mem_singleton.mpr (PropertyPath.isToken_text ho.left)
  | literal value, ho, hx =>
    List.forall_mem_singleton.mpr (isToken_literal ho (hx value (List.mem_singleton_self _)))
  | call function args, ho, hx => by
    rw [tokens]
    refine List.forall_mem_cons.mpr ⟨isToken_of_isIdentifier (isIdentifier_name function), ?_⟩
    exact forall_list (isToken_argTokens args ho.right hx)

theorem isToken_argTokens : (os : List Operand) → AllWellFormed os → (∀ v ∈ allLiterals os, ¬v.IsFloat) →
    ∀ item ∈ argTokens os, ∀ t ∈ item, IsToken t
  | [], _, _ => nofun
  | o :: os, ho, hx => by
    obtain ⟨hxo, hxs⟩ := List.forall_mem_append.mp hx
    exact List.forall_mem_cons.mpr ⟨isToken_tokens o ho.left hxo, isToken_argTokens os ho.right hxs⟩
end

end Operand

namespace Filter

theorem isToken_enclosedBelow {level : Nat} {f : Filter} (h : ∀ t ∈ f.tokens, IsToken t) :
    ∀ t ∈ enclosedBelow level f f.tokens, IsToken t := by
  unfold enclosedBelow
  split
  case isTrue => exact forall_enclosed h
  case isFalse => exact h

theorem isToken_tokens {f : Filter} (hf : Written f) : ∀ t ∈ f.tokens, IsToken t := by
  induction f with
  | compare op left right =>
    obtain ⟨⟨hl, hr, -⟩, hx⟩ := hf
    obtain ⟨hxl, hxr⟩ := List.forall_mem_append.mp hx
    refine List.forall_mem_append.mpr ⟨left.isToken_tokens hl hxl, List.forall_mem_cons.mpr ⟨?_, ?_⟩⟩
    case refine_1 => exact isToken_of_isIdentifier (Comparison.isIdentifier_name op)
    case refine_2 => exact right.isToken_tokens hr hxr
  | and left right ihl ihr =>
    obtain ⟨hl, hr⟩ := hf.and
    refine List.forall_mem_append.mpr ⟨isToken_enclosedBelow (ihl hl), List.forall_mem_cons.mpr ⟨?_, ?_⟩⟩
    case refine_1 => exact isToken_of_isIdentifier (by decide)
    case refine_2 => exact isToken_enclosedBelow (ihr hr)
  | or left right ihl ihr =>
    obtain ⟨hl, hr⟩ := hf.or
    refine List.forall_mem_append.mpr ⟨ihl hl, List.forall_mem_cons.mpr ⟨?_, ?_⟩⟩
    case refine_1 => exact isToken_of_isIdentifier (by decide)
    case refine_2 => exact isToken_enclosedBelow (ihr hr)
  | not inner ih =>
    refine List.forall_mem_cons.mpr ⟨isToken_of_isIdentifier (by decide), ?_⟩
    exact isToken_enclosedBelow (ih ⟨hf.wellFormed, hf.exact⟩)
  | truthy o => exact o.isToken_tokens hf.wellFormed.left hf.exact

end Filter

namespace Aggregate

theorem isToken_tokens {a : Aggregate} (ha : a.WellFormed) : ∀ t ∈ a.tokens, IsToken t := by
  cases a with
  | property path method output =>
    obtain ⟨hp, -, ⟨names, hne, hn, rfl⟩, ho⟩ := ha
    simp only [tokens, List.forall_mem_cons]
    exact ⟨PropertyPath.isToken_text hp, isToken_of_isIdentifier (by decide), isToken_joined rfl hne hn,
      isToken_of_isIdentifier (by decide), isToken_of_isIdentifier ho, nofun⟩
  | count output =>
    simp only [tokens, List.forall_mem_cons]
    exact ⟨isToken_of_isIdentifier (by decide), isToken_of_isIdentifier (by decide),
      isToken_of_isIdentifier ha, nofun⟩

end Aggregate

namespace PropertyPath

theorem isToken_listTokens {paths : List PropertyPath} (h : ∀ p ∈ paths, p.WellFormed) :
    ∀ t ∈ listTokens paths, IsToken t := by
  refine forall_list fun item hi => ?_
  obtain ⟨p, hp, rfl⟩ := List.mem_map.mp hi
  exact List.forall_mem_singleton.mpr (isToken_text (h p hp))

end PropertyPath

namespace Aggregate

theorem isToken_listTokens {aggregates : List Aggregate} (h : ∀ a ∈ aggregates, a.WellFormed) :
    ∀ t ∈ listTokens aggregates, IsToken t := by
  refine forall_list fun item hi => ?_
  obtain ⟨a, ha, rfl⟩ := List.mem_map.mp hi
  exact isToken_tokens (h a ha)

end Aggregate

namespace OrderItem

theorem isToken_tokens {item : OrderItem} (h : item.path.WellFormed) : ∀ t ∈ item.tokens, IsToken t := by
  obtain ⟨path, direction⟩ := item
  cases direction with
  | ascending => simpa [tokens] using ⟨PropertyPath.isToken_text h, isToken_of_isIdentifier (by decide)⟩
  | descending => simpa [tokens] using ⟨PropertyPath.isToken_text h, isToken_of_isIdentifier (by decide)⟩

end OrderItem

namespace Transformation

theorem isToken_step {t : Transformation} (ht : Written t)
    (hb : ∀ b ∈ t.branches, ∀ u ∈ b, ∀ s ∈ u.tokens, IsToken s) : ∀ s ∈ t.tokens, IsToken s := by
  have hk : IsToken t.kind := isToken_of_isIdentifier t.isIdentifier_kind
  obtain ⟨hw, hx⟩ := ht
  cases t with
  | aggregate aggregates =>
    rw [tokens]
    exact List.forall_mem_cons.mpr ⟨hk, Aggregate.isToken_listTokens hw.right⟩
  | groupBy properties aggregates =>
    obtain ⟨⟨-, hp⟩, ha⟩ := hw
    cases aggregates with
    | none =>
      rw [tokens]
      exact List.forall_mem_cons.mpr ⟨hk, forall_enclosed (PropertyPath.isToken_listTokens hp)⟩
    | some aggregates =>
      rw [tokens]
      refine List.forall_mem_cons.mpr ⟨hk, forall_enclosed (List.forall_mem_append.mpr ⟨?_, ?_⟩)⟩
      case refine_1 => exact PropertyPath.isToken_listTokens hp
      case refine_2 =>
        simp only [List.forall_mem_cons]
        exact ⟨isToken_mark (by decide), isToken_of_isIdentifier (by decide),
          Aggregate.isToken_listTokens (ha aggregates rfl).right⟩
  | filter condition =>
    rw [tokens]
    exact List.forall_mem_cons.mpr ⟨hk, forall_enclosed (condition.isToken_tokens ⟨hw, hx⟩)⟩
  | select paths =>
    rw [tokens]
    exact List.forall_mem_cons.mpr ⟨hk, PropertyPath.isToken_listTokens hw.right⟩
  | orderBy items =>
    rw [tokens]
    refine List.forall_mem_cons.mpr ⟨hk, forall_list fun item hi => ?_⟩
    obtain ⟨item, hm, rfl⟩ := List.mem_map.mp hi
    exact OrderItem.isToken_tokens (hw.right item hm)
  | top count | skip count =>
    rw [tokens]
    refine List.forall_mem_cons.mpr ⟨hk, forall_enclosed (List.forall_mem_singleton.mpr ?_)⟩
    exact number_eq count ▸ isToken_number
  | concat branches =>
    rw [tokens, branchTokens_eq_map]
    refine List.forall_mem_cons.mpr ⟨hk, forall_list fun item hi => ?_⟩
    obtain ⟨b, hm, rfl⟩ := List.mem_map.mp hi
    refine forall_separated (isToken_mark (by decide)) fun item hi => ?_
    obtain ⟨u, hu, rfl⟩ := List.mem_map.mp hi
    exact hb b hm u hu
  | identity =>
    rw [tokens]
    exact List.forall_mem_singleton.mpr hk

theorem isToken_tokens {t : Transformation} (ht : ∀ u ∈ t :: Clause.walkInside t, Written u) :
    ∀ s ∈ t.tokens, IsToken s := by
  induction h : t.tokens.length using Nat.strong_induction_on generalizing t with
  | h n ih =>
    refine isToken_step (ht t List.mem_cons_self) fun b hb u hu => ?_
    exact ih _ (h ▸ length_branch hb hu) (forall_branches ht b hb u hu) rfl

end Transformation

namespace Clause

variable {clause : Clause} {gap : Nat → String}

theorem forall_steps {P : Transformation → Prop} (h : ∀ t ∈ walk clause, P t) :
    ∀ t ∈ clause, ∀ u ∈ t :: walkInside t, P u := by
  intro t ht u hu
  refine h u ?_
  rw [walk_eq_flatMap]
  exact List.mem_flatMap_of_mem ht hu

theorem isToken_tokens (h : ∀ t ∈ walk clause, t.Written) : ∀ s ∈ clause.tokens, IsToken s := by
  refine forall_separated (isToken_mark (by decide)) fun item hi => ?_
  obtain ⟨t, ht, rfl⟩ := List.mem_map.mp hi
  exact Transformation.isToken_tokens (forall_steps h t ht)

theorem length_step {t : Transformation} (h : t ∈ clause) : t.tokens.length ≤ clause.tokens.length :=
  length_le_separated "/" (List.mem_map_of_mem h)

theorem reads (hne : clause ≠ []) (h : ∀ t ∈ walk clause, t.Written) :
    (Clause.scan none).Reads (Spells clause.tokens) clause (· = []) := by
  refine .get_bind fun cursor hs => ?_
  have hl := hs.length_le
  have ht : ∀ t ∈ clause, ∀ us, (Transformation.scan (cursor.rest.length + 1) none).Reads
      (Spells (t.tokens ++ us)) (Transformation.unbound t) (Spells us) := by
    intro t ht us
    have := length_step ht
    exact Transformation.reads (forall_steps h t ht) (by omega)
  have hc : (Transformation.sequenceOf (Transformation.scan (cursor.rest.length + 1)) none).Reads
      (Spells clause.tokens) (Transformation.unbound clause) (Spells []) :=
    List.append_nil clause.tokens ▸ Transformation.reads_sequenceOf hne nofun ht
  refine Reads.bind (hc.mono (by rintro _ rfl; exact hs) fun _ => id) (reads_skipBlank.bind ?_)
  refine .get_bind fun next hn => ?_
  have he := hn.nil
  exact .ite_pos (by rw [he]; rfl) (.mono .pure (fun _ => id) (by rintro _ rfl; exact he))

theorem parse_of_spells {s : String} (hne : clause ≠ []) (h : ∀ t ∈ walk clause, t.Written)
    (hs : Spells clause.tokens s.toList) : parse none s = .ok clause := by
  obtain ⟨next, hn, -⟩ := reads hne h (Cursor.ofString s) hs
  exact run'_eq_ok.mpr ⟨next, hn⟩

-- A blank everywhere keeps all tokens apart.
theorem isSpacing_blank {tokens : List String} : IsSpacing tokens fun _ => " " where
  blank _ := by decide
  apart := by intros; decide

theorem parse_render (hw : clause.WellFormed) (hx : ∀ t ∈ walk clause, ∀ v ∈ t.literals, ¬v.IsFloat)
    (hg : IsSpacing clause.tokens gap) : parse none (clause.render gap) = .ok clause := by
  have ht : ∀ t ∈ walk clause, t.Written := fun t ht => ⟨hw.right t ht, hx t ht⟩
  exact parse_of_spells hw.left ht (spells_spell (isToken_tokens ht) hg)

-- The tokens of a step with one argument in brackets need no blanks between them.
theorem parse_bracketed {t : Transformation} {argument : String} (ht : t.tokens = [t.kind, "(", argument, ")"])
    (hi : walkInside t = []) (hw : t.Written) : parse none (t.kind ++ "(" ++ argument ++ ")") = .ok [t] := by
  have hw : ∀ u ∈ walk [t], u.Written := by simpa [walk, hi] using hw
  have hg : IsSpacing [t.kind, "(", argument, ")"] fun _ => "" := by
    refine ⟨fun _ _ hc => absurd hc List.not_mem_nil, fun i t u ht hu hl hf => ?_⟩
    rcases i with _ | _ | _ | i
    case zero => cases hu; exact absurd hf (by decide)
    case succ.zero => cases ht; exact absurd hl (by decide)
    case succ.succ.zero => cases hu; exact absurd hf (by decide)
    case succ.succ.succ => cases hu
  have hc : Clause.tokens [t] = [t.kind, "(", argument, ")"] := by simp [Clause.tokens, separated, ht]
  have hr : Clause.render [t] (fun _ => "") = t.kind ++ "(" ++ argument ++ ")" := by
    refine String.toList_inj.mp ?_
    simp [render, spell, hc]
  rw [← hr]
  exact parse_of_spells (List.cons_ne_nil _ _) hw (spells_spell (isToken_tokens hw) (hc ▸ hg))

theorem parse_select {path : PropertyPath} (hp : path.WellFormed) :
    parse none ("select(" ++ path.text ++ ")") = .ok [.select [path]] := by
  have hw : (Transformation.select [path]).Written := ⟨⟨List.cons_ne_nil _ _, List.forall_mem_singleton.mpr hp⟩, nofun⟩
  have h := parse_bracketed rfl rfl hw
  simpa only [Transformation.kind, String.reduceAppend] using h

theorem parsing_undoes_rendering :
    (∀ s clause, parse none s = .ok clause → clause.WellFormed) ∧
    ∀ clause : Clause, clause.WellFormed → (∀ t ∈ walk clause, ∀ v ∈ t.literals, ¬v.IsFloat) →
      ∀ gap, IsSpacing clause.tokens gap → parse none (clause.render gap) = .ok clause := by
  exact ⟨fun s clause => wellFormed_of_parse, fun clause hw hx gap hg => parse_render hw hx hg⟩

theorem parsing_undoes_rendering_negation :
    parse none " filter ( not ( A/B or C eq 'it''s' ) ) " = .ok [.filter <| .not <|
      .or (.truthy (.path ["A", "B"])) (.compare .eq (.path ["C"]) (.literal (.string "it's")))] := by
  have h : ∀ s (clause : Clause), clause.render (fun _ => " ") = s → clause.WellFormed →
      (∀ t ∈ walk clause, ∀ v ∈ t.literals, ¬v.IsFloat) → parse none s = .ok clause := by
    rintro _ clause rfl hw hx
    exact parsing_undoes_rendering.right clause hw hx _ isSpacing_blank
  refine h _ _ rfl ⟨List.cons_ne_nil _ _, List.forall_mem_singleton.mpr ?_⟩ ?_
  case refine_1 =>
    simp only [Transformation.WellFormed, Filter.WellFormed, Operand.WellFormed, Operand.IsLiteral,
      Operand.StartsWithNot, PropertyPath.WellFormed, PropertyPath.StartsOperand]
    decide
  case refine_2 =>
    simp [walk, walkInside, Transformation.literals, Filter.literals, Operand.literals, Value.IsFloat]

end Clause
end RowPipeline
