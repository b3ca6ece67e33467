import RowPipeline.Proofs.Clause.Words

namespace RowPipeline

open Scan Token

def Value.IsFloat : Value → Prop
  | .float _ => True
  | _ => False

namespace Token

variable {t : String} {ts : List String}

theorem leadWord_of_isIdentifier (h : IsIdentifier t) : leadWord (t :: ts) = t.toList :=
  List.takeWhile_eq_self_iff.mpr h.right

theorem head?_of_leadWord {c : Char} (h : (leadWord ts).head? = some c) : leadChar ts = some c := by
  cases ts with
  | nil => cases h
  | cons t ts => exact Operand.head?_takeWhile_eq_some h

theorem reads_other_keyword {word : String} (hw : IsIdentifier word) (ht : IsIdentifier t) (h : t ≠ word) :
    (keyword word).Reads (Starts (t :: ts)) false (Starts (t :: ts)) :=
  reads_no_keyword hw.right (by rwa [leadWord_of_isIdentifier ht, ne_eq, String.toList_inj])

end Token

namespace PropertyPath

variable {name : String} {names : List String} {ts : List String}

theorem toList_text : (text (name :: names)).toList = name.toList ++ names.flatMap ('/' :: ·.toList) :=
  Reads.toList_intercalate_cons rfl

theorem leadWord_text (h : WellFormed (name :: names)) : leadWord (text (name :: names) :: ts) = name.toList := by
  rw [leadWord, toList_text, List.takeWhile_append_of_pos (h.right name List.mem_cons_self).right]
  cases names with
  | nil => simp
  | cons n ns => simp [show isIdentifierChar '/' = false by decide]

theorem leadChar_text (h : WellFormed (name :: names)) : leadChar (text (name :: names) :: ts) = name.toList.head? := by
  obtain ⟨c, hc⟩ : ∃ c, name.toList.head? = some c := by
    have hne : name.toList ≠ [] := by simpa using (h.right name List.mem_cons_self).left
    exact ⟨_, List.head?_eq_some_head hne⟩
  rw [hc]
  exact head?_of_leadWord (leadWord_text h ▸ hc)

end PropertyPath

namespace Operand

variable {o : Operand} {ts us : List String} {depth : Nat}

-- What comes after an operand: a mark or word that goes on with what it is part of.
def ends : List String :=
  [",", ")", "and", "or", "eq", "ne", "lt", "le", "gt", "ge"]

theorem reads_no_word (h : leadWord ts ∉ ["true".toList, "false".toList, "null".toList]) :
    scanWord?.Reads (Starts ts) none (Starts ts) := by
  simp only [List.mem_cons, List.not_mem_nil, or_false, not_or] at h
  refine (reads_no_keyword (by decide) h.1).bind (.ite_neg nofun ?_)
  refine (reads_no_keyword (by decide) h.2.1).bind (.ite_neg nofun ?_)
  exact (reads_no_keyword (by decide) h.2.2).bind (.ite_neg nofun .pure)

theorem reads_segments_nil (h : leadChar ts ≠ some '/') : segments.Reads (Starts ts) [] (Spells ts) := by
  have he : (char? '/').Reads (Starts ts) false (Spells ts) := (reads_no_char? h).mono (fun _ => id) fun _ => And.left
  refine .many fun cs hs => ?_
  cases cs with
  | nil => exact .mono .pure (fun _ => And.left) fun _ => id
  | cons => exact .manyAfter_nil he

theorem reads_path {path : PropertyPath} {operand : Scan Operand} (hp : path.WellFormed) (hf : Follows ends ts) :
    (scanNamed none operand).Reads (Starts (path.text :: ts)) (.path path) (Spells ts) := by
  obtain ⟨name, names, rfl⟩ := List.exists_cons_of_ne_nil hp.left
  obtain ⟨hn, hns⟩ := List.forall_mem_cons.mp hp.right
  have hc : leadChar ts ≠ some '(' := hf.leadChar_ne (by decide)
  have hs : leadChar ts ≠ some '/' := hf.leadChar_ne (by decide)
  refine .position_bind fun start => ?_
  cases names with
  | nil =>
    have ht : PropertyPath.text [name] = name := rfl
    rw [ht]
    refine (reads_identifier hn).bind (reads_skipBlank.bind ?_)
    refine (Reads.peek fun _ h => h.head?).bind (.ite_neg hc ?_)
    exact (reads_segments_nil hs).bind (.bind .pure .pure)
  | cons n ns =>
    refine reads_of_over fun rest ha hr => ?_
    have hr : rest.head? ≠ some '/' := ne_mark_of_spells hr (by decide) hs
    have ha : rest.head?.any isIdentifierChar = false :=
      ha (PropertyPath.toList_text ▸ getLast?_joined hp.right)
    rw [PropertyPath.toList_text, List.append_assoc]
    -- The mark follows the first name at once, so no blanks are skipped there.
    have hb : skipBlank.Reads (· = (n :: ns).flatMap ('/' :: ·.toList) ++ rest) ()
        (· = (n :: ns).flatMap ('/' :: ·.toList) ++ rest) :=
      .discard (.takeWhile (List.forall_mem_nil _) rfl)
    refine (Reads.identifier hn rfl).bind (hb.bind ?_)
    refine (Reads.peek (by rintro _ rfl; rfl)).bind (.ite_neg (by simp) ?_)
    exact (Reads.markedNames (by decide) hns ha hr).bind (.bind .pure .pure)

theorem head?_intChars (k : Int) : ∃ c, (intChars k).head? = some c ∧ (c == '-' || c.isDigit) := by
  unfold intChars
  split
  case isTrue => exact ⟨'-', rfl, rfl⟩
  case isFalse =>
    have hm := List.head_mem (Decimal.digits_ne_nil (n := k.natAbs))
    exact ⟨_, List.head?_eq_some_head Decimal.digits_ne_nil, by simp [Decimal.isDigit_of_mem_digits hm]⟩

theorem leadChar_int (k : Int) : ∃ c, leadChar (literalToken (.int k) :: ts) = some c ∧ (c == '-' || c.isDigit) := by
  obtain ⟨c, hc, hd⟩ := head?_intChars k
  exact ⟨c, by simpa [leadChar, literalToken, Value.text, Value.chars] using hc, hd⟩

theorem leadChar_string (s : String) : leadChar (literalToken (.string s) :: ts) = some '\x27' := by
  simp [leadChar, literalToken, quoted]

theorem reads_word (word : String) {value : Value}
    (hv : ∀ us, scanWord?.Reads (Starts (word :: us)) (some (.literal value)) (Spells us))
    (hq : word.toList.head? ≠ some '\x27') (hd : ¬word.toList.head?.any fun c => c == '-' || c.isDigit) :
    (Operand.scan none (depth + 1)).Reads (Spells (word :: ts)) (.literal value) (Spells ts) := by
  refine reads_skipBlank.bind ((Reads.peek fun _ h => h.head?).bind ?_)
  exact .ite_neg hq (.ite_neg hd ((hv ts).bind .pure))

theorem reads_literal {value : Value} (hv : IsLiteral value) (hx : ¬value.IsFloat) (hf : Follows ends ts) :
    (Operand.scan none (depth + 1)).Reads (Spells (literalToken value :: ts)) (.literal value) (Spells ts) := by
  cases value with
  | null =>
    refine reads_word "null" (fun us => ?_) (by decide) (by decide)
    refine (reads_other_keyword (by decide) (by decide) (by decide)).bind (.ite_neg nofun ?_)
    refine (reads_other_keyword (by decide) (by decide) (by decide)).bind (.ite_neg nofun ?_)
    exact (reads_keyword (by decide)).bind (.ite_pos rfl .pure)
  | bool b =>
    cases b with
    | false =>
      refine reads_word "false" (fun us => ?_) (by decide) (by decide)
      refine (reads_other_keyword (by decide) (by decide) (by decide)).bind (.ite_neg nofun ?_)
      exact (reads_keyword (by decide)).bind (.ite_pos rfl .pure)
    | true =>
      refine reads_word "true" (fun us => ?_) (by decide) (by decide)
      exact (reads_keyword (by decide)).bind (.ite_pos rfl .pure)
  | int k =>
    obtain ⟨c, hl, hd⟩ := leadChar_int k
    refine reads_skipBlank.bind ((Reads.peek fun _ h => h.head?.trans hl).bind ?_)
    refine .ite_neg ?_ (.ite_pos hd ?_)
    case refine_1 => rintro ⟨⟩; revert hd; decide
    case refine_2 => exact (reads_numberLiteral hv (hf.leadChar_ne (by decide))).bind .pure
  | string s =>
    refine reads_skipBlank.bind ((Reads.peek fun _ h => h.head?.trans (leadChar_string s)).bind (.ite_pos rfl ?_))
    exact (reads_quotedString (hf.leadChar_ne (by decide))).bind .pure
  | float x => exact absurd trivial hx
  | array items => exact hv.elim
  | object members => exact hv.elim

theorem isIdentifier_name (f : ScalarFunction) : IsIdentifier f.name := by
  cases f <;> decide

theorem reads_call {function : ScalarFunction} {args : List Operand} {operand : Scan Operand}
    (hl : args.length = function.arity)
    (ha : ∀ o ∈ args, ∀ us, Follows ends us → operand.Reads (Spells (o.tokens ++ us)) o (Spells us)) :
    (scanNamed none operand).Reads (Starts (function.name :: (enclosed (separated "," (args.map tokens)) ++ ts)))
      (.call function args) (Spells ts) := by
  have hne : args ≠ [] := by
    rintro rfl
    cases function <;> cases hl
  have hn : ScalarFunction.ofName? function.name = some function := by cases function <;> rfl
  refine .position_bind fun start => (reads_identifier (isIdentifier_name function)).bind (reads_skipBlank.bind ?_)
  refine (Reads.peek fun _ h => h.head?).bind (.ite_pos rfl ?_)
  simp only [scanCall, hn]
  rw [enclosed_append]
  refine (reads_expect rfl).bind ((reads_listBy hne fun o ho us hu => ha o ho us (hu.mono (by decide))).bind ?_)
  exact (reads_expect rfl).bind (.ite_pos hl .pure)

-- What starts with a name that is no literal is a path or a call.
theorem reads_of_name (hc : ∀ c ∈ leadChar us, isIdentifierChar c ∧ ¬c.isDigit)
    (hw : leadWord us ∉ ["true".toList, "false".toList, "null".toList])
    (hn : (scanNamed none (Operand.scan none depth)).Reads (Starts us) o (Spells ts)) :
    (Operand.scan none (depth + 1)).Reads (Spells us) o (Spells ts) := by
  refine reads_skipBlank.bind ((Reads.peek fun _ h => h.head?).bind (.ite_neg ?_ (.ite_neg ?_ ?_)))
  case refine_1 => exact fun h => absurd (hc _ h).left (by decide)
  case refine_2 =>
    cases hl : leadChar us with
    | none => decide
    | some c =>
      obtain ⟨hi, hd⟩ := hc c hl
      have hm : c ≠ '-' := by rintro rfl; revert hi; decide
      simp [hm, hd]
  case refine_3 => exact (reads_no_word hw).bind hn

theorem length_tokens_pos (o : Operand) : 0 < o.tokens.length := by
  cases o <;> simp [tokens]

theorem reads (ho : o.WellFormed) (hx : ∀ v ∈ o.literals, ¬v.IsFloat) (hd : o.tokens.length ≤ depth)
    (hf : Follows ends ts) : (Operand.scan none depth).Reads (Spells (o.tokens ++ ts)) o (Spells ts) := by
  induction depth generalizing o ts
  case zero => exact absurd o.length_tokens_pos (by omega)
  case succ depth ih =>
    cases o with
    | path p =>
      obtain ⟨hp, hs⟩ := ho
      obtain ⟨name, names, rfl⟩ := List.exists_cons_of_ne_nil hp.left
      obtain ⟨hw, hs⟩ := hs name rfl
      rw [tokens, List.singleton_append]
      refine reads_of_name (fun c hc => ?_) ?_ (reads_path hp hf)
      case refine_1 =>
        rw [PropertyPath.leadChar_text hp] at hc
        exact ⟨(hp.right name List.mem_cons_self).right c (List.mem_of_head? hc), hs c hc⟩
      case refine_2 =>
        rw [PropertyPath.leadWord_text hp]
        simpa [← String.toList_inj] using hw
    | literal value => exact reads_literal ho (hx value (List.mem_singleton_self _)) hf
    | call function args =>
      obtain ⟨hl, ha⟩ := ho
      rw [allWellFormed_iff] at ha
      rw [literals, allLiterals_eq_flatMap, List.forall_mem_flatMap] at hx
      rw [tokens, argTokens_eq_map] at hd ⊢
      refine reads_of_name (fun c hc => ?_) ?_ (reads_call hl fun o ho us hu => ih (ha o ho) (hx o ho) ?_ hu)
      case refine_1 =>
        have hn : ∀ c ∈ function.name.toList.head?, isIdentifierChar c ∧ ¬c.isDigit := by
          cases function <;> decide
        exact hn c hc
      case refine_2 =>
        rw [List.cons_append, leadWord_of_isIdentifier (isIdentifier_name function)]
        cases function <;> decide
      case refine_3 =>
        have := length_le_separated "," (List.mem_map_of_mem (f := tokens) ho)
        simp only [enclosed, List.length_cons, List.length_append] at hd
        omega

theorem lead_of_leadChar {c : Char} (h : leadChar us = some c) (hn : c ≠ 'n') (hp : c ≠ '(') :
    leadWord us ≠ "not".toList ∧ leadChar us ≠ some '(' := by
  refine ⟨fun hw => hn ?_, fun hc => hp (Option.some_inj.mp (h.symm.trans hc))⟩
  exact Option.some_inj.mp (h.symm.trans (head?_of_leadWord (hw ▸ rfl)))

-- At the start of a condition neither `not` nor a parenthesis is read off the operand.
theorem lead_tokens (ho : o.WellFormed) (hx : ∀ v ∈ o.literals, ¬v.IsFloat) (hn : ¬o.StartsWithNot) :
    leadWord (o.tokens ++ ts) ≠ "not".toList ∧ leadChar (o.tokens ++ ts) ≠ some '(' := by
  cases o with
  | path p =>
    obtain ⟨name, names, rfl⟩ := List.exists_cons_of_ne_nil ho.left.left
    rw [tokens, List.singleton_append, PropertyPath.leadWord_text ho.left, PropertyPath.leadChar_text ho.left]
    refine ⟨fun h => hn (congrArg some (String.toList_inj.mp h)), fun h => ?_⟩
    exact absurd ((ho.left.right name List.mem_cons_self).right _ (List.mem_of_head? h)) (by decide)
  | literal value =>
    have hx := hx value (List.mem_singleton_self _)
    rw [tokens, List.singleton_append]
    cases value with
    | null =>
      exact ⟨show "null".toList.takeWhile isIdentifierChar ≠ _ by decide, show "null".toList.head? ≠ _ by decide⟩
    | bool b =>
      cases b with
      | false => exact lead_of_leadChar (c := 'f') rfl (by decide) (by decide)
      | true => exact lead_of_leadChar (c := 't') rfl (by decide) (by decide)
    | int k =>
      obtain ⟨c, hl, hd⟩ := leadChar_int k
      exact lead_of_leadChar hl (by rintro rfl; revert hd; decide) (by rintro rfl; revert hd; decide)
    | string s => exact lead_of_leadChar (leadChar_string s) (by decide) (by decide)
    | float x => exact absurd trivial hx
    | array items => exact ho.elim
    | object members => exact ho.elim
  | call function args =>
    rw [tokens, List.cons_append]
    refine ⟨?_, show function.name.toList.head? ≠ _ from ?_⟩
    case refine_1 =>
      rw [leadWord_of_isIdentifier (isIdentifier_name function)]
      cases function <;> decide
    case refine_2 => cases function <;> decide

end Operand

namespace Comparison

variable {op : Comparison} {ops : List Comparison} {ts : List String}

theorem isIdentifier_name (op : Comparison) : IsIdentifier op.name := by
  cases op <;> decide

theorem name_injective {op op' : Comparison} (h : op.name = op'.name) : op = op' := by
  cases op <;> cases op' <;> simp_all [name]

theorem reads_go (h : op ∈ ops) : (scan?.go ops).Reads (Starts (op.name :: ts)) (some op) (Spells ts) := by
  induction ops with
  | nil => cases h
  | cons other ops ih =>
    by_cases ho : op = other
    case pos =>
      subst ho
      exact (reads_keyword (isIdentifier_name op)).bind (.ite_pos rfl .pure)
    case neg =>
      have hk : (keyword other.name).Reads (Starts (op.name :: ts)) false (Starts (op.name :: ts)) :=
        reads_other_keyword (isIdentifier_name other) (isIdentifier_name op) (ho <| name_injective ·)
      exact hk.bind (.ite_neg nofun (ih ((List.mem_cons.mp h).resolve_left ho)))

theorem reads : scan?.Reads (Starts (op.name :: ts)) (some op) (Spells ts) :=
  reads_go (by cases op <;> decide)

theorem reads_none_go (h : ∀ op ∈ ops, leadWord ts ≠ op.name.toList) :
    (scan?.go ops).Reads (Starts ts) none (Starts ts) := by
  induction ops with
  | nil => exact .pure
  | cons op ops ih =>
    obtain ⟨ho, hs⟩ := List.forall_mem_cons.mp h
    exact (reads_no_keyword (isIdentifier_name op).right ho).bind (.ite_neg nofun (ih hs))

end Comparison

namespace Filter

variable {f g : Filter} {ts us : List String} {depth : Nat}

-- The parts of a disjunction and of a conjunction, from left to right.
def disjuncts : Filter → List Filter
  | or left right => left.disjuncts ++ [right]
  | f => [f]

def conjuncts : Filter → List Filter
  | and left right => left.conjuncts ++ [right]
  | f => [f]

theorem disjuncts_eq (f : Filter) : ∃ x xs, f.disjuncts = x :: xs ∧ xs.foldl or x = f := by
  induction f with
  | or left right ihl _ =>
    obtain ⟨x, xs, h, hf⟩ := ihl
    exact ⟨x, xs ++ [right], by simp [disjuncts, h], by simp [hf]⟩
  | _ => exact ⟨_, [], rfl, rfl⟩

theorem conjuncts_eq (f : Filter) : ∃ x xs, f.conjuncts = x :: xs ∧ xs.foldl and x = f := by
  induction f with
  | and left right ihl _ =>
    obtain ⟨x, xs, h, hf⟩ := ihl
    exact ⟨x, xs ++ [right], by simp [conjuncts, h], by simp [hf]⟩
  | _ => exact ⟨_, [], rfl, rfl⟩

theorem separated_concat {mark : String} {item last : List String} {items : List (List String)} :
    separated mark (item :: items ++ [last]) = separated mark (item :: items) ++ mark :: last := by
  simp [separated]

theorem tokens_disjuncts (f : Filter) :
    separated "or" (f.disjuncts.map fun g => enclosedBelow 1 g g.tokens) = f.tokens := by
  induction f with
  | or left right ihl _ =>
    obtain ⟨x, xs, h, _⟩ := disjuncts_eq left
    simp only [disjuncts, h, List.map_append, List.map_cons, List.map_nil] at ihl ⊢
    rw [separated_concat, ihl, tokens]
  | _ => simp [disjuncts, separated, enclosedBelow, strength]

theorem tokens_conjuncts (f : Filter) :
    separated "and" (f.conjuncts.map fun g => enclosedBelow 2 g g.tokens) = enclosedBelow 1 f f.tokens := by
  induction f with
  | and left right ihl _ =>
    obtain ⟨x, xs, h, _⟩ := conjuncts_eq left
    simp only [conjuncts, h, List.map_append, List.map_cons, List.map_nil] at ihl ⊢
    have ht : enclosedBelow 1 (left.and right) (left.and right).tokens = (left.and right).tokens := by
      simp [enclosedBelow, strength]
    rw [separated_concat, ihl, ht, tokens]
  | _ => simp [conjuncts, separated, enclosedBelow, strength]

theorem forall_disjuncts {P : Filter → Prop} (hp : ∀ {l r}, P (or l r) → P l ∧ P r) (hf : P f) :
    ∀ g ∈ f.disjuncts, P g := by
  induction f with
  | or left right ihl _ =>
    obtain ⟨hl, hr⟩ := hp hf
    simpa [disjuncts, or_imp, forall_and] using ⟨ihl hl, hr⟩
  | _ => exact List.forall_mem_singleton.mpr hf

theorem forall_conjuncts {P : Filter → Prop} (hp : ∀ {l r}, P (and l r) → P l ∧ P r) (hf : P f) :
    ∀ g ∈ f.conjuncts, P g := by
  induction f with
  | and left right ihl _ =>
    obtain ⟨hl, hr⟩ := hp hf
    simpa [conjuncts, or_imp, forall_and] using ⟨ihl hl, hr⟩
  | _ => exact List.forall_mem_singleton.mpr hf

-- What the text of a condition stands for without loss.
structure Written (f : Filter) : Prop where
  wellFormed : f.WellFormed
  exact      : ∀ v ∈ f.literals, ¬v.IsFloat

theorem Written.or (h : Written (or f g)) : Written f ∧ Written g := by
  obtain ⟨⟨hf, hg⟩, hx⟩ := h
  obtain ⟨hxf, hxg⟩ := List.forall_mem_append.mp hx
  exact ⟨⟨hf, hxf⟩, ⟨hg, hxg⟩⟩

theorem Written.and (h : Written (and f g)) : Written f ∧ Written g := by
  obtain ⟨⟨hf, hg⟩, hx⟩ := h
  obtain ⟨hxf, hxg⟩ := List.forall_mem_append.mp hx
  exact ⟨⟨hf, hxf⟩, ⟨hg, hxg⟩⟩

-- What comes after a part of a conjunction.
def ends : List String :=
  ["and", "or", ")"]

variable {unary : Scan Filter}

theorem reads_conjunction (ht : Follows ["or", ")"] ts)
    (hu : ∀ g ∈ f.conjuncts, ∀ us, Follows ends us →
      unary.Reads (Spells (enclosedBelow 2 g g.tokens ++ us)) g (Spells us)) :
    (chain "and" .and unary).Reads (Spells (enclosedBelow 1 f f.tokens ++ ts)) f (Starts ts) := by
  obtain ⟨x, xs, h, hx⟩ := conjuncts_eq f
  rw [← tokens_conjuncts, h]
  rw [h] at hu
  rw [← hx]
  exact reads_chain (by decide) ht (by decide) hu

theorem reads_disjunction (hu : ∀ g ∈ f.disjuncts, ∀ h ∈ g.conjuncts, ∀ us, Follows ends us →
      unary.Reads (Spells (enclosedBelow 2 h h.tokens ++ us)) h (Spells us)) :
    (disjunction unary).Reads (Spells (f.tokens ++ ")" :: ts)) f (Starts (")" :: ts)) := by
  obtain ⟨x, xs, h, hx⟩ := disjuncts_eq f
  rw [← tokens_disjuncts, h]
  rw [h] at hu
  rw [← hx]
  refine reads_chain (by decide) (.cons (List.mem_singleton_self _)) (by decide) fun g hg us hf => ?_
  exact (reads_conjunction hf (hu g hg)).mono (fun _ => id) fun _ => And.left

theorem length_conjunct {h : Filter} (hg : g ∈ f.disjuncts) (hh : h ∈ g.conjuncts) :
    (enclosedBelow 2 h h.tokens).length ≤ f.tokens.length :=
  calc (enclosedBelow 2 h h.tokens).length
    _ ≤ (enclosedBelow 1 g g.tokens).length :=
      tokens_conjuncts g ▸ length_le_separated "and" (List.mem_map.mpr ⟨h, hh, rfl⟩)
    _ ≤ f.tokens.length :=
      tokens_disjuncts f ▸ length_le_separated "or" (List.mem_map.mpr ⟨g, hg, rfl⟩)

theorem reads_scanOperand {o : Operand} (ho : o.WellFormed) (hx : ∀ v ∈ o.literals, ¬v.IsFloat)
    (ht : Follows Operand.ends ts) : (scanOperand none).Reads (Spells (o.tokens ++ ts)) o (Spells ts) := by
  refine .get_bind fun cursor h => ?_
  have hl := h.length_le
  rw [List.length_append] at hl
  refine (Operand.reads ho hx (by omega) ht).mono ?_ fun _ => id
  rintro _ rfl
  exact h

-- A comparison is read from whatever tokens its operands are read from.
theorem reads_compare_of {op : Comparison} {left right : Operand} {tokens tokens' : List String}
    (hl : ∀ us, Follows Operand.ends us → (scanOperand none).Reads (Spells (tokens ++ us)) left (Spells us))
    (hr : ∀ us, Follows Operand.ends us → (scanOperand none).Reads (Spells (tokens' ++ us)) right (Spells us))
    (ht : Follows ends ts) :
    (scanComparison none).Reads (Spells (tokens ++ op.name :: tokens' ++ ts)) (.compare op left right) (Spells ts) := by
  have hn : op.name ∈ Operand.ends := by cases op <;> decide
  rw [List.append_assoc, List.cons_append]
  refine (hl _ (.cons hn)).bind (reads_skipBlank.bind (Comparison.reads.bind (reads_skipBlank.bind ?_)))
  exact ((hr ts (ht.mono (by decide))).mono (fun _ => And.left) fun _ => id).bind .pure

theorem reads_compare {op : Comparison} {left right : Operand} (h : Written (.compare op left right))
    (ht : Follows ends ts) :
    (scanComparison none).Reads (Spells ((compare op left right).tokens ++ ts)) (.compare op left right)
      (Spells ts) := by
  obtain ⟨⟨hl, hr, -⟩, hx⟩ := h
  obtain ⟨hxl, hxr⟩ := List.forall_mem_append.mp hx
  exact reads_compare_of (fun _ => reads_scanOperand hl hxl) (fun _ => reads_scanOperand hr hxr) ht

theorem reads_truthy {o : Operand} (h : Written (.truthy o)) (ht : Follows ends ts) :
    (scanComparison none).Reads (Spells ((truthy o).tokens ++ ts)) (.truthy o) (Spells ts) := by
  obtain ⟨⟨ho, -⟩, hx⟩ := h
  have hc : Comparison.scan?.Reads (Starts ts) none (Starts ts) :=
    Comparison.reads_none_go fun op _ => ht.leadWord_ne (by cases op <;> decide)
  refine (reads_scanOperand ho hx (ht.mono (by decide))).bind (reads_skipBlank.bind (hc.bind ?_))
  exact .mono .pure (fun _ => And.left) fun _ => id

-- Neither `not` nor a parenthesis comes first.
theorem reads_unary_of_lead (hl : leadWord us ≠ "not".toList ∧ leadChar us ≠ some '(')
    (hc : (scanComparison none).Reads (Spells us) f (Spells ts)) :
    (scanUnary none (depth + 1)).Reads (Spells us) f (Spells ts) := by
  refine reads_skipBlank.bind ((reads_no_keyword (by decide) hl.left).bind (.ite_neg nofun ?_))
  refine (reads_no_char? hl.right).bind (.ite_neg nofun ?_)
  exact hc.mono (fun _ => And.left) fun _ => id

theorem reads_enclosed (hu : ∀ g ∈ f.disjuncts, ∀ h ∈ g.conjuncts, ∀ us, Follows ends us →
      (scanUnary none depth).Reads (Spells (enclosedBelow 2 h h.tokens ++ us)) h (Spells us)) :
    (scanUnary none (depth + 1)).Reads (Spells (enclosed f.tokens ++ ts)) f (Spells ts) := by
  rw [enclosed_append]
  have hn : leadWord ("(" :: (f.tokens ++ ")" :: ts)) ≠ "not".toList :=
    show "(".toList.takeWhile isIdentifierChar ≠ _ by decide
  refine reads_skipBlank.bind ((reads_no_keyword (by decide) hn).bind (.ite_neg nofun ?_))
  refine (reads_char? rfl).bind (.ite_pos rfl ((reads_disjunction hu).bind ?_))
  refine Reads.bind (reads_skipBlank.mono (fun _ => And.left) fun _ => id) ?_
  exact (reads_expect rfl).bind .pure

theorem forall_parts {P : Filter → Prop} (hf : Written f)
    (hp : ∀ h, Written h → (enclosedBelow 2 h h.tokens).length ≤ f.tokens.length → P h) :
    ∀ g ∈ f.disjuncts, ∀ h ∈ g.conjuncts, P h := by
  intro g hg h hh
  have hg' : Written g := forall_disjuncts (P := Written) Written.or hf g hg
  have hh' : Written h := forall_conjuncts (P := Written) Written.and hg' h hh
  exact hp h hh' (length_conjunct hg hh)

theorem length_enclosedBelow_pos (level : Nat) (f : Filter) : 0 < (enclosedBelow level f f.tokens).length := by
  have hl : 0 < f.tokens.length := by
    cases f with
    | truthy o => exact Operand.length_tokens_pos o
    | _ => simp only [tokens, List.length_append, List.length_cons]; omega
  unfold enclosedBelow
  split
  case isTrue => simp [enclosed]
  case isFalse => exact hl

theorem reads_unary (hf : Written f) (hd : (enclosedBelow 2 f f.tokens).length ≤ depth) (ht : Follows ends ts) :
    (scanUnary none depth).Reads (Spells (enclosedBelow 2 f f.tokens ++ ts)) f (Spells ts) := by
  induction depth generalizing f ts
  case zero => exact absurd (length_enclosedBelow_pos 2 f) (by omega)
  case succ depth ih =>
    by_cases hs : f.strength < 2
    case pos =>
      rw [enclosedBelow, if_pos hs] at hd ⊢
      have hl : f.tokens.length ≤ depth := by
        simp only [enclosed, List.length_cons, List.length_append] at hd
        omega
      exact reads_enclosed (forall_parts hf fun h hw hp us hu => ih hw (by omega) hu)
    case neg =>
      rw [enclosedBelow, if_neg hs] at hd ⊢
      cases f with
      | or => exact absurd (by decide : 0 < 2) hs
      | and => exact absurd (by decide : 1 < 2) hs
      | not inner =>
        rw [tokens, List.cons_append]
        refine reads_skipBlank.bind ((reads_keyword (by decide)).bind (.ite_pos rfl ?_))
        exact (ih (f := inner) ⟨hf.wellFormed, hf.exact⟩ (by simpa [tokens] using hd) ht).bind .pure
      | compare op left right =>
        obtain ⟨⟨hl, _, hn⟩, hx⟩ := id hf
        refine reads_unary_of_lead ?_ (reads_compare hf ht)
        rw [tokens, List.append_assoc]
        exact Operand.lead_tokens hl (List.forall_mem_append.mp hx).left hn
      | truthy o =>
        obtain ⟨⟨ho, hn⟩, hx⟩ := id hf
        exact reads_unary_of_lead (Operand.lead_tokens ho hx hn) (reads_truthy hf ht)

theorem reads (hf : Written f) :
    (Filter.scan none).Reads (Spells (f.tokens ++ ")" :: ts)) f (Starts (")" :: ts)) := by
  refine .get_bind fun cursor h => ?_
  have hl := h.length_le
  rw [List.length_append] at hl
  refine (reads_disjunction (forall_parts hf fun h hw hp us hu => reads_unary hw (by omega) hu)).mono ?_ fun _ => id
  rintro _ rfl
  exact h

end Filter
end RowPipeline
