import RowPipeline.Proofs.Clause.Composition

namespace RowPipeline

open Scan Token

variable {cursor mid next : Cursor} {binding : Option Binding} {depth : Nat}

namespace Scan

variable {α : Type}

-- A step has one result and one end at a cursor.
theorem Reads.eq_of_yields {m : Scan α} {P Q : List Char → Prop} {x y : α} (hr : m.Reads P x Q) (hp : P cursor.rest)
    (hy : m.Yields cursor y next) : y = x ∧ Q next.rest := by
  obtain ⟨next', hx, hq⟩ := hr cursor hp
  cases hx.symm.trans hy
  exact ⟨rfl, hq⟩

theorem exists_blank (cs : List Char) : ∃ gap, IsBlank gap ∧ cs = gap ++ cs.dropWhile Text.isBlank :=
  ⟨cs.takeWhile Text.isBlank, List.all_eq_true.mp List.all_takeWhile, List.takeWhile_append_dropWhile.symm⟩

section Words

variable {p : Char → Bool} {c : Char} {cs : List Char} {name word : String} {names : List String} {b : Bool}

theorem rest_of_takeWhile (h : (takeWhile p).Yields cursor cs next) :
    cursor.rest = cs ++ next.rest ∧ ∀ c ∈ cs, p c := by
  obtain ⟨hc, hn⟩ := yields_takeWhile.mp h
  have hr : next.rest = cursor.rest.dropWhile p := by
    rw [hn, hc]
    exact drop_length_takeWhile p cursor.rest
  rw [hr, hc]
  exact ⟨List.takeWhile_append_dropWhile.symm, List.all_eq_true.mp List.all_takeWhile⟩

theorem rest_of_identifier (h : identifier.Yields cursor name next) : cursor.rest = name.toList ++ next.rest := by
  obtain ⟨hn, -, hc⟩ := yields_identifier.mp h
  exact (rest_of_takeWhile (yields_takeWhile.mpr ⟨hn, hc⟩)).left

theorem rest_of_keyword (hw : ∀ c ∈ word.toList, isIdentifierChar c) (h : (keyword word).Yields cursor true next) :
    cursor.rest = word.toList ++ next.rest := by
  obtain ⟨ht, -, hn⟩ := ((yields_keyword hw).mp h).resolve_right nofun
  rw [← String.length_toList] at hn
  exact (rest_of_takeWhile (yields_takeWhile.mpr ⟨ht.symm, hn⟩)).left

theorem rest_of_char? (h : (char? c).Yields cursor true next) : cursor.rest = c :: next.rest := by
  obtain ⟨hc, -, hn⟩ := (yields_char?.mp h).resolve_right nofun
  have he : (expect c).Yields cursor () next := yields_expect.mpr ⟨hc, hn⟩
  exact rest_of_expect he

theorem rest_of_marked {n : Nat}
    (h : (manyAfter (char? '/') (fun _ => identifier) (fun _ _ => ()) n ()).Yields cursor names next) :
    cursor.rest = names.flatMap ('/' :: ·.toList) ++ next.rest := by
  induction n generalizing cursor names with
  | zero =>
    obtain ⟨rfl, rfl⟩ := yields_manyAfter_zero.mp h
    rfl
  | succ n ih =>
    rcases yields_manyAfter_succ.mp h with ⟨c₁, hm, name, c₂, hn, names, hns, rfl⟩ | ⟨hm, rfl⟩
    case inl => simp [rest_of_char? hm, rest_of_identifier hn, ih hns]
    case inr =>
      obtain ⟨-, -, rfl⟩ := (yields_char?.mp hm).resolve_left nofun
      rfl

theorem rest_of_segments (h : segments.Yields cursor names next) :
    cursor.rest = names.flatMap ('/' :: ·.toList) ++ next.rest := by
  obtain ⟨_, _, hg, h⟩ := yields_bind.mp h
  obtain ⟨hc, hm⟩ := yields_get.mp hg
  rw [hc, hm] at h
  exact rest_of_marked h

-- There are no blanks between the two places.
def Solid (cursor next : Cursor) : Prop :=
  ∃ cs, cursor.rest = cs ++ next.rest ∧ ∀ c ∈ cs, ¬Text.isBlank c

namespace Solid

theorem refl : Solid cursor cursor :=
  ⟨[], rfl, nofun⟩

theorem trans (h : Solid cursor mid) (h' : Solid mid next) : Solid cursor next := by
  obtain ⟨cs, hr, hc⟩ := h
  obtain ⟨cs', hr', hc'⟩ := h'
  exact ⟨cs ++ cs', by rw [hr, hr', List.append_assoc], List.forall_mem_append.mpr ⟨hc, hc'⟩⟩

theorem of_digits (h : (takeWhile Char.isDigit).Yields cursor cs next) : Solid cursor next := by
  obtain ⟨hr, hc⟩ := rest_of_takeWhile h
  exact ⟨cs, hr, fun c hm => not_isBlank_of_isIdentifierChar (isIdentifierChar_of_isDigit (hc c hm))⟩

theorem of_char? (hb : ¬Text.isBlank c) (h : (char? c).Yields cursor b next) : Solid cursor next := by
  cases b with
  | true => exact ⟨[c], rest_of_char? h, List.forall_mem_singleton.mpr hb⟩
  | false =>
    obtain ⟨-, -, rfl⟩ := (yields_char?.mp h).resolve_left nofun
    exact refl

theorem of_keyword (hw : IsIdentifier word) (h : (keyword word).Yields cursor b next) : Solid cursor next := by
  cases b with
  | true =>
    exact ⟨word.toList, rest_of_keyword hw.right h, fun c hm => not_isBlank_of_isIdentifierChar (hw.right c hm)⟩
  | false =>
    obtain ⟨-, -, rfl⟩ := ((yields_keyword hw.right).mp h).resolve_left nofun
    exact refl

theorem of_numberLiteral {value : Value} (h : numberLiteral.Yields cursor value next) : Solid cursor next := by
  simp only [numberLiteral, yields_bind, yields_ite, not_yields_failAt, and_false, false_or, or_false,
    yields_pure, yields_position] at h
  obtain ⟨_, c₀, ⟨rfl, -⟩, _, c₁, hs, whole, c₂, hw, _, c₃, hp, h⟩ := h
  have hc : Solid c₀ c₃ := (of_char? (by decide) hs).trans ((of_digits hw).trans (of_char? (by decide) hp))
  rcases h with ⟨-, _, c₄, hf, -, -, rfl⟩ | ⟨-, -, -, -, rfl⟩
  case inl => exact hc.trans (of_digits hf)
  case inr => exact hc

end Solid
end Words

-- Repetitions that read one item. After it nothing but blanks has been passed.
section Single

variable {item : Scan α} {again : Scan Bool} {x : α}

theorem rest_of_many_nil
    (ha : ∀ {c n : Cursor}, again.Yields c false n → n = c)
    (h : (many (do skipBlank; again) item).Yields cursor [] next) :
    next.rest.dropWhile Text.isBlank = cursor.rest.dropWhile Text.isBlank := by
  obtain ⟨_, _, hg, h⟩ := yields_bind.mp h
  obtain ⟨hc, hm⟩ := yields_get.mp hg
  rw [hc, hm] at h
  cases hn : cursor.rest.length with
  | zero =>
    rw [hn] at h
    obtain ⟨-, rfl⟩ := yields_manyAfter_zero.mp h
    rfl
  | succ n =>
    rw [hn] at h
    rcases yields_manyAfter_succ.mp h with ⟨_, _, _, _, _, _, _, he⟩ | ⟨hm, -⟩
    case inl => cases he
    case inr =>
      obtain ⟨_, mid, hb, hm⟩ := yields_bind.mp hm
      rw [ha hm, rest_of_skipBlank hb, List.dropWhile_idempotent]

theorem single_of_listBy {mark : Char} (h : (listBy mark item).Yields cursor [x] next) :
    ∃ mid, item.Yields cursor x mid ∧ next.rest.dropWhile Text.isBlank = mid.rest.dropWhile Text.isBlank := by
  obtain ⟨first, mid, hi, more, hm, he⟩ := yields_listBy.mp h
  cases he
  exact ⟨mid, hi, rest_of_many_nil (fun h => ((yields_char?.mp h).resolve_left nofun).right.right) hm⟩

-- What combines no others has been read as the only item.
theorem single_of_chain {word : String} {combine : α → α → α} (hw : IsIdentifier word) (hx : ∀ y z, combine y z ≠ x)
    (h : (chain word combine item).Yields cursor x next) :
    ∃ mid, item.Yields cursor x mid ∧ next.rest.dropWhile Text.isBlank = mid.rest.dropWhile Text.isBlank := by
  obtain ⟨first, mid, hi, more, hm, he⟩ := yields_chain.mp h
  cases more using List.reverseRecOn with
  | append_singleton more last =>
    rw [List.foldl_concat] at he
    exact absurd he.symm (hx _ _)
  | nil =>
    cases he
    exact ⟨mid, hi, rest_of_many_nil (fun h => (((yields_keyword hw.right).mp h).resolve_left nofun).right.right) hm⟩

end Single
end Scan

namespace PropertyPath

-- The characters of a path. Blanks may stand before its first slash.
def spaced (gap : List Char) : PropertyPath → List Char
  | [] => []
  | name :: names => name.toList ++ (gap ++ names.flatMap ('/' :: ·.toList))

variable {path : PropertyPath}

theorem spaced_nil (h : path ≠ []) : spaced [] path = path.text.toList := by
  obtain ⟨name, names, rfl⟩ := List.exists_cons_of_ne_nil h
  exact toList_text.symm

theorem rest_of_scan (h : (PropertyPath.scan binding).Yields cursor path next) :
    cursor.rest.dropWhile Text.isBlank = path.text.toList ++ next.rest := by
  simp only [PropertyPath.scan, yields_bind, yields_position, yields_pure] at h
  obtain ⟨_, c₁, hb, _, _, ⟨rfl, -⟩, p, c₂, hp, _, _, hc, rfl, rfl⟩ := h
  obtain ⟨rfl, -⟩ := yields_checkPath.mp hc
  obtain ⟨name, c₃, hn, names, hs, rfl⟩ := yields_joinedBy.mp hp
  rw [← rest_of_skipBlank hb, rest_of_identifier hn, rest_of_segments hs, toList_text, List.append_assoc]

end PropertyPath

namespace Operand

variable {o : Operand}

theorem path_of_scanNamed {operand : Scan Operand} (hp : '(' ∉ cursor.rest)
    (h : (scanNamed binding operand).Yields cursor o next) :
    ∃ path gap, o = .path path ∧ IsBlank gap ∧ cursor.rest = path.spaced gap ++ next.rest := by
  simp only [scanNamed, yields_bind, yields_position, yields_ite, yields_pure, yields_peek] at h
  obtain ⟨_, c₀, ⟨rfl, -⟩, name, c₁, hn, _, c₂, hb, _, c₃, ⟨rfl, rfl⟩, h⟩ := h
  obtain ⟨gap, hg, hr⟩ := exists_blank c₁.rest
  have hr : c₀.rest = name.toList ++ (gap ++ c₃.rest) := by
    rw [rest_of_skipBlank hb, ← hr, rest_of_identifier hn]
  rcases h with ⟨hc, -⟩ | ⟨-, names, c₄, hs, _, c₅, hk, rfl, rfl⟩
  case inl =>
    refine absurd ?_ hp
    rw [hr]
    exact List.mem_append_right _ (List.mem_append_right _ (List.mem_of_head? hc))
  case inr =>
    obtain ⟨rfl, -⟩ := yields_checkPath.mp hk
    refine ⟨name :: names, gap, rfl, hg, ?_⟩
    rw [hr, rest_of_segments hs]
    simp [PropertyPath.spaced]

theorem solid_of_scanWord? (h : scanWord?.Yields cursor (some o) next) : Solid cursor next := by
  simp only [scanWord?, yields_bind, yields_ite, yields_pure, Option.some.injEq, reduceCtorEq, false_and,
    and_false, or_false] at h
  obtain ⟨_, c₁, h₁, ⟨-, -, rfl⟩ | ⟨-, _, c₂, h₂, ⟨-, -, rfl⟩ | ⟨-, _, c₃, h₃, -, -, rfl⟩⟩⟩ := h
  case inl => exact .of_keyword (by decide) h₁
  case inr.inl => exact (Solid.of_keyword (by decide) h₁).trans (.of_keyword (by decide) h₂)
  case inr.inr =>
    exact (Solid.of_keyword (by decide) h₁).trans ((Solid.of_keyword (by decide) h₂).trans (.of_keyword (by decide) h₃))

-- Where there are neither quotes nor parentheses, an operand is a literal without blanks in it or a path.
theorem cases_of_scan (hq : '\x27' ∉ cursor.rest) (hp : '(' ∉ cursor.rest)
    (h : (Operand.scan binding depth).Yields cursor o next) :
    (∃ value cs, o = .literal value ∧ (∀ c ∈ cs, ¬Text.isBlank c) ∧
      cursor.rest.dropWhile Text.isBlank = cs ++ next.rest) ∨
    ∃ path gap, o = .path path ∧ IsBlank gap ∧ cursor.rest.dropWhile Text.isBlank = path.spaced gap ++ next.rest := by
  cases depth with
  | zero => simp [Operand.scan] at h
  | succ depth =>
    simp only [Operand.scan, yields_bind, yields_peek, yields_ite, bind_pure_comp, yields_map] at h
    obtain ⟨_, _, hb, _, c₁, ⟨rfl, rfl⟩, h⟩ := h
    have hr : c₁.rest = cursor.rest.dropWhile Text.isBlank := rest_of_skipBlank hb
    have hm : ∀ c ∈ c₁.rest, c ∈ cursor.rest := fun c hc => (List.dropWhile_suffix _).subset (hr ▸ hc)
    rw [← hr]
    rcases h with ⟨hc, -⟩ | ⟨-, ⟨-, value, hv, rfl⟩ | ⟨-, word, c₂, hw, h⟩⟩
    case inl => exact absurd (hm _ (List.mem_of_head? hc)) hq
    case inr.inl =>
      obtain ⟨cs, hs, hc⟩ := Solid.of_numberLiteral hv
      exact .inl ⟨value, cs, rfl, hc, hs⟩
    cases word with
    | some operand =>
      obtain ⟨rfl, rfl⟩ := yields_pure.mp h
      obtain ⟨value, rfl, -⟩ := scanWord?_some hw
      obtain ⟨cs, hs, hc⟩ := solid_of_scanWord? hw
      exact .inl ⟨value, cs, rfl, hc, hs⟩
    | none =>
      obtain ⟨rfl, -⟩ := scanWord?_none hw
      exact .inr (path_of_scanNamed (fun h => hp (hm _ h)) h)

end Operand

namespace Comparison

variable {op : Comparison} {ops : List Comparison}

theorem rest_of_go (h : (scan?.go ops).Yields cursor (some op) next) : cursor.rest = op.name.toList ++ next.rest := by
  induction ops with
  | nil => cases (yields_pure.mp h).left
  | cons other ops ih =>
    have hi : IsIdentifier other.name := isIdentifier_name other
    obtain ⟨b, mid, hk, h⟩ := yields_bind.mp h
    rcases yields_ite.mp h with ⟨rfl, hp⟩ | ⟨hb, hg⟩
    case inl =>
      obtain ⟨he, rfl⟩ := yields_pure.mp hp
      cases he
      exact rest_of_keyword hi.right hk
    case inr =>
      obtain ⟨-, -, rfl⟩ := ((yields_keyword hi.right).mp hk).resolve_left fun h => hb h.right.left
      exact ih hg

theorem rest_of_scan? (h : scan?.Yields cursor (some op) next) : cursor.rest = op.name.toList ++ next.rest :=
  rest_of_go h

end Comparison

namespace Filter

variable {op : Comparison} {left right : Operand}

theorem depth_of_scanOperand {o : Operand} (h : (scanOperand binding).Yields cursor o next) :
    ∃ depth, (Operand.scan binding depth).Yields cursor o next := by
  simp only [scanOperand, yields_bind, yields_get] at h
  obtain ⟨_, _, ⟨rfl, rfl⟩, h⟩ := h
  exact ⟨_, h⟩

theorem operands_of_scanComparison (h : (scanComparison binding).Yields cursor (.compare op left right) next) :
    ∃ c₁ c₂ c₃ : Cursor, (scanOperand binding).Yields cursor left c₁ ∧
      c₁.rest.dropWhile Text.isBlank = op.name.toList ++ c₂.rest ∧ c₂.rest.dropWhile Text.isBlank = c₃.rest ∧
        (scanOperand binding).Yields c₃ right next := by
  simp only [scanComparison, yields_bind, bind_pure_comp] at h
  obtain ⟨operand, c₁, hl, _, c₂, hb, op?, c₃, hc, h⟩ := h
  cases op? with
  | none => cases (yields_pure.mp h).left
  | some op' =>
    simp only [yields_bind, yields_map] at h
    obtain ⟨_, c₄, hb', operand', hr, he⟩ := h
    cases he
    exact ⟨c₁, c₃, c₄, hl, rest_of_skipBlank hb ▸ Comparison.rest_of_scan? hc, (rest_of_skipBlank hb').symm, hr⟩

-- Where there are no parentheses, a condition that is a comparison is read as one at once.
theorem comparison_of_scanUnary (hp : '(' ∉ cursor.rest)
    (h : (scanUnary binding depth).Yields cursor (.compare op left right) next) :
    ∃ mid, mid.rest = cursor.rest.dropWhile Text.isBlank ∧
      (scanComparison binding).Yields mid (.compare op left right) next := by
  cases depth with
  | zero => simp [scanUnary] at h
  | succ depth =>
    simp only [scanUnary, yields_bind, yields_ite, bind_pure_comp, yields_map] at h
    obtain ⟨_, c₁, hb, negated, c₂, hk, ⟨-, _, -, he⟩ | ⟨hn, opened, c₃, hc, h⟩⟩ := h
    case inl => cases he
    case inr =>
      obtain ⟨-, -, rfl⟩ := ((yields_keyword (by decide)).mp hk).resolve_left fun h => hn h.right.left
      have hr : c₂.rest = cursor.rest.dropWhile Text.isBlank := rest_of_skipBlank hb
      rcases yields_char?.mp hc with ⟨ho, -, -⟩ | ⟨-, rfl, rfl⟩
      case inl => exact absurd ((List.dropWhile_suffix _).subset (hr ▸ List.mem_of_head? ho)) hp
      case inr =>
        rcases h with ⟨ho, -⟩ | ⟨-, h⟩
        case inl => cases ho
        case inr => exact ⟨c₃, hr, h⟩

theorem comparison_of_scan (hp : '(' ∉ cursor.rest)
    (h : (Filter.scan binding).Yields cursor (.compare op left right) next) :
    ∃ c₁ c₂, c₁.rest = cursor.rest.dropWhile Text.isBlank ∧
      (scanComparison binding).Yields c₁ (.compare op left right) c₂ ∧
        next.rest.dropWhile Text.isBlank = c₂.rest.dropWhile Text.isBlank := by
  simp only [Filter.scan, disjunction, yields_bind, yields_get] at h
  obtain ⟨_, c, ⟨rfl, rfl⟩, h⟩ := h
  obtain ⟨c₁, h, hn⟩ := single_of_chain (by decide) (by simp) h
  obtain ⟨c₂, h, hn'⟩ := single_of_chain (by decide) (by simp) h
  obtain ⟨mid, hm, hc⟩ := comparison_of_scanUnary hp h
  exact ⟨mid, c₂, hm, hc, hn.trans hn'⟩

end Filter

namespace Transformation

variable {t : Transformation × Option Binding} {kind : String} {text : List Char}

theorem body_of_yields (hk : IsIdentifier kind) (hi : kind ≠ "identity") (hr : cursor.rest = kind.toList ++ '(' :: text)
    (h : (Transformation.scan depth binding).Yields cursor t next) :
    ∃ start item c₁ c₂, c₁.rest = text ∧ (scanBody start kind item binding).Yields c₁ t c₂ ∧
      c₂.rest.dropWhile Text.isBlank = ')' :: next.rest := by
  cases depth with
  | zero => simp [Transformation.scan] at h
  | succ depth =>
    simp only [Transformation.scan, closing, yields_bind, yields_position, yields_ite, yields_pure] at h
    obtain ⟨_, c₁, hb, start, c₂, ⟨rfl, -⟩, name, c₃, hn, h⟩ := h
    have hs : cursor.rest.dropWhile Text.isBlank = cursor.rest := by
      obtain ⟨c, cs, hc⟩ := List.exists_cons_of_ne_nil (mt String.toList_eq_nil_iff.mp hk.left)
      have hb : ¬Text.isBlank c := not_isBlank_of_isIdentifierChar (hk.right c (hc ▸ List.mem_cons_self))
      simp [hr, hc, hb]
    rw [← hs, ← rest_of_skipBlank hb] at hr
    obtain ⟨rfl, hn⟩ := (Reads.identifier hk rfl).eq_of_yields hr hn
    rcases h with ⟨he, -⟩ | ⟨-, _, c₄, hb, _, c₅, ho, _, c₆, ht, _, c₇, ⟨_, c₈, hb', hc⟩, rfl, rfl⟩
    case inl => exact absurd he hi
    case inr =>
      have ho : c₄.rest = '(' :: c₅.rest := rest_of_expect ho
      rw [rest_of_skipBlank hb, hn] at ho
      have hr : text = c₅.rest := (List.cons.inj ho).right
      have hc : c₈.rest = ')' :: next.rest := rest_of_expect hc
      rw [rest_of_skipBlank hb'] at hc
      exact ⟨start, _, c₅, c₆, hr.symm, ht, hc⟩

end Transformation

namespace Clause

open Transformation

variable {t : Transformation} {kind s : String} {argument : List Char}

-- The only transformation of a text is read from what stands in its parentheses.
theorem body_of_parse (hk : IsIdentifier kind) (hi : kind ≠ "identity") (hs : s.toList = kind.toList ++ '(' :: argument)
    (h : parse none s = .ok [t]) :
    ∃ start item c₁ c₂ rest, c₁.rest = argument ∧ (scanBody start kind item none).Yields c₁ (unbound t) c₂ ∧
      c₂.rest.dropWhile Text.isBlank = ')' :: rest ∧ IsBlank rest := by
  obtain ⟨_, rest, _, he, ht, hf⟩ := spelt_of_parse h
  cases he
  obtain ⟨next, hy, rfl⟩ := ht ⟨s.toList, 0⟩ rfl
  obtain ⟨start, item, c₁, c₂, hr, hb, hc⟩ := body_of_yields hk hi hs hy
  cases hf with
  | nil hn => exact ⟨start, item, c₁, c₂, next.rest, hr, hb, hc, List.dropWhile_eq_nil_iff.mp hn⟩

-- One transformation is read if nothing but blanks is left behind it.
theorem parse_of_reads (h : (Transformation.scan (s.toList.length + 1) none).Reads (· = s.toList) (unbound t) IsBlank) :
    parse none s = .ok [t] := by
  obtain ⟨next, hy, hb⟩ := h ⟨s.toList, 0⟩ rfl
  obtain ⟨ht, -, -⟩ := spelt_of_yields hy
  exact parse_of_spelt ⟨t, next.rest, [], rfl, ht, .nil (List.dropWhile_eq_nil_iff.mpr hb)⟩

end Clause
end RowPipeline
