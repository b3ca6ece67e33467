import Mathlib.Data.List.Chain
import RowPipeline.Proofs.Clause.SpacedReading

namespace RowPipeline

open Scan Token

variable {path : PropertyPath} {gap : List Char} {binding : Option Binding} {s : String}

namespace PropertyPath

-- The text is that of a path with blanks around it, and with a gap before its first slash.
def StandsIn (path : PropertyPath) (gap text : List Char) : Prop :=
  ∃ before after, IsBlank before ∧ IsBlank after ∧ text = before ++ (path.spaced gap ++ after)

-- The path is all that is selected.
def Selects (binding : Option Binding) (s : String) (path : PropertyPath) : Prop :=
  Clause.parse binding ("select(" ++ s ++ ")") = .ok [.select [path]]

-- The path is the left side of the only comparison.
def Compares (binding : Option Binding) (s : String) (path : PropertyPath) : Prop :=
  ∃ op right, Clause.parse binding ("filter(" ++ s ++ " eq 1)") = .ok [.filter (.compare op (.path path) right)]

def firstIdentifier (s : String) : String :=
  String.ofList ((s.toList.dropWhile fun c => !isIdentifierChar c).takeWhile isIdentifierChar)

-- Names, slashes and blanks, with neither a negation nor a literal at the start.
structure IsPathText (s : String) : Prop where
  chars : ∀ c ∈ s.toList, isIdentifierChar c ∨ c = '/' ∨ Text.isBlank c
  word  : firstIdentifier s ∉ ["not", "true", "false", "null"]
  digit : ∀ c ∈ (firstIdentifier s).toList.head?, ¬c.isDigit

def BlankBeforeSlash (s : String) : Prop :=
  ∃ c, Text.isBlank c ∧ [c, '/'] <:+: s.toList

end PropertyPath

namespace Token

variable {text cs : List Char}

-- No character of a kind comes right after a blank.
def NoneAfterBlank (p : Char → Bool) (text : List Char) : Prop :=
  text.IsChain fun c d => Text.isBlank c → ¬p d

namespace NoneAfterBlank

variable {p : Char → Bool} {rest : List Char}

theorem solid_append (hc : ∀ c ∈ cs, ¬Text.isBlank c) (h : NoneAfterBlank p rest) : NoneAfterBlank p (cs ++ rest) := by
  induction cs with
  | nil => exact h
  | cons c cs ih =>
    obtain ⟨hc, hcs⟩ := List.forall_mem_cons.mp hc
    exact (ih hcs).cons fun _ _ hb => absurd hb hc

theorem blank_append (hp : ∀ c, Text.isBlank c → ¬p c) (hb : IsBlank cs) (hr : ∀ c ∈ rest.head?, ¬p c)
    (h : NoneAfterBlank p rest) : NoneAfterBlank p (cs ++ rest) := by
  induction cs with
  | nil => exact h
  | cons c cs ih =>
    obtain ⟨-, hcs⟩ := List.forall_mem_cons.mp hb
    refine (ih hcs).cons fun d hd _ => ?_
    cases cs with
    | nil => exact hr d hd
    | cons d' cs =>
      cases hd
      exact hp d (hcs d List.mem_cons_self)

end NoneAfterBlank

-- The last character of a text is in the part at its end.
theorem mem_of_append_eq {front back : List Char} {c : Char} (hne : cs ≠ []) (h : front ++ cs = back ++ [c]) :
    c ∈ cs := by
  cases cs using List.reverseRecOn with
  | nil => exact absurd rfl hne
  | append_singleton cs d =>
    rw [← List.append_assoc, List.append_singleton_inj] at h
    exact h.right ▸ List.mem_append_right cs (List.mem_singleton_self d)

theorem eq_nil_of_append_blank {front back : List Char} {c : Char} (hg : IsBlank gap) (hc : ¬Text.isBlank c)
    (h : front ++ gap = back ++ [c]) : gap = [] :=
  Classical.byContradiction fun hne => hc (hg c (mem_of_append_eq hne h))

end Token

namespace Clause

theorem parse_iff_accepts {t : Transformation} (hb : t.branches = []) :
    parse binding s = .ok [t] ↔ parse none s = .ok [t] ∧ ∀ q ∈ t.paths, Binding.Accepts binding q := by
  have hn : ∀ q, InForce q [] → Binding.Accepts (Binding.after binding t) q :=
    fun _ h => absurd h not_inForce_nil
  rw [parse_iff_parse_and_accepts, Transformation.forall_inForce_cons, and_iff_left hn,
    Transformation.accepted_iff_of_no_branches t hb]

end Clause

namespace Comparison

variable {front cs text back : List Char} {op : Comparison}

theorem not_last_of_append {c : Char} (hc : c = ' ' ∨ c = '1') : front ++ op.name.toList ≠ back ++ [c] := by
  intro h
  have hm : c ∈ op.name.toList := mem_of_append_eq (mt String.toList_eq_nil_iff.mp (isIdentifier_name op).left) h
  rcases hc with rfl | rfl
  all_goals exact absurd hm (by cases op <;> decide)

-- Only the last word of the text can be what is compared with, since an operand does not go on with another word.
theorem front_of_comparison (hg : IsBlank gap) (hc : NoneAfterBlank isIdentifierChar cs)
    (h : front ++ (op.name.toList ++ (gap ++ cs)) = text ++ " eq 1".toList) : front = text ++ [' '] := by
  have ht : text ++ " eq 1".toList = text ++ [' '] ++ ['e'] ++ ['q'] ++ [' '] ++ ['1'] := by simp
  simp only [ht, ← List.append_assoc] at h
  have hcs : cs = ['1'] := by
    cases cs using List.reverseRecOn with
    | nil =>
      rw [List.append_nil] at h
      obtain rfl : gap = [] := eq_nil_of_append_blank hg (by decide) h
      rw [List.append_nil] at h
      exact absurd h (not_last_of_append (by decide))
    | append_singleton cs c =>
      rw [← List.append_assoc, List.append_singleton_inj] at h
      obtain ⟨h, rfl⟩ := h
      cases cs using List.reverseRecOn with
      | nil => rfl
      | append_singleton cs c =>
        rw [← List.append_assoc, List.append_singleton_inj] at h
        obtain ⟨-, rfl⟩ := h
        rw [List.append_assoc] at hc
        exact absurd (by decide) (List.isChain_pair.mp hc.right_of_append (by decide))
  rw [hcs, List.append_singleton_inj] at h
  obtain ⟨h, -⟩ := h
  cases gap using List.reverseRecOn with
  | nil =>
    rw [List.append_nil] at h
    exact absurd h (not_last_of_append (by decide))
  | append_singleton gap c =>
    rw [← List.append_assoc, List.append_singleton_inj] at h
    obtain ⟨h, -⟩ := h
    obtain rfl : gap = [] := eq_nil_of_append_blank (List.forall_mem_append.mp hg).left (by decide) h
    rw [List.append_nil, List.append_assoc (text ++ [' '])] at h
    exact (List.append_inj' h (by cases op <;> rfl)).left

end Comparison

namespace PropertyPath

variable {name : String} {names : List String} {text : List Char}

-- The names after the first one, with their slashes.
theorem solid_marked (hn : ∀ n ∈ names, IsIdentifier n) : ∀ c ∈ names.flatMap ('/' :: ·.toList), ¬Text.isBlank c := by
  refine List.forall_mem_flatMap.mpr fun n hm => List.forall_mem_cons.mpr ⟨by decide, fun c hc => ?_⟩
  exact not_isBlank_of_isIdentifierChar ((hn n hm).right c hc)

theorem head?_marked : ∀ c ∈ (names.flatMap ('/' :: ·.toList)).head?, c = '/' := by
  cases names <;> simp [eq_comm]

-- The words of a path with a gap in it are not apart.
theorem noneAfterBlank_spaced (hg : IsBlank gap) (hp : path.WellFormed) :
    NoneAfterBlank isIdentifierChar (path.spaced gap) := by
  obtain ⟨name, names, rfl⟩ := List.exists_cons_of_ne_nil hp.left
  obtain ⟨hn, hns⟩ := List.forall_mem_cons.mp hp.right
  have hm : NoneAfterBlank isIdentifierChar (names.flatMap ('/' :: ·.toList)) := by
    have h : NoneAfterBlank isIdentifierChar (names.flatMap ('/' :: ·.toList) ++ []) :=
      .solid_append (solid_marked hns) .nil
    rwa [List.append_nil] at h
  refine .solid_append (fun c hc => not_isBlank_of_isIdentifierChar (hn.right c hc)) (.blank_append ?_ hg ?_ hm)
  case refine_1 => exact fun c hb hi => not_isBlank_of_isIdentifierChar hi hb
  case refine_2 =>
    intro c hc
    rw [head?_marked c hc]
    decide

-- A closing parenthesis at the end of the text is the one that is read.
theorem exists_blank_of_closing {front rest cs : List Char} (h : front ++ rest = text ++ [')'])
    (hc : rest.dropWhile Text.isBlank = ')' :: cs) (hb : IsBlank cs) : ∃ gap, IsBlank gap ∧ text = front ++ gap := by
  obtain ⟨gap, hg, hr⟩ := exists_blank rest
  rw [hr, hc, List.append_cons, ← List.append_assoc] at h
  obtain rfl : cs = [] := eq_nil_of_append_blank hb (by decide) h
  rw [List.append_nil, ← List.append_assoc, List.append_singleton_inj] at h
  exact ⟨gap, hg, h.left.symm⟩

theorem standsIn_of_selects (h : Selects none s path) : path.WellFormed ∧ path.StandsIn [] s.toList := by
  have hw : path.WellFormed :=
    ((Clause.wellFormed_of_parse h).right _ List.mem_cons_self).right path (List.mem_singleton_self path)
  have hs : ("select(" ++ s ++ ")").toList = "select".toList ++ '(' :: (s.toList ++ [')']) := by simp
  obtain ⟨start, item, c₁, c₂, rest, hr, hb, hc, hrest⟩ := Clause.body_of_parse (by decide) (by decide) hs h
  obtain ⟨paths, c₃, hl, he⟩ := yields_bind.mp hb
  obtain ⟨he, rfl⟩ := yields_pure.mp he
  cases he
  obtain ⟨mid, hp, hm⟩ := single_of_listBy hl
  obtain ⟨before, hbf, hbr⟩ := exists_blank c₁.rest
  rw [rest_of_scan hp, hr, ← List.append_assoc] at hbr
  obtain ⟨after, ha, hs⟩ := exists_blank_of_closing hbr.symm (hm ▸ hc) hrest
  exact ⟨hw, before, after, hbf, ha, by rw [hs, spaced_nil hw.left, List.append_assoc]⟩

-- Of the blanks behind a path the last one may be left out.
theorem standsIn_of_concat (hp : path.WellFormed) (hg : IsBlank gap) (h : path.StandsIn gap (text ++ [' '])) :
    ∃ gap, IsBlank gap ∧ path.StandsIn gap text := by
  obtain ⟨before, after, hb, ha, h⟩ := h
  cases after using List.reverseRecOn with
  | append_singleton after c =>
    simp only [← List.append_assoc, List.append_singleton_inj] at h
    exact ⟨gap, hg, before, after, hb, (List.forall_mem_append.mp ha).left, by simp [h.left]⟩
  | nil =>
    -- The blank can only belong to the gap, so no slash comes behind this.
    obtain ⟨name, names, rfl⟩ := List.exists_cons_of_ne_nil hp.left
    obtain ⟨hn, hns⟩ := List.forall_mem_cons.mp hp.right
    simp only [spaced, List.append_nil, ← List.append_assoc] at h
    cases names with
    | cons n ns => exact absurd (by decide) (solid_marked hns _ (mem_of_append_eq (by simp) h.symm))
    | nil =>
      rw [List.flatMap_nil, List.append_nil] at h
      cases gap using List.reverseRecOn with
      | nil =>
        rw [List.append_nil] at h
        have hm : ' ' ∈ name.toList := mem_of_append_eq (mt String.toList_eq_nil_iff.mp hn.left) h.symm
        exact absurd (hn.right _ hm) (by decide)
      | append_singleton gap c =>
        rw [← List.append_assoc, List.append_singleton_inj] at h
        have hg : IsBlank gap := (List.forall_mem_append.mp hg).left
        exact ⟨gap, hg, before, [], hb, List.forall_mem_nil _, by simp [spaced, h.left]⟩

end PropertyPath

namespace Filter

variable {cursor next : Cursor} {op : Comparison} {right o : Operand}

theorem noneAfterBlank_of_scanOperand (hq : '\x27' ∉ cursor.rest) (hp : '(' ∉ cursor.rest)
    (h : (scanOperand binding).Yields cursor o next) :
    ∃ cs, NoneAfterBlank isIdentifierChar cs ∧ cursor.rest.dropWhile Text.isBlank = cs ++ next.rest := by
  obtain ⟨depth, hd⟩ := depth_of_scanOperand h
  rcases Operand.cases_of_scan hq hp hd with ⟨_, cs, -, hc, hr⟩ | ⟨path, gap, rfl, hg, hr⟩
  case inl =>
    have hn : NoneAfterBlank isIdentifierChar (cs ++ []) := .solid_append hc .nil
    exact ⟨cs, List.append_nil cs ▸ hn, hr⟩
  case inr => exact ⟨_, PropertyPath.noneAfterBlank_spaced hg (Operand.wellFormed_of_yields hd).left.left, hr⟩

theorem path_of_scanOperand (hq : '\x27' ∉ cursor.rest) (hp : '(' ∉ cursor.rest)
    (h : (scanOperand binding).Yields cursor (.path path) next) :
    ∃ gap, IsBlank gap ∧ cursor.rest.dropWhile Text.isBlank = path.spaced gap ++ next.rest := by
  obtain ⟨depth, h⟩ := depth_of_scanOperand h
  rcases Operand.cases_of_scan hq hp h with ⟨_, _, he, -⟩ | ⟨_, gap, he, hg, hr⟩
  case inl => cases he
  case inr =>
    cases he
    exact ⟨gap, hg, hr⟩

-- The path, the word for the comparison and what the path is compared with stand one after the other.
theorem rest_of_scanComparison (hq : '\x27' ∉ cursor.rest) (hp : '(' ∉ cursor.rest)
    (h : (scanComparison binding).Yields cursor (.compare op (.path path) right) next) :
    ∃ gap after gap' cs, IsBlank gap ∧ IsBlank after ∧ IsBlank gap' ∧ NoneAfterBlank isIdentifierChar cs ∧
      cursor.rest.dropWhile Text.isBlank =
        path.spaced gap ++ (after ++ (op.name.toList ++ (gap' ++ (cs ++ next.rest)))) := by
  obtain ⟨c₁, c₂, c₃, hl, ho, hb, hr⟩ := operands_of_scanComparison h
  obtain ⟨gap, hg, hr₀⟩ := path_of_scanOperand hq hp hl
  obtain ⟨after, ha, hr₁⟩ := exists_blank c₁.rest
  obtain ⟨gap', hg', hr₂⟩ := exists_blank c₂.rest
  rw [hr₁, ho, hr₂, hb] at hr₀
  have hm : ∀ c ∈ c₃.rest, c ∈ cursor.rest := by
    intro c hc
    refine (List.dropWhile_suffix Text.isBlank).subset ?_
    simp [hr₀, hc]
  obtain ⟨cs, hc, hr₃⟩ := noneAfterBlank_of_scanOperand (fun h => hq (hm _ h)) (fun h => hp (hm _ h)) hr
  rw [← hb, List.dropWhile_idempotent, hb] at hr₃
  exact ⟨gap, after, gap', cs, hg, ha, hg', hc, hr₃ ▸ hr₀⟩

end Filter

namespace PropertyPath

theorem standsIn_of_compares (hq : '\x27' ∉ s.toList) (hp : '(' ∉ s.toList) (h : Compares none s path) :
    path.WellFormed ∧ ∃ gap, IsBlank gap ∧ path.StandsIn gap s.toList := by
  obtain ⟨op, right, h⟩ := h
  have hw : (Filter.compare op (.path path) right).WellFormed :=
    (Clause.wellFormed_of_parse h).right _ List.mem_cons_self
  have hw : path.WellFormed := hw.left.left
  have hs : ("filter(" ++ s ++ " eq 1)").toList =
      "filter".toList ++ '(' :: (s.toList ++ " eq 1".toList ++ [')']) := by simp
  obtain ⟨start, item, c₁, c₂, rest, hr, hb, hc, hrest⟩ := Clause.body_of_parse (by decide) (by decide) hs h
  obtain ⟨condition, c₃, hf, he⟩ := yields_bind.mp hb
  obtain ⟨he, rfl⟩ := yields_pure.mp he
  cases he
  have hp₁ : '(' ∉ c₁.rest := by simp [hr, hp]
  have hq₁ : '\x27' ∉ c₁.rest := by simp [hr, hq]
  obtain ⟨c₃, c₄, hm, hcmp, hn⟩ := Filter.comparison_of_scan hp₁ hf
  have hsub : ∀ c ∈ c₃.rest, c ∈ c₁.rest := fun c hc => (List.dropWhile_suffix _).subset (hm ▸ hc)
  obtain ⟨gap, after, gap', cs, hg, ha, hg', hcs, ht⟩ :=
    Filter.rest_of_scanComparison (fun h => hq₁ (hsub _ h)) (fun h => hp₁ (hsub _ h)) hcmp
  obtain ⟨before, hbf, hbr⟩ := exists_blank c₁.rest
  rw [hm, List.dropWhile_idempotent] at ht
  rw [ht, hr] at hbr
  simp only [← List.append_assoc] at hbr
  obtain ⟨gap'', hg'', he⟩ := exists_blank_of_closing hbr.symm (hn ▸ hc) hrest
  have ht : s.toList ++ " eq 1".toList = s.toList ++ [' ', 'e', 'q', ' '] ++ ['1'] := by simp
  obtain rfl : gap'' = [] := eq_nil_of_append_blank hg'' (by decide) (he.symm.trans ht)
  have hf : before ++ path.spaced gap ++ after = s.toList ++ [' '] := by
    rw [List.append_nil] at he
    have he : before ++ path.spaced gap ++ after ++ (op.name.toList ++ (gap' ++ cs)) = s.toList ++ " eq 1".toList := by
      rw [he]
      simp only [List.append_assoc]
    exact Comparison.front_of_comparison hg' hcs he
  exact ⟨hw, standsIn_of_concat hw hg ⟨before, after, hbf, ha, by rw [← hf, List.append_assoc]⟩⟩

theorem compares_of_standsIn (ho : (Operand.path path).WellFormed) (hn : path.head? ≠ some "not")
    (hc : Binding.Accepts binding path) (hg : IsBlank gap) (h : path.StandsIn gap s.toList) :
    Compares binding s path := by
  obtain ⟨before, after, hb, ha, hs⟩ := h
  have ht : ("filter(" ++ s ++ " eq 1)").toList =
      "filter".toList ++ '(' :: (before ++ (path.spaced gap ++ (after ++ " eq 1)".toList))) := by simp [hs]
  have hi : (after ++ " eq 1)".toList).head?.any isIdentifierChar = false := head?_blank_append ha fun _ => rfl
  have hr : Spells (path.spacedTokens ++ Comparison.eq.name :: (Operand.literal (.int 1)).tokens ++ [")"])
      (before ++ (path.spaced gap ++ (after ++ " eq 1)".toList))) := by
    have hl : (Operand.literal (.int 1)).tokens = ["1"] := by decide
    rw [hl, List.append_assoc]
    exact spells_spaced ho.left hb hg hi (spells_eq_one ha)
  have hv : (Operand.literal (.int 1)).WellFormed := ⟨by decide, by decide⟩
  have hf : ∀ depth, (Transformation.scan (depth + 1) none).Reads
      (Spells ("filter" :: "(" ::
        (path.spacedTokens ++ Comparison.eq.name :: (Operand.literal (.int 1)).tokens ++ [")"])))
      (Transformation.unbound (.filter (.compare .eq (.path path) (.literal (.int 1))))) (Spells []) :=
    fun depth => Transformation.reads_filter (Filter.reads_spaced ho hn hv (List.forall_mem_singleton.mpr nofun))
  refine ⟨.eq, .literal (.int 1), (Clause.parse_iff_accepts rfl).mpr ⟨Clause.parse_of_reads ((hf _).mono ?_ ?_), ?_⟩⟩
  case refine_1 =>
    rintro _ rfl
    rw [ht]
    exact spells_bracketed (by decide) hr
  case refine_2 =>
    intro cs hc
    cases hc with
    | nil hb => exact hb
  case refine_3 => exact List.forall_mem_singleton.mpr hc

theorem selects_of_standsIn (hp : path.WellFormed) (hc : Binding.Accepts binding path)
    (h : path.StandsIn [] s.toList) : Selects binding s path := by
  obtain ⟨before, after, hb, ha, hs⟩ := h
  have hw : ∀ t ∈ Clause.walk [.select [path]], t.Written :=
    List.forall_mem_singleton.mpr ⟨⟨List.cons_ne_nil _ _, List.forall_mem_singleton.mpr hp⟩, nofun⟩
  have ht : ("select(" ++ s ++ ")").toList =
      "select".toList ++ '(' :: (before ++ (path.text.toList ++ (after ++ [')']))) := by simp [hs, spaced_nil hp.left]
  have hm : Spells [")"] (after ++ [')']) :=
    .cons ha (isToken_mark (by decide)) (fun h => absurd h (by decide)) (.nil nofun)
  have hp : Spells [path.text, ")"] (before ++ (path.text.toList ++ (after ++ [')']))) :=
    .cons hb (isToken_text hp) (fun _ => head?_blank_append ha fun _ => rfl) hm
  refine (Clause.parse_iff_accepts rfl).mpr ⟨Clause.parse_of_spells (List.cons_ne_nil _ _) hw ?_, ?_⟩
  case refine_1 => exact ht ▸ spells_bracketed (by decide) hp
  case refine_2 => exact List.forall_mem_singleton.mpr hc

theorem selects_iff :
    Selects binding s path ↔ path.WellFormed ∧ Binding.Accepts binding path ∧ path.StandsIn [] s.toList := by
  constructor
  case mp =>
    intro h
    obtain ⟨h, hc⟩ := (Clause.parse_iff_accepts rfl).mp h
    obtain ⟨hp, hs⟩ := standsIn_of_selects h
    exact ⟨hp, List.forall_mem_singleton.mp hc, hs⟩
  case mpr =>
    rintro ⟨hp, hc, hs⟩
    exact selects_of_standsIn hp hc hs

theorem IsPathText.not_mem {c : Char} (h : IsPathText s) (hi : ¬isIdentifierChar c) (hs : c ≠ '/')
    (hb : ¬Text.isBlank c) : c ∉ s.toList := by
  intro hm
  rcases h.chars c hm with h | h | h
  case inl => exact hi h
  case inr.inl => exact hs h
  case inr.inr => exact hb h

theorem firstIdentifier_of_standsIn {name : String} {names : List String} (hn : IsIdentifier name) (hg : IsBlank gap)
    (h : StandsIn (name :: names) gap s.toList) : firstIdentifier s = name := by
  obtain ⟨before, after, hb, ha, hs⟩ := h
  have hi : (gap ++ (names.flatMap ('/' :: ·.toList) ++ after)).head?.any isIdentifierChar = false := by
    refine head?_blank_append hg fun _ => ?_
    cases names with
    | nil =>
      have he : (after ++ []).head?.any isIdentifierChar = false := head?_blank_append ha fun _ => rfl
      rwa [List.append_nil] at he
    | cons => rfl
  have hd : s.toList.dropWhile (!isIdentifierChar ·) =
      name.toList ++ (gap ++ (names.flatMap ('/' :: ·.toList) ++ after)) := by
    obtain ⟨c, cs, hc⟩ := List.exists_cons_of_ne_nil (mt String.toList_eq_nil_iff.mp hn.left)
    have hw : isIdentifierChar c := hn.right c (hc ▸ List.mem_cons_self)
    have hbi : ∀ c ∈ before, (!isIdentifierChar c) = true := by
      intro c hm
      rw [Bool.not_eq_true', ← Bool.not_eq_true]
      exact fun hi => not_isBlank_of_isIdentifierChar hi (hb c hm)
    rw [hs, List.dropWhile_append_of_pos hbi, spaced, List.append_assoc, List.append_assoc, hc]
    simp [hw]
  rw [firstIdentifier, hd, List.takeWhile_append_of_pos hn.right, takeWhile_eq_nil_of_head? hi, List.append_nil,
    String.ofList_toList]

theorem compares_iff (h : IsPathText s) : Compares binding s path ↔
    path.WellFormed ∧ Binding.Accepts binding path ∧ ∃ gap, IsBlank gap ∧ path.StandsIn gap s.toList := by
  constructor
  case mp =>
    rintro ⟨op, right, hc⟩
    obtain ⟨hc, ha⟩ := (Clause.parse_iff_accepts rfl).mp hc
    have hq : '\x27' ∉ s.toList := h.not_mem (by decide) (by decide) (by decide)
    have hp : '(' ∉ s.toList := h.not_mem (by decide) (by decide) (by decide)
    obtain ⟨hp, hs⟩ := standsIn_of_compares hq hp ⟨op, right, hc⟩
    exact ⟨hp, ha path List.mem_cons_self, hs⟩
  case mpr =>
    rintro ⟨hp, hc, gap, hg, hs⟩
    obtain ⟨name, names, rfl⟩ := List.exists_cons_of_ne_nil hp.left
    have hf : firstIdentifier s = name := firstIdentifier_of_standsIn (hp.right name List.mem_cons_self) hg hs
    have hw := h.word
    have hd := h.digit
    rw [hf] at hw hd
    simp only [List.mem_cons, List.not_mem_nil, or_false, not_or] at hw
    refine compares_of_standsIn ⟨hp, ?_⟩ (fun he => hw.left (Option.some.inj he)) hc hg hs
    rintro _ ⟨⟩
    exact ⟨by simpa using hw.right, hd⟩

-- A gap that is not empty ends in front of a slash.
theorem standsIn_nil (h : path.StandsIn gap s.toList) (hg : IsBlank gap) (hb : ¬BlankBeforeSlash s) :
    path.StandsIn [] s.toList := by
  obtain ⟨before, after, hbf, ha, hs⟩ := h
  cases path with
  | nil => exact ⟨before, after, hbf, ha, hs⟩
  | cons name names =>
    cases names with
    | nil => exact ⟨before, gap ++ after, hbf, List.forall_mem_append.mpr ⟨hg, ha⟩, by simpa [spaced] using hs⟩
    | cons n ns =>
      cases gap using List.reverseRecOn with
      | nil => exact ⟨before, after, hbf, ha, hs⟩
      | append_singleton gap c =>
        have hi : [c, '/'] <:+: s.toList :=
          ⟨before ++ name.toList ++ gap, n.toList ++ ns.flatMap ('/' :: ·.toList) ++ after, by simp [hs, spaced]⟩
        exact absurd ⟨c, hg c (by simp), hi⟩ hb

theorem not_blankBeforeSlash (hp : path.WellFormed) (h : path.StandsIn [] s.toList) : ¬BlankBeforeSlash s := by
  obtain ⟨before, after, hb, ha, hs⟩ := h
  obtain ⟨name, names, rfl⟩ := List.exists_cons_of_ne_nil hp.left
  obtain ⟨hn, hns⟩ := List.forall_mem_cons.mp hp.right
  have hbs : ∀ c, Text.isBlank c → ¬(c == '/') := by
    intro c hb he
    rw [beq_iff_eq.mp he] at hb
    exact absurd hb (by decide)
  have hna : ∀ c ∈ name.toList, ¬Text.isBlank c := fun c hc => not_isBlank_of_isIdentifierChar (hn.right c hc)
  have hend : NoneAfterBlank (· == '/') (after ++ []) := .blank_append hbs ha nofun .nil
  have hmid : NoneAfterBlank (· == '/') (name.toList ++ (names.flatMap ('/' :: ·.toList) ++ (after ++ []))) :=
    .solid_append hna (.solid_append (solid_marked hns) hend)
  have hs : s.toList = before ++ (name.toList ++ (names.flatMap ('/' :: ·.toList) ++ (after ++ []))) := by
    simpa [spaced] using hs
  have hall : NoneAfterBlank (· == '/') s.toList := by
    rw [hs]
    refine .blank_append hbs hb (fun c hc he => ?_) hmid
    obtain ⟨d, cs, hd⟩ := List.exists_cons_of_ne_nil (mt String.toList_eq_nil_iff.mp hn.left)
    have hi : isIdentifierChar d := hn.right d (hd ▸ List.mem_cons_self)
    rw [hd] at hc
    cases hc
    rw [beq_iff_eq.mp he] at hi
    exact absurd hi (by decide)
  rintro ⟨c, hc, front, back, hi⟩
  rw [← hi] at hall
  exact List.isChain_pair.mp hall.left_of_append.right_of_append hc rfl

-- The paths that are selected are those that are compared, but for texts with a blank in front of a slash.
theorem selects_iff_compares (binding : Option Binding) (s : String) (hs : IsPathText s) (path : PropertyPath) :
    Selects binding s path ↔ Compares binding s path ∧ ¬BlankBeforeSlash s := by
  rw [selects_iff, compares_iff hs]
  constructor
  case mp =>
    rintro ⟨hp, hc, h⟩
    exact ⟨⟨hp, hc, [], nofun, h⟩, not_blankBeforeSlash hp h⟩
  case mpr =>
    rintro ⟨⟨hp, hc, gap, hg, h⟩, hb⟩
    exact ⟨hp, hc, standsIn_nil h hg hb⟩

theorem selects_iff_compares_surrounded : IsPathText " A/B " ∧ Selects none " A/B " ["A", "B"] ∧
    Compares none " A/B " ["A", "B"] ∧ ¬BlankBeforeSlash " A/B " := by
  have hs : IsPathText " A/B " := ⟨by decide, by decide, by decide⟩
  have hw : WellFormed ["A", "B"] := ⟨List.cons_ne_nil _ _, by decide⟩
  have hb : IsBlank [' '] := List.forall_mem_singleton.mpr (by decide)
  have h : Selects none " A/B " ["A", "B"] := selects_iff.mpr ⟨hw, nofun, [' '], [' '], hb, hb, by decide⟩
  exact ⟨hs, h, (selects_iff_compares none _ hs _).mp h⟩

-- A blank before the slash makes the difference.
theorem not_selects_iff_compares : IsPathText "A /B" ∧
    ¬(Selects none "A /B" ["A", "B"] ↔ Compares none "A /B" ["A", "B"]) := by
  have hs : IsPathText "A /B" := ⟨by decide, by decide, by decide⟩
  have hw : WellFormed ["A", "B"] := ⟨List.cons_ne_nil _ _, by decide⟩
  have hg : IsBlank [' '] := List.forall_mem_singleton.mpr (by decide)
  have hc : Compares none "A /B" ["A", "B"] :=
    (compares_iff hs).mpr ⟨hw, nofun, [' '], hg, [], [], nofun, nofun, by decide⟩
  refine ⟨hs, fun h => ?_⟩
  obtain ⟨-, -, ht⟩ := selects_iff.mp (h.mpr hc)
  exact not_blankBeforeSlash hw ht ⟨' ', by decide, ['A'], ['B'], by decide⟩

end PropertyPath
end RowPipeline
