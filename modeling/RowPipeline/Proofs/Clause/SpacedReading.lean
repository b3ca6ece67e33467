import RowPipeline.Proofs.Clause.RoundTrip
import RowPipeline.Proofs.Clause.Stretches

namespace RowPipeline

open Scan Token

variable {path : PropertyPath} {gap before after text : List Char} {ts : List String}

namespace Token

theorem Spells.blank_append (hg : IsBlank gap) (h : Spells ts text) : Spells ts (gap ++ text) := by
  cases h with
  | nil hb => exact .nil (List.forall_mem_append.mpr ⟨hg, hb⟩)
  | @cons gap' t ts text hb ht ha hs =>
    rw [← List.append_assoc]
    exact .cons (List.forall_mem_append.mpr ⟨hg, hb⟩) ht ha hs

theorem Spells.next {t : String} (ht : IsToken t) (ha : Apart t text) (h : Spells ts text) :
    Spells (t :: ts) (t.toList ++ text) :=
  List.nil_append (t.toList ++ text) ▸ .cons nofun ht ha h

theorem spells_bracketed {kind : String} (hk : IsIdentifier kind) (h : Spells ts text) :
    Spells (kind :: "(" :: ts) (kind.toList ++ '(' :: text) :=
  .next (isToken_of_isIdentifier hk) (fun _ => rfl) (.next (isToken_mark (by decide)) (fun h => absurd h (by decide)) h)

theorem spells_eq_one (ha : IsBlank after) : Spells ["eq", "1", ")"] (after ++ " eq 1)".toList) := by
  have hb : IsBlank [' '] := List.forall_mem_singleton.mpr (by decide)
  have ht : after ++ " eq 1)".toList =
      (after ++ [' ']) ++ ("eq".toList ++ ([' '] ++ ("1".toList ++ ")".toList ++ []))) := by simp
  rw [ht]
  refine .cons (List.forall_mem_append.mpr ⟨ha, hb⟩) (isToken_of_isIdentifier (by decide)) (fun _ => rfl) ?_
  refine .cons hb (isToken_of_isIdentifier (by decide)) (fun _ => rfl) ?_
  exact .next (isToken_mark (by decide)) (fun _ => rfl) (.nil nofun)

end Token

namespace PropertyPath

-- A slash that may follow blanks starts a token of its own.
def spacedTokens : PropertyPath → List String
  | [] => []
  | [name] => [name]
  | name :: names => [name, String.ofList (names.flatMap ('/' :: ·.toList))]

theorem spells_spaced {rest : List Char} (hp : path.WellFormed) (hb : IsBlank before) (hg : IsBlank gap)
    (hi : rest.head?.any isIdentifierChar = false) (ht : Spells ts rest) :
    Spells (path.spacedTokens ++ ts) (before ++ (path.spaced gap ++ rest)) := by
  obtain ⟨name, names, rfl⟩ := List.exists_cons_of_ne_nil hp.left
  have hn : IsToken name := isToken_of_isIdentifier (hp.right name List.mem_cons_self)
  simp only [spaced, List.append_assoc]
  cases names with
  | nil => exact .cons hb hn (fun _ => head?_blank_append hg fun _ => hi) (ht.blank_append hg)
  | cons n ns =>
    have hm : IsToken (String.ofList ((n :: ns).flatMap ('/' :: ·.toList))) := ⟨'/', by simp, by decide⟩
    have ht : Spells (_ :: ts) (gap ++ (_ ++ rest)) := .cons hg hm (fun _ => hi) ht
    rw [String.toList_ofList] at ht
    exact .cons hb hn (fun _ => head?_blank_append hg fun _ => rfl) ht

end PropertyPath

namespace Operand

theorem reads_spaced {operand : Scan Operand} (hp : path.WellFormed) (hf : Follows ends ts) :
    (scanNamed none operand).Reads (Starts (path.spacedTokens ++ ts)) (.path path) (Spells ts) := by
  obtain ⟨name, names, rfl⟩ := List.exists_cons_of_ne_nil hp.left
  cases names with
  | nil => exact reads_path hp hf
  | cons n ns =>
    obtain ⟨hn, hns⟩ := List.forall_mem_cons.mp hp.right
    have hs : leadChar ts ≠ some '/' := hf.leadChar_ne (by decide)
    refine .position_bind fun start => (reads_identifier hn).bind (reads_skipBlank.bind ?_)
    refine (Reads.peek fun _ h => h.head?).bind (.ite_neg (by simp [leadChar]) ?_)
    refine Reads.bind (reads_of_over fun rest ha hr => ?_) (.bind .pure .pure)
    have hl : (String.ofList ((n :: ns).flatMap ('/' :: ·.toList))).toList.getLast?.any isIdentifierChar := by
      have hl : (n.toList ++ ns.flatMap ('/' :: ·.toList)).getLast?.any isIdentifierChar := getLast?_joined hns
      rw [String.toList_ofList, List.flatMap_cons, List.cons_append, List.getLast?_cons]
      cases h : (n.toList ++ ns.flatMap ('/' :: ·.toList)).getLast? <;> simp_all
    rw [String.toList_ofList]
    exact Reads.markedNames (by decide) hns (ha hl) (ne_mark_of_spells hr (by decide) hs)

theorem leadChar_spacedTokens {name : String} {names : List String} :
    leadChar (PropertyPath.spacedTokens (name :: names) ++ ts) = name.toList.head? := by
  cases names <;> rfl

theorem leadWord_spacedTokens {name : String} {names : List String} (hn : IsIdentifier name) :
    leadWord (PropertyPath.spacedTokens (name :: names) ++ ts) = name.toList := by
  cases names <;> exact leadWord_of_isIdentifier hn

end Operand

namespace Filter

theorem reads_spaced_scanOperand (ho : (Operand.path path).WellFormed) (hf : Follows Operand.ends ts) :
    (scanOperand none).Reads (Spells (path.spacedTokens ++ ts)) (.path path) (Spells ts) := by
  obtain ⟨hp, hs⟩ := ho
  refine .get_bind fun cursor h => ?_
  have hr : (Operand.scan none (cursor.rest.length + 1)).Reads (Spells (path.spacedTokens ++ ts)) (.path path)
      (Spells ts) := by
    obtain ⟨name, names, rfl⟩ := List.exists_cons_of_ne_nil hp.left
    obtain ⟨hn, -⟩ := List.forall_mem_cons.mp hp.right
    obtain ⟨hw, hd⟩ := hs name rfl
    refine Operand.reads_of_name ?_ ?_ (Operand.reads_spaced hp hf)
    case refine_1 =>
      rw [Operand.leadChar_spacedTokens]
      exact fun c hc => ⟨hn.right c (List.mem_of_head? hc), hd c hc⟩
    case refine_2 =>
      rw [Operand.leadWord_spacedTokens hn]
      simpa [← String.toList_inj] using hw
  exact hr.mono (by rintro _ rfl; exact h) fun _ => id

-- A condition that combines no others is the only item of its disjunction and of its conjunction.
theorem reads_alone {unary : Scan Filter} {f : Filter} {tokens : List String}
    (hu : ∀ us, Follows ends us → unary.Reads (Spells (tokens ++ us)) f (Spells us)) :
    (disjunction unary).Reads (Spells (tokens ++ ")" :: ts)) f (Starts (")" :: ts)) := by
  have hs : ∀ word us, separated word ([f].map fun _ => tokens) ++ us = tokens ++ us := by simp [separated]
  have ha : ∀ us, Follows ["or", ")"] us → (chain "and" .and unary).Reads (Spells (tokens ++ us)) f (Starts us) := by
    intro us hf
    rw [← hs "and"]
    exact reads_chain (by decide) hf (by decide) (List.forall_mem_singleton.mpr hu)
  rw [← hs "or"]
  refine reads_chain (by decide) (.cons (List.mem_singleton_self _)) (by decide) (List.forall_mem_singleton.mpr ?_)
  exact fun us hf => (ha us hf).mono (fun _ => id) fun _ => And.left

-- A comparison is read also if blanks stand before the first slash of the path on its left side.
theorem reads_spaced {op : Comparison} {right : Operand} (hl : (Operand.path path).WellFormed)
    (hn : path.head? ≠ some "not") (hr : right.WellFormed) (hx : ∀ v ∈ right.literals, ¬v.IsFloat) :
    (Filter.scan none).Reads (Spells (path.spacedTokens ++ op.name :: right.tokens ++ ")" :: ts))
      (.compare op (.path path) right) (Starts (")" :: ts)) := by
  refine .get_bind fun cursor h => ?_
  have hu : ∀ us, Follows ends us → (scanUnary none (cursor.rest.length + 1)).Reads
      (Spells (path.spacedTokens ++ op.name :: right.tokens ++ us)) (.compare op (.path path) right) (Spells us) := by
    intro us hf
    refine reads_unary_of_lead ?_ ?_
    case refine_2 =>
      exact reads_compare_of (fun _ => reads_spaced_scanOperand hl) (fun _ => reads_scanOperand hr hx) hf
    rw [List.append_assoc]
    obtain ⟨name, names, rfl⟩ := List.exists_cons_of_ne_nil hl.left.left
    have hi : IsIdentifier name := hl.left.right name List.mem_cons_self
    rw [Operand.leadWord_spacedTokens hi, Operand.leadChar_spacedTokens]
    refine ⟨fun h => hn (congrArg some (String.toList_inj.mp h)), fun h => ?_⟩
    exact absurd (hi.right _ (List.mem_of_head? h)) (by decide)
  refine (reads_alone hu).mono ?_ fun _ => id
  rintro _ rfl
  exact h

end Filter

theorem Transformation.reads_filter {f : Filter} {tokens : List String} {depth : Nat}
    (h : (Filter.scan none).Reads (Spells (tokens ++ ")" :: ts)) f (Starts (")" :: ts))) :
    (Transformation.scan (depth + 1) none).Reads (Spells ("filter" :: "(" :: (tokens ++ ")" :: ts)))
      (unbound (.filter f)) (Spells ts) := by
  refine reads_skipBlank.bind (.position_bind fun start => ?_)
  refine (reads_identifier (by decide)).bind (.ite_neg (by decide) (reads_skipBlank.bind ((reads_expect rfl).bind ?_)))
  have hb : (scanBody start "filter" (scan depth) none).Reads (Spells (tokens ++ ")" :: ts)) (unbound (.filter f))
      (Spells (")" :: ts)) := h.bind (.mono .pure (fun _ => And.left) fun _ => id)
  exact hb.bind (reads_closing.bind .pure)

end RowPipeline
