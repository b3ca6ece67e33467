import RowPipeline.Proofs.Clause.Reading

namespace RowPipeline

open Scan Token

namespace Scan.Reads

variable {mark : Char} {name : String} {names : List String} {rest : List Char}

-- An identifier ends before a mark that follows it.
theorem head?_marked (hm : isIdentifierChar mark = false) (hi : rest.head?.any isIdentifierChar = false) :
    (names.flatMap (mark :: ·.toList) ++ rest).head?.any isIdentifierChar = false := by
  cases names with
  | nil => exact hi
  | cons => simpa using hm

-- Names that follow a mark each.
theorem markedNames (hm : isIdentifierChar mark = false) (hn : ∀ name ∈ names, IsIdentifier name)
    (hi : rest.head?.any isIdentifierChar = false) (hr : rest.head? ≠ some mark) :
    Reads (Scan.many (Scan.char? mark) Scan.identifier)
      (· = names.flatMap (mark :: ·.toList) ++ rest) names (· = rest) := by
  refine many fun cs h => ?_
  have hl : names.length ≤ cs.length := by
    clear hn
    subst h
    induction names with
    | nil => simp
    | cons name names ih => simp at ih ⊢; omega
  clear h
  induction names generalizing cs
  case nil =>
    have he : Reads (Scan.char? mark) (· = rest) false (· = rest) := .char?_false (by rintro _ rfl; exact hr)
    cases cs with
    | nil => exact .pure
    | cons => exact .manyAfter_nil he
  case cons name names ih =>
    cases cs with
    | nil => simp at hl
    | cons c cs =>
      obtain ⟨hn, hns⟩ := List.forall_mem_cons.mp hn
      simp only [List.flatMap_cons, List.cons_append, List.append_assoc]
      exact manyAfter_cons .char? (.identifier hn (head?_marked hm hi)) (ih hns cs (by simpa using hl))

theorem toList_intercalate_cons {s : String} (hs : s.toList = [mark]) :
    (s.intercalate (name :: names)).toList = name.toList ++ names.flatMap (mark :: ·.toList) := by
  rw [String.toList_intercalate, hs, List.map_cons]
  induction names generalizing name with
  | nil => simp
  | cons n names ih => simp [ih]

theorem joinedNames {s : String} (hs : s.toList = [mark]) (hm : isIdentifierChar mark = false)
    (hn : ∀ n ∈ name :: names, IsIdentifier n) (hi : rest.head?.any isIdentifierChar = false)
    (hr : rest.head? ≠ some mark) :
    Reads (joinedBy mark Scan.identifier) (· = (s.intercalate (name :: names)).toList ++ rest) (name :: names)
      (· = rest) := by
  obtain ⟨hn, hns⟩ := List.forall_mem_cons.mp hn
  rw [toList_intercalate_cons hs]
  simp only [List.append_assoc]
  exact (Reads.identifier hn (head?_marked hm hi)).bind ((markedNames hm hns hi hr).bind .pure)

section Digits

variable {n : Nat} {k : Int}

theorem digits (hr : rest.head?.any Char.isDigit = false) :
    Reads (Scan.takeWhile Char.isDigit) (· = Decimal.digits n ++ rest) (Decimal.digits n) (· = rest) :=
  .takeWhile (fun _ => Decimal.isDigit_of_mem_digits) hr

theorem minus : Reads (Scan.char? '-') (· = intChars k ++ rest) (decide (k < 0))
    (· = Decimal.digits k.natAbs ++ rest) := by
  unfold intChars
  split
  case isTrue h =>
    rw [decide_eq_true h]
    exact .char?
  case isFalse h =>
    rw [decide_eq_false h]
    refine .char?_false ?_
    rintro _ rfl hm
    have hd : (Decimal.digits k.natAbs).head? = some '-' := by
      rwa [List.head?_append_of_ne_nil _ Decimal.digits_ne_nil] at hm
    exact absurd (Decimal.isDigit_of_mem_digits (List.mem_of_head? hd)) (by decide)

theorem signed_digits : signed (decide (k < 0)) (Decimal.digits k.natAbs) = k := by
  simp only [signed, Decimal.ofDigits_digits, decide_eq_true_eq]
  split <;> omega

theorem integer (hk : -9223372036854775808 ≤ k ∧ k < 9223372036854775808)
    (hr : rest.head?.any Char.isDigit = false) :
    Reads Scan.integer (· = intChars k ++ rest) k (· = rest) := by
  refine .position_bind fun start => minus.bind ((digits hr).bind ?_)
  refine .ite_neg (by simp [Decimal.digits_ne_nil]) ?_
  change Reads (if -9223372036854775808 ≤ signed _ _ ∧ signed _ _ < 9223372036854775808 then
    Pure.pure (signed _ _) else _) _ _ _
  rw [signed_digits]
  exact .ite_pos hk .pure

theorem numberLiteral (hk : -9223372036854775808 ≤ k ∧ k < 9223372036854775808)
    (hr : rest.head?.any Char.isDigit = false) (hp : rest.head? ≠ some '.') :
    Reads Scan.numberLiteral (· = intChars k ++ rest) (.int k) (· = rest) := by
  refine .position_bind fun start => minus.bind ((digits hr).bind ?_)
  refine (char?_false (by rintro _ rfl; exact hp)).bind (.ite_neg nofun ?_)
  refine .ite_neg (by simp [Decimal.digits_ne_nil]) ?_
  change Reads (if -9223372036854775808 ≤ signed _ _ ∧ signed _ _ < 9223372036854775808 then
    Pure.pure (Value.int (signed _ _)) else _) _ _ _
  rw [signed_digits]
  exact .ite_pos hk .pure

end Digits

theorem quotedBody?_append {s : List Char} (hr : rest.head? ≠ some '\x27') :
    quotedBody? (s.flatMap doubled ++ '\x27' :: rest) = some (s, (s.flatMap doubled ++ ['\x27']).length) := by
  induction s with
  | nil => cases rest <;> simp_all [quotedBody?]
  | cons c s ih =>
    by_cases hc : c = '\x27'
    case pos => simp [doubled, hc, quotedBody?, ih]
    case neg => simp [doubled, hc, quotedBody?, ih]

theorem advance {cs : List Char} :
    Reads (modify (·.advance cs.length)) (· = cs ++ rest) PUnit.unit (· = rest) :=
  fun _ h => ⟨_, yields_modify.mpr rfl, rest_advance cs h⟩

theorem quotedString {s : String} (hr : rest.head? ≠ some '\x27') :
    Reads Scan.quotedString (· = (quoted s).toList ++ rest) s (· = rest) := by
  have hq : (quoted s).toList ++ rest = '\x27' :: (s.toList.flatMap doubled ++ '\x27' :: rest) := by
    simp [quoted]
  rw [hq]
  refine .position_bind fun start => expect.bind (.get_bind fun cursor h => ?_)
  rw [h, quotedBody?_append hr]
  change Reads (modify (·.advance (s.toList.flatMap doubled ++ ['\x27']).length) >>=
    fun _ => Pure.pure (String.ofList s.toList)) _ _ _
  rw [String.ofList_toList]
  refine mono (bind advance pure) ?_ fun _ => id
  rintro _ rfl
  simp

end Scan.Reads

namespace Token

variable {t s : String} {ts names : List String} {rest : List Char} {mark : Char}

theorem ne_mark_of_spells (h : Spells ts rest) (hb : ¬Text.isBlank mark) (hl : leadChar ts ≠ some mark) :
    rest.head? ≠ some mark :=
  fun hr => hl (h.leadChar_eq hr hb)

theorem getLast?_joined {name : String} (hn : ∀ n ∈ name :: names, IsIdentifier n) :
    (name.toList ++ names.flatMap (mark :: ·.toList)).getLast?.any isIdentifierChar := by
  induction names generalizing name with
  | nil =>
    have hn := hn name List.mem_cons_self
    have hne : name.toList ≠ [] := by simpa using hn.left
    simp [List.getLast?_eq_some_getLast hne, hn.right _ (List.getLast_mem hne)]
  | cons n ns ih =>
    have h := ih (List.forall_mem_cons.mp hn).right
    rw [List.flatMap_cons, List.cons_append, List.append_cons, List.getLast?_append]
    cases hl : (n.toList ++ ns.flatMap (mark :: ·.toList)).getLast? <;> simp_all

theorem reads_joined (hs : s.toList = [mark]) (hne : names ≠ []) (hn : ∀ n ∈ names, IsIdentifier n)
    (hm : isIdentifierChar mark = false) (hb : ¬Text.isBlank mark) (hl : leadChar ts ≠ some mark) :
    (joinedBy mark identifier).Reads (Starts (s.intercalate names :: ts)) names (Spells ts) := by
  obtain ⟨name, names, rfl⟩ := List.exists_cons_of_ne_nil hne
  refine reads_of_over fun rest ha hr => .joinedNames hs hm hn (ha ?_) (ne_mark_of_spells hr hb hl)
  rw [Reads.toList_intercalate_cons hs]
  exact getLast?_joined hn

theorem reads_qualifiedName (h : IsQualifiedName s) (hl : leadChar ts ≠ some '.') :
    qualifiedName.Reads (Starts (s :: ts)) s (Spells ts) := by
  obtain ⟨names, hne, hn, rfl⟩ := h
  exact (reads_joined rfl hne hn (by decide) (by decide) hl).bind .pure

theorem isIdentifierChar_of_isDigit {c : Char} (h : c.isDigit) : isIdentifierChar c := by
  simp [isIdentifierChar, Char.isAlphanum, h]

theorem getLast?_intChars {k : Int} : (intChars k).getLast?.any isIdentifierChar := by
  have hd : (Decimal.digits k.natAbs).getLast?.any isIdentifierChar := by
    have hm := List.getLast_mem (Decimal.digits_ne_nil (n := k.natAbs))
    rw [List.getLast?_eq_some_getLast Decimal.digits_ne_nil]
    exact isIdentifierChar_of_isDigit (Decimal.isDigit_of_mem_digits hm)
  unfold intChars
  split
  case isTrue =>
    rw [List.getLast?_cons]
    cases h : (Decimal.digits k.natAbs).getLast? <;> simp_all
  case isFalse => exact hd

theorem Apart.not_isDigit {k : Int} (h : Apart (String.ofList (intChars k)) rest) :
    rest.head?.any Char.isDigit = false := by
  have h := h (by rw [String.toList_ofList]; exact getLast?_intChars)
  cases hc : rest.head? with
  | none => rfl
  | some c =>
    rw [hc] at h
    exact Bool.eq_false_iff.mpr fun hd => Bool.eq_false_iff.mp h (isIdentifierChar_of_isDigit hd)

theorem reads_integer {k : Int} (hk : -9223372036854775808 ≤ k ∧ k < 9223372036854775808) :
    integer.Reads (Starts (String.ofList (intChars k) :: ts)) k (Spells ts) :=
  reads_of_over fun rest ha _ => by
    rw [String.toList_ofList]
    exact .integer hk ha.not_isDigit

theorem reads_numberLiteral {k : Int} (hk : -9223372036854775808 ≤ k ∧ k < 9223372036854775808)
    (hl : leadChar ts ≠ some '.') :
    numberLiteral.Reads (Starts (String.ofList (intChars k) :: ts)) (.int k) (Spells ts) :=
  reads_of_over fun rest ha hs => by
    rw [String.toList_ofList]
    exact .numberLiteral hk ha.not_isDigit (ne_mark_of_spells hs (by decide) hl)

theorem reads_quotedString (hl : leadChar ts ≠ some '\x27') :
    quotedString.Reads (Starts (quoted s :: ts)) s (Spells ts) :=
  reads_of_over fun _ _ hs => .quotedString (ne_mark_of_spells hs (by decide) hl)

end Token

namespace PropertyPath

theorem reads {path : PropertyPath} {ts : List String} (hp : path.WellFormed) (hl : leadChar ts ≠ some '/') :
    (PropertyPath.scan none).Reads (Spells (path.text :: ts)) path (Spells ts) :=
  reads_skipBlank.bind (.position_bind fun _ =>
    (reads_joined rfl hp.left hp.right (by decide) (by decide) hl).bind (.bind .pure .pure))

end PropertyPath
end RowPipeline
