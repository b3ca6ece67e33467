import RowPipeline.Proofs.Clause.Composition

namespace RowPipeline

open Scan

namespace Filter

variable {text first second : String} {c d : Filter} {item : Scan Filter} {P : List Char → Prop}
  {mid rest : List Char} {depth : Nat}

-- The text is a condition on its own. Reading it leaves nothing but blanks.
def Whole (text : String) (condition : Filter) : Prop :=
  ∃ next, (Filter.scan none).Yields (Cursor.ofString text) condition next ∧ next.rest.dropWhile Text.isBlank = []

theorem Whole.reads_disjunction (h : Whole text c) (hd : text.toList.length < depth) :
    (disjunction (scanUnary none depth)).Reads (· = text.toList ++ ')' :: rest) c
      (·.dropWhile Text.isBlank = ')' :: rest) := by
  have ⟨next, hy, hb⟩ := h
  have ⟨_, _, hg, hy⟩ := yields_bind.mp hy
  have ⟨hc, hm⟩ := yields_get.mp hg
  subst hc hm
  have he : (')' :: rest).head?.any isIdentifierChar = false := rfl
  have hl : Local (')' :: rest) (disjunction (scanUnary none (text.toList.length + 1)))
      (disjunction (scanUnary none depth)) := local_disjunction he (local_scanUnary he hd)
  have ⟨_, hr⟩ := hl _ _ _ hy
  refine (hr (.inr ?_)).mono (fun _ => id) ?_
  case refine_1 => rintro _ ⟨⟩; rfl
  case refine_2 =>
    rintro _ rfl
    rw [Clause.dropWhile_append_of_nil hb]
    rfl

theorem Whole.reads_scan (h : Whole text c) :
    (Filter.scan none).Reads (· = text.toList ++ ')' :: rest) c (·.dropWhile Text.isBlank = ')' :: rest) := by
  apply Reads.get_bind
  intro cursor hc
  rw [hc]
  exact h.reads_disjunction (by rw [List.length_append]; omega)

theorem Whole.reads_scanUnary (h : Whole text c) (hd : text.toList.length < depth) :
    (scanUnary none (depth + 1)).Reads (·.dropWhile Text.isBlank = '(' :: (text.toList ++ ')' :: rest)) c
      (· = rest) := by
  refine Reads.skipBlank.bind ((Reads.keyword_false (by decide) rfl).bind (.ite_neg nofun ?_))
  refine Reads.char?.bind (.ite_pos rfl ((h.reads_disjunction hd).bind ?_))
  exact Reads.skipBlank.bind (Reads.expect.bind .pure)

-- Behind the last item of a chain there is what closes the parenthesis around it.
theorem reads_no_more {word : String} {n : Nat} (hw : IsIdentifier word) :
    (manyAfter (do skipBlank; keyword word) (fun _ => item) (fun _ _ => ()) n ()).Reads
      (· = ')' :: rest) [] (· = ')' :: rest) := by
  cases n with
  | zero => exact .pure
  | succ n =>
    exact .manyAfter_nil ((Reads.skipBlank_of_eq rfl).bind (.keyword_false hw rfl))

theorem reads_and (hm : mid.head?.any isIdentifierChar = false)
    (hc : item.Reads P c (· = ' ' :: 'a' :: 'n' :: 'd' :: mid)) (hd : item.Reads (· = mid) d (· = ')' :: rest)) :
    (disjunction item).Reads P (and c d) (· = ')' :: rest) := by
  have hb : skipBlank.Reads (· = ' ' :: 'a' :: 'n' :: 'd' :: mid) () (· = "and".toList ++ mid) := .skipBlank_of_eq rfl
  have hs : (Scan.many (do skipBlank; keyword "and") item).Reads (· = ' ' :: 'a' :: 'n' :: 'd' :: mid) [d]
      (· = ')' :: rest) := by
    apply Reads.many
    rintro _ rfl
    exact .manyAfter_cons (hb.bind (.keyword (by decide) hm)) hd (reads_no_more (by decide))
  have ha : (chain "and" and item).Reads P (and c d) (· = ')' :: rest) := hc.bind (hs.bind .pure)
  exact ha.bind ((Reads.many fun _ _ => reads_no_more (by decide)).bind .pure)

-- Both conditions in parentheses, with `and` between them.
theorem Whole.reads_and (hc : Whole first c) (hd : Whole second d) :
    (Filter.scan none).Reads
      (· = '(' :: (first.toList ++
        ')' :: ' ' :: 'a' :: 'n' :: 'd' :: ' ' :: '(' :: (second.toList ++ ')' :: ')' :: rest)))
      (and c d) (· = ')' :: rest) := by
  apply Reads.get_bind
  intro cursor hcs
  have hl : first.toList.length < cursor.rest.length ∧ second.toList.length < cursor.rest.length := by
    simp only [hcs, List.length_cons, List.length_append]
    omega
  have hf : (scanUnary none (cursor.rest.length + 1)).Reads (· = cursor.rest) c
      (· = ' ' :: 'a' :: 'n' :: 'd' :: ' ' :: '(' :: (second.toList ++ ')' :: ')' :: rest)) :=
    (hc.reads_scanUnary hl.left).mono (by rintro _ rfl; rw [hcs]; rfl) fun _ => id
  have hs : (scanUnary none (cursor.rest.length + 1)).Reads (· = ' ' :: '(' :: (second.toList ++ ')' :: ')' :: rest)) d
      (· = ')' :: rest) :=
    (hd.reads_scanUnary hl.right).mono (by rintro _ rfl; rfl) fun _ => id
  exact Filter.reads_and rfl hf hs

end Filter

namespace Transformation

variable {depth : Nat} {text rest : List Char} {condition : Filter}

theorem spelt_filter (h : (Filter.scan none).Reads (· = text) condition (·.dropWhile Text.isBlank = ')' :: rest)) :
    Spelt (depth + 1) ("filter(".toList ++ text) (.filter condition) rest := by
  have hb : skipBlank.Reads (· = "filter(".toList ++ text) () (· = "filter".toList ++ '(' :: text) :=
    .skipBlank_of_eq rfl
  refine hb.bind (.position_bind fun start => (Reads.identifier (by decide) rfl).bind (.ite_neg (by decide) ?_))
  have hf : (scanBody start "filter" (scan depth) none).Reads (· = text) (unbound (.filter condition))
      (·.dropWhile Text.isBlank = ')' :: rest) := h.bind .pure
  have hc : closing.Reads (·.dropWhile Text.isBlank = ')' :: rest) () (· = rest) := Reads.skipBlank.bind .expect
  exact (Reads.skipBlank_of_eq rfl).bind (Reads.expect.bind (hf.bind (hc.bind .pure)))

end Transformation

namespace Clause

variable {text first second : String} {c d : Filter}

theorem parse_filter (h : (Filter.scan none).Reads (· = text.toList ++ [')']) c (·.dropWhile Text.isBlank = [')'])) :
    parse none ("filter(" ++ text ++ ")") = .ok [.filter c] := by
  apply parse_of_spelt
  refine ⟨.filter c, [], [], rfl, ?_, .nil rfl⟩
  have ht : ("filter(" ++ text ++ ")").toList = "filter(".toList ++ (text.toList ++ [')']) := by simp
  rw [ht]
  exact Transformation.spelt_filter h

theorem parse_filter_and (hc : Filter.Whole first c) (hd : Filter.Whole second d) :
    parse none ("filter((" ++ first ++ ") and (" ++ second ++ "))") = .ok [.filter (.and c d)] := by
  have hs : "filter((" ++ first ++ ") and (" ++ second ++ "))" =
      "filter(" ++ ("(" ++ first ++ ") and (" ++ second ++ ")") ++ ")" := by simp [← String.toList_inj]
  have ht : ("(" ++ first ++ ") and (" ++ second ++ ")").toList ++ [')'] =
      '(' :: (first.toList ++ ')' :: ' ' :: 'a' :: 'n' :: 'd' :: ' ' :: '(' :: (second.toList ++ [')', ')'])) := by simp
  rw [hs]
  apply parse_filter
  rw [ht]
  exact (hc.reads_and hd).mono (fun _ => id) (by rintro _ rfl; rfl)

theorem parse_filters (hc : Filter.Whole first c) (hd : Filter.Whole second d) :
    parse none ("filter(" ++ first ++ ")/filter(" ++ second ++ ")") = .ok [.filter c, .filter d] := by
  have hs : "filter(" ++ first ++ ")/filter(" ++ second ++ ")" =
      "filter(" ++ first ++ ")" ++ "/" ++ ("filter(" ++ second ++ ")") := by simp [← String.toList_inj]
  rw [hs]
  exact parse_slash (parse_filter hc.reads_scan) (parse_filter hd.reads_scan)

end Clause
end RowPipeline
