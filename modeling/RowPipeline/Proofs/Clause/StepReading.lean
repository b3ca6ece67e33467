import RowPipeline.Proofs.Clause.FilterReading

namespace RowPipeline

open Scan Token

variable {ts us : List String}

namespace Aggregate

theorem reads_scanWord {word : String} (hw : IsIdentifier word) :
    (scanWord word).Reads (Spells (word :: ts)) () (Spells ts) :=
  reads_skipBlank.bind ((reads_keyword hw).bind (.ite_pos rfl .pure))

theorem reads_scanOutput {output : String} (ho : IsIdentifier output) :
    scanOutput.Reads (Spells ("as" :: output :: ts)) output (Spells ts) :=
  (reads_scanWord (by decide)).bind (reads_skipBlank.bind (reads_identifier ho))

theorem reads {a : Aggregate} (ha : a.WellFormed) :
    (Aggregate.scan none).Reads (Spells (a.tokens ++ ts)) a (Spells ts) := by
  cases a with
  | count output =>
    refine reads_skipBlank.bind ((reads_keyword (by decide)).bind (.ite_pos rfl ?_))
    exact (reads_scanOutput ha).bind .pure
  | property path method output =>
    obtain ⟨hp, hc, hm, ho⟩ := ha
    have hn : leadWord (path.text :: "with" :: method :: "as" :: output :: ts) ≠ "$count".toList := by
      obtain ⟨name, names, rfl⟩ := List.exists_cons_of_ne_nil hp.left
      rw [PropertyPath.leadWord_text hp, ne_eq, String.toList_inj]
      exact fun h => hc (congrArg some h)
    have hw : leadChar ("with" :: method :: "as" :: output :: ts) ≠ some '/' :=
      show "with".toList.head? ≠ some '/' by decide
    have ha : leadChar ("as" :: output :: ts) ≠ some '.' := show "as".toList.head? ≠ some '.' by decide
    refine reads_skipBlank.bind ((reads_no_keyword (by decide) hn).bind (.ite_neg nofun ?_))
    refine Reads.bind ((PropertyPath.reads hp hw).mono (fun _ => And.left) fun _ => id) ?_
    refine (reads_scanWord (by decide)).bind (reads_skipBlank.bind ((reads_qualifiedName hm ha).bind ?_))
    exact (reads_scanOutput ho).bind .pure

theorem reads_scanList {aggregates : List Aggregate} (h : aggregates ≠ [] ∧ ∀ a ∈ aggregates, a.WellFormed) :
    (scanList none).Reads (Spells (separated "," (aggregates.map tokens) ++ ")" :: ts)) aggregates
      (Starts (")" :: ts)) :=
  reads_listBy h.left fun a ha _ _ => reads (h.right a ha)

end Aggregate

namespace PropertyPath

theorem reads_list {paths : List PropertyPath} (h : paths ≠ [] ∧ ∀ p ∈ paths, p.WellFormed) :
    (listBy ',' (PropertyPath.scan none)).Reads
      (Spells (separated "," (paths.map fun p => [p.text]) ++ ")" :: ts)) paths (Starts (")" :: ts)) :=
  reads_listBy h.left fun p hp _ hu => reads (h.right p hp) (hu.leadChar_ne (by decide))

end PropertyPath

namespace OrderItem

theorem reads {item : OrderItem} (hp : item.path.WellFormed) :
    (OrderItem.scan none).Reads (Spells (item.tokens ++ ts)) item (Spells ts) := by
  obtain ⟨path, direction⟩ := item
  cases direction with
  | ascending =>
    have hl : leadChar ("asc" :: ts) ≠ some '/' := show "asc".toList.head? ≠ some '/' by decide
    refine (PropertyPath.reads hp hl).bind (reads_skipBlank.bind ?_)
    refine (reads_other_keyword (by decide) (by decide) (by decide)).bind (.ite_neg nofun ?_)
    exact (Reads.discard (reads_keyword (by decide))).bind .pure
  | descending =>
    have hl : leadChar ("desc" :: ts) ≠ some '/' := show "desc".toList.head? ≠ some '/' by decide
    refine (PropertyPath.reads hp hl).bind (reads_skipBlank.bind ?_)
    exact (reads_keyword (by decide)).bind (.ite_pos rfl .pure)

end OrderItem

namespace Transformation

theorem number_eq (n : Nat) : number n = String.ofList (intChars n) := by
  rw [number, intChars, if_neg (by omega), Int.natAbs_natCast]

theorem reads_scanCount {count : Nat} (h : count ≤ 9223372036854775807) :
    scanCount.Reads (Spells (number count :: ts)) count (Spells ts) := by
  rw [number_eq]
  refine reads_skipBlank.bind (.position_bind fun start => ?_)
  exact (reads_integer (by omega)).bind (.ite_neg (by omega) .pure)

theorem reads_closing : closing.Reads (Spells (")" :: ts)) () (Spells ts) :=
  reads_skipBlank.bind (reads_expect rfl)

theorem reads_scanGroupBy {properties : List PropertyPath} {aggregates : Option (List Aggregate)}
    (h : (groupBy properties aggregates).WellFormed) :
    ∃ inner, (groupBy properties aggregates).tokens = "groupby" :: enclosed inner ∧
      (scanGroupBy none).Reads (Spells (inner ++ ")" :: ts)) (groupBy properties aggregates)
        (Spells (")" :: ts)) := by
  obtain ⟨hp, ha⟩ := h
  cases aggregates with
  | none =>
    refine ⟨PropertyPath.listTokens properties, rfl, ?_⟩
    rw [PropertyPath.listTokens, enclosed_append]
    refine reads_skipBlank.bind ((reads_expect rfl).bind ((PropertyPath.reads_list hp).bind ?_))
    refine Reads.bind (reads_closing.mono (fun _ => And.left) fun _ => id) ?_
    have hc : leadChar (")" :: ts) ≠ some ',' := show ")".toList.head? ≠ some ',' by decide
    refine reads_skipBlank.bind ((reads_no_char? hc).bind (.ite_neg nofun ?_))
    exact .mono .pure (fun _ => And.left) fun _ => id
  | some aggregates =>
    refine ⟨PropertyPath.listTokens properties ++ "," :: "aggregate" :: Aggregate.listTokens aggregates, rfl, ?_⟩
    simp only [PropertyPath.listTokens, Aggregate.listTokens, List.append_assoc, List.cons_append, enclosed_append]
    refine reads_skipBlank.bind ((reads_expect rfl).bind ((PropertyPath.reads_list hp).bind ?_))
    refine Reads.bind (reads_closing.mono (fun _ => And.left) fun _ => id) ?_
    refine reads_skipBlank.bind ((reads_char? rfl).bind (.ite_pos rfl ?_))
    refine (Aggregate.reads_scanWord (by decide)).bind (reads_skipBlank.bind ((reads_expect rfl).bind ?_))
    refine (Aggregate.reads_scanList (ha aggregates rfl)).bind ?_
    exact Reads.bind (reads_closing.mono (fun _ => And.left) fun _ => id) .pure

section Sequence

variable {item : Option Binding → Scan (Transformation × Option Binding)} {b : List Transformation}

-- Without a binding none is left.
def unbound {α : Type} (x : α) : α × Option Binding :=
  (x, none)

theorem foldl_unbound (b : List Transformation) :
    (b.map unbound).foldl (fun _ t => t.2) (none : Option Binding) = none := by
  induction b with
  | nil => rfl
  | cons t b ih => exact ih

theorem reads_sequenceOf (hne : b ≠ []) (hc : leadChar ts ≠ some '/')
    (hi : ∀ t ∈ b, ∀ us, (item none).Reads (Spells (t.tokens ++ us)) (unbound t) (Spells us)) :
    (sequenceOf item none).Reads (Spells (separated "/" (b.map tokens) ++ ts)) (unbound b) (Spells ts) := by
  obtain ⟨t, b, rfl⟩ := List.exists_cons_of_ne_nil hne
  obtain ⟨ht, hb⟩ := List.forall_mem_cons.mp hi
  rw [separated_cons]
  refine (ht _).bind (.get_bind fun cursor h => ?_)
  obtain ⟨n, hn⟩ : ∃ n, cursor.rest.length = b.length + n :=
    Nat.exists_eq_add_of_le (Nat.le_trans (Nat.le_add_right _ _) (length_le_marked h))
  have hm : ∀ us, (do skipBlank; char? '/' : Scan Bool).Reads (Spells ("/" :: us)) true (Spells us) :=
    fun _ => reads_blank_char? rfl
  have he : (manyAfter (do skipBlank; char? '/') item (fun _ t => t.2) n none).Reads (Spells ts) [] (Spells ts) := by
    cases n with
    | zero => exact .pure
    | succ n => exact .manyAfter_nil ((reads_blank_no_char? hc).mono (fun _ => id) fun _ => And.left)
  have hr := reads_marked (fun _ => rfl) hm (fun t ht us _ => hb t ht us) he
  rw [hn]
  refine Reads.bind (hr.mono (by rintro _ rfl; exact h) fun _ => id) ?_
  have hb : unbound (t :: b) =
      ((unbound t).1 :: (b.map unbound).map (·.1), (b.map unbound).foldl (fun _ t => t.2) (unbound t).2) := by
    rw [show (unbound t).2 = none from rfl, foldl_unbound]
    simp [unbound, Function.comp_def]
  rw [hb]
  exact .pure

theorem reads_scanConcat {start : Nat} {branches : List (List Transformation)}
    (hb : 2 ≤ branches.length ∧ ∀ b ∈ branches, b ≠ [])
    (hi : ∀ b ∈ branches, ∀ t ∈ b, ∀ us, (item none).Reads (Spells (t.tokens ++ us)) (unbound t) (Spells us)) :
    (scanConcat start item none).Reads
      (Spells (separated "," (branches.map fun b => separated "/" (b.map tokens)) ++ ")" :: ts))
      (unbound (.concat branches)) (Spells (")" :: ts)) := by
  obtain ⟨hl, hne⟩ := hb
  have hne' : branches ≠ [] := by rintro rfl; simp at hl
  refine (reads_listBy_map (g := unbound) hne' fun b h us hu => ?_).bind
    (.ite_neg (by rw [List.length_map]; omega) ?_)
  case refine_1 => exact reads_sequenceOf (hne b h) (hu.leadChar_ne (by decide)) (hi b h)
  case refine_2 =>
    have hc : unbound (concat branches) = (concat ((branches.map unbound).map (·.1)),
        if (branches.map unbound).any (·.2.isNone) then none else none) := by
      simp [unbound, Function.comp_def]
    rw [hc]
    exact .mono .pure (fun _ => And.left) fun _ => id

-- What the text of a step stands for without loss, the steps in its branches left aside.
structure Written (t : Transformation) : Prop where
  wellFormed : t.WellFormed
  exact      : ∀ v ∈ t.literals, ¬v.IsFloat

theorem reads_scanBody {t : Transformation} (ht : Written t) (hn : t ≠ identity) (start : Nat)
    (hi : ∀ b ∈ t.branches, ∀ u ∈ b, ∀ us, (item none).Reads (Spells (u.tokens ++ us)) (unbound u) (Spells us)) :
    ∃ inner, t.tokens = t.kind :: enclosed inner ∧
      (scanBody start t.kind item none).Reads (Spells (inner ++ ")" :: ts)) (unbound t) (Spells (")" :: ts)) := by
  obtain ⟨hw, hx⟩ := ht
  cases t with
  | aggregate aggregates =>
    refine ⟨_, by rw [tokens, Aggregate.listTokens]; rfl, ?_⟩
    exact Reads.bind (Aggregate.reads_scanList hw) (.mono .pure (fun _ => And.left) fun _ => id)
  | groupBy properties aggregates =>
    obtain ⟨inner, hi, hr⟩ := reads_scanGroupBy hw
    exact ⟨inner, hi, hr.bind .pure⟩
  | filter condition =>
    refine ⟨_, by rw [tokens]; rfl, ?_⟩
    exact Reads.bind (Filter.reads ⟨hw, hx⟩) (.mono .pure (fun _ => And.left) fun _ => id)
  | select paths =>
    refine ⟨_, by rw [tokens, PropertyPath.listTokens]; rfl, ?_⟩
    exact Reads.bind (PropertyPath.reads_list hw) (.mono .pure (fun _ => And.left) fun _ => id)
  | orderBy items =>
    refine ⟨_, by rw [tokens]; rfl, ?_⟩
    refine Reads.bind (reads_listBy hw.left fun item h us _ => OrderItem.reads (hw.right item h)) ?_
    exact .mono .pure (fun _ => And.left) fun _ => id
  | top count =>
    refine ⟨_, by rw [tokens]; rfl, ?_⟩
    exact Reads.bind (reads_scanCount hw) .pure
  | skip count =>
    refine ⟨_, by rw [tokens]; rfl, ?_⟩
    exact Reads.bind (reads_scanCount hw) .pure
  | concat branches =>
    refine ⟨_, by rw [tokens, branchTokens_eq_map]; rfl, ?_⟩
    exact reads_scanConcat hw hi
  | identity => exact absurd rfl hn

end Sequence

theorem forall_branches {P : Transformation → Prop} {t : Transformation} (h : ∀ u ∈ t :: Clause.walkInside t, P u) :
    ∀ b ∈ t.branches, ∀ u ∈ b, ∀ v ∈ u :: Clause.walkInside u, P v := by
  cases t with
  | concat branches =>
    intro b hb u hu v hv
    refine h v (List.mem_cons_of_mem _ ?_)
    rw [Clause.walkInside, Clause.walkBranches_eq_flatMap]
    refine List.mem_flatMap_of_mem hb ?_
    rw [Clause.walk_eq_flatMap]
    exact List.mem_flatMap_of_mem hu hv
  | _ => intro b hb; cases hb

theorem length_branch {t u : Transformation} {b : List Transformation} (hb : b ∈ t.branches) (hu : u ∈ b) :
    u.tokens.length < t.tokens.length := by
  cases t with
  | concat branches =>
    change b ∈ branches at hb
    have h₁ := length_le_separated "/" (List.mem_map_of_mem (f := tokens) hu)
    have h₂ := length_le_separated "," (List.mem_map_of_mem (f := fun b => separated "/" (b.map tokens)) hb)
    rw [tokens, branchTokens_eq_map]
    simp only [enclosed, List.length_cons, List.length_append]
    omega
  | _ => cases hb

theorem length_tokens_pos (t : Transformation) : 0 < t.tokens.length := by
  unfold tokens
  split <;> simp

-- Only the identity is written without parentheses.
theorem kind_ne {t : Transformation} (h : t ≠ identity) : t.kind ≠ "identity" := by
  cases t <;> simp_all [kind]

theorem isIdentifier_kind (t : Transformation) : IsIdentifier t.kind := by
  cases t <;> simp only [kind] <;> decide

theorem reads {depth : Nat} {t : Transformation} (ht : ∀ u ∈ t :: Clause.walkInside t, Written u)
    (hd : t.tokens.length ≤ depth) :
    (Transformation.scan depth none).Reads (Spells (t.tokens ++ ts)) (unbound t) (Spells ts) := by
  induction depth generalizing t ts
  case zero => exact absurd t.length_tokens_pos (by omega)
  case succ depth ih =>
    by_cases hn : t = identity
    case pos =>
      subst hn
      rw [tokens, List.singleton_append]
      refine reads_skipBlank.bind (.position_bind fun start => (reads_identifier (by decide)).bind ?_)
      exact .ite_pos rfl .pure
    case neg =>
      have hb : ∀ b ∈ t.branches, ∀ u ∈ b, ∀ us,
          (Transformation.scan depth none).Reads (Spells (u.tokens ++ us)) (unbound u) (Spells us) := by
        intro b hb u hu us
        have := length_branch hb hu
        exact ih (forall_branches ht b hb u hu) (by omega)
      -- The position at which the name starts is only used in errors.
      refine reads_skipBlank.bind (.position_bind fun start => ?_)
      obtain ⟨inner, hi, hr⟩ := reads_scanBody (ht t List.mem_cons_self) hn start hb
      rw [hi, List.cons_append, enclosed_append]
      refine (reads_identifier (isIdentifier_kind t)).bind (.ite_neg (kind_ne hn) ?_)
      refine reads_skipBlank.bind ((reads_expect rfl).bind (hr.bind ?_))
      exact reads_closing.bind .pure

end Transformation
end RowPipeline
