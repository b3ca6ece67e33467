import RowPipeline.Method.Builtin
import RowPipeline.Proofs.Stage.Making
import RowPipeline.Proofs.Stage.StableSort
import RowPipeline.Proofs.Value.Ordering
import Mathlib.Data.List.Zip

namespace RowPipeline

open Std

namespace OrderItem

variable {α : Type} {access : Access} {item : OrderItem} {items xs ys : List OrderItem} {row a b value : Value}
  {keys rows : List Value} {p : Value → Prop}

-- The key of a row, null where it cannot be read.
def key (access : Access) (row : Value) (item : OrderItem) : Value :=
  match access.read row item.path with
  | .ok value => value
  | .error _ => .null

-- The order of rows that sorting goes by.
def orderRows (access : Access) : List OrderItem → Value → Value → Ordering
  | [], _, _ => .eq
  | item :: items, a, b =>
    (item.direction.order (item.key access a) (item.key access b)).then (orderRows access items a b)

-- At every item there is a key, and if that is a number, it is an integer that is compared exactly.
def Sortable (access : Access) (items : List OrderItem) (row : Value) : Prop :=
  ∀ item ∈ items, ∃ key, access.read row item.path = .ok key ∧ key.ComparedExactly

-- Among the keys at an item there are integers that rounding confounds.
def Confused (access : Access) (items : List OrderItem) (rows : List Value) : Prop :=
  ∃ item ∈ items, ∃ a ∈ rows, ∃ b ∈ rows, ∃ c ∈ rows,
    Value.Confounds (item.key access a) (item.key access b) (item.key access c)

-- How the keys of two rows compare at an item.
def Compares (access : Access) (item : OrderItem) (a b : Value) (o : Ordering) : Prop :=
  ∃ k l, access.read a item.path = .ok k ∧ access.read b item.path = .ok l ∧ item.direction.order k l = o

-- At the first item at which the keys differ, that of the first row is the smaller one.
def Smaller (access : Access) (items : List OrderItem) (a b : Value) : Prop :=
  ∃ before item after, items = before ++ item :: after ∧ (∀ i ∈ before, i.Compares access a b .eq) ∧
    item.Compares access a b .lt

-- The keys are equal at all items.
def Tied (access : Access) (items : List OrderItem) (a b : Value) : Prop :=
  ∀ item ∈ items, item.Compares access a b .eq

-- The first item at which the row cannot be read gives the error.
def Fails (access : Access) (items : List OrderItem) (row : Value) (e : EvaluationError) : Prop :=
  ∃ before item after, items = before ++ item :: after ∧ (∀ i ∈ before, ∃ value, access.read row i.path = .ok value) ∧
    access.read row item.path = .error e

section Key

theorem key_of_read (h : access.read row item.path = .ok value) : item.key access row = value := by
  rw [key, h]

theorem Sortable.read (h : Sortable access items row) (hi : item ∈ items) :
    access.read row item.path = .ok (item.key access row) := by
  have ⟨_, hr, _⟩ := h item hi
  rw [key_of_read hr, hr]

theorem Sortable.comparedExactly (h : Sortable access items row) (hi : item ∈ items) :
    (item.key access row).ComparedExactly := by
  have ⟨_, hr, he⟩ := h item hi
  rwa [key_of_read hr]

theorem Sortable.compares (ha : Sortable access items a) (hb : Sortable access items b) (hi : item ∈ items) :
    item.Compares access a b (item.direction.order (item.key access a) (item.key access b)) :=
  ⟨_, _, ha.read hi, hb.read hi, rfl⟩

theorem readAll_eq_ok : access.readAll row (items.map path) = .ok keys ↔
    (∀ item ∈ items, ∃ value, access.read row item.path = .ok value) ∧ items.map (key access row) = keys := by
  rw [Access.readAll, List.mapM_map, mapM_eq_ok]
  constructor
  case mp =>
    intro h
    constructor
    case left =>
      intro item hi
      have ⟨value, _, hv⟩ := exists_of_mem_left h item hi
      exact ⟨value, hv⟩
    case right =>
      rw [← List.forall₂_eq_eq_eq, List.forall₂_map_left_iff]
      exact h.imp fun _ _ => key_of_read
  case mpr =>
    rintro ⟨h, rfl⟩
    rw [List.forall₂_map_right_iff, List.forall₂_same]
    intro item hi
    have ⟨value, hv⟩ := h item hi
    rw [Function.comp, key_of_read hv, hv]

theorem readAll_eq_error {e : EvaluationError} : access.readAll row (items.map path) = .error e ↔
    Fails access items row e := by
  rw [Access.readAll, List.mapM_map]
  exact mapM_eq_error

end Key

section Order

theorem orderRows_append : orderRows access (xs ++ ys) a b =
    (orderRows access xs a b).then (orderRows access ys a b) := by
  induction xs with
  | nil => rfl
  | cons x xs ih => rw [List.cons_append, orderRows, orderRows, ih, Ordering.then_assoc]

theorem orderRows_self_append : orderRows access (xs ++ xs) = orderRows access xs := by
  refine funext₂ fun a b => ?_
  rw [orderRows_append]
  cases orderRows access xs a b <;> rfl

theorem orderRows_singleton : orderRows access [item] =
    fun a b => item.direction.order (item.key access a) (item.key access b) := by
  refine funext₂ fun a b => ?_
  rw [orderRows, orderRows]
  cases item.direction.order (item.key access a) (item.key access b) <;> rfl

theorem orderKeys_map : orderKeys items (items.map (key access a)) (items.map (key access b)) =
    orderRows access items a b := by
  induction items with
  | nil => rfl
  | cons item items ih => rw [List.map_cons, List.map_cons, orderKeys, orderRows, ih]

theorem transCmp_order (direction : Direction) {f : α → Value} (h : ∀ a b c, ¬Value.Confounds (f a) (f b) (f c)) :
    TransCmp fun a b => direction.order (f a) (f b) := by
  have hs : TransCmp fun a b => (f a).sortOrder (f b) :=
    { eq_swap := Value.sortOrder_swap _ _, isLE_trans := Value.isLE_sortOrder_trans (h _ _ _) }
  cases direction with
  | ascending => exact hs
  | descending => exact inferInstanceAs (TransCmp fun a b => (f b).sortOrder (f a))

-- Rows of which no keys are confounded can be compared with each other.
theorem transCmp_of_not_confounds
    (h : ∀ item ∈ items, ∀ a b c, p a → p b → p c →
      ¬Value.Confounds (item.key access a) (item.key access b) (item.key access c)) :
    TransCmp fun a b : Subtype p => orderRows access items a.1 b.1 := by
  induction items with
  | nil => exact { eq_swap := rfl, isLE_trans := fun _ _ => rfl }
  | cons item items ih =>
    obtain ⟨hi, hr⟩ := List.forall_mem_cons.mp h
    have ho : TransCmp fun a b : Subtype p => item.direction.order (item.key access a.1) (item.key access b.1) :=
      transCmp_order item.direction fun a b c => hi a.1 b.1 c.1 a.2 b.2 c.2
    exact transCmp_then (ih hr) ho

theorem transCmp_orderRows (h : ∀ row, p row → Sortable access items row) :
    TransCmp fun a b : Subtype p => orderRows access items a.1 b.1 :=
  transCmp_of_not_confounds fun _ hi _ b _ _ hb _ => ((h b hb).comparedExactly hi).not_confounds

theorem isTotalOn_orderRows (h : ¬Confused access items rows) : IsTotalOn (orderRows access items) rows :=
  transCmp_of_not_confounds fun item hi a b c ha hb hc hx => h ⟨item, hi, a, ha, b, hb, c, hc, hx⟩

-- Around a number between two confounded integers the order goes in a circle, in either direction.
theorem not_isTotalOn_of_confused (h : Confused access [item] rows) : ¬IsTotalOn (orderRows access [item]) rows := by
  intro ht
  obtain ⟨_, hi, a, ha, b, hb, c, hc, hx⟩ := h
  cases List.mem_singleton.mp hi
  rw [orderRows_singleton] at ht
  have ⟨hab, hbc, hac⟩ := hx.not_trans
  cases hd : item.direction with
  | ascending =>
    simp only [hd, Direction.order] at ht
    exact hac (ht.isLE_trans (a := ⟨a, ha⟩) (b := ⟨b, hb⟩) (c := ⟨c, hc⟩) hab hbc)
  | descending =>
    simp only [hd, Direction.order] at ht
    exact hac (ht.isLE_trans (a := ⟨c, hc⟩) (b := ⟨b, hb⟩) (c := ⟨a, ha⟩) hbc hab)

theorem canSort_of_sortable (h : ∀ row ∈ rows, Sortable access items row) : CanSort (orderRows access items) rows :=
  .inr (isTotalOn_of_forall (transCmp_orderRows fun _ => id) h)

-- What cannot be sorted is long and confused.
theorem confused_of_not_canSort (h : ¬CanSort (orderRows access items) rows) :
    insertionLimit < rows.length ∧ Confused access items rows := by
  obtain ⟨hl, ht⟩ := not_or.mp h
  exact ⟨Nat.lt_of_not_le hl, not_not.mp (mt isTotalOn_orderRows ht)⟩

theorem tied_of_orderRows (ha : Sortable access items a) (hb : Sortable access items b)
    (h : orderRows access items a b = .eq) : Tied access items a b := by
  induction items with
  | nil => exact nofun
  | cons item items ih =>
    obtain ⟨hi, hr⟩ := Ordering.then_eq_eq.mp h
    refine List.forall_mem_cons.mpr ⟨hi ▸ ha.compares hb List.mem_cons_self, ?_⟩
    exact ih (List.forall_mem_cons.mp ha).right (List.forall_mem_cons.mp hb).right hr

theorem smaller_of_orderRows (ha : Sortable access items a) (hb : Sortable access items b)
    (h : orderRows access items a b = .lt) : Smaller access items a b := by
  induction items with
  | nil => cases h
  | cons item items ih =>
    have hc := ha.compares hb List.mem_cons_self
    rcases Ordering.then_eq_lt.mp h with hi | ⟨hi, hr⟩
    case inl => exact ⟨[], item, items, rfl, nofun, hi ▸ hc⟩
    case inr =>
      obtain ⟨before, i, after, rfl, hs, hl⟩ :=
        ih (List.forall_mem_cons.mp ha).right (List.forall_mem_cons.mp hb).right hr
      exact ⟨item :: before, i, after, rfl, List.forall_mem_cons.mpr ⟨hi ▸ hc, hs⟩, hl⟩

theorem sortable_append : Sortable access (xs ++ ys) row ↔ Sortable access xs row ∧ Sortable access ys row :=
  List.forall_mem_append

-- Sorted by some items and then by others, rows are sorted by all of them, the later ones first.
theorem stableSort_orderRows (h : ∀ row ∈ rows, Sortable access (xs ++ ys) row) :
    stableSort (orderRows access ys) (stableSort (orderRows access xs) rows) =
      stableSort (orderRows access (ys ++ xs)) rows := by
  have hx := transCmp_orderRows fun row (hr : Sortable access (xs ++ ys) row) => (sortable_append.mp hr).left
  have hy := transCmp_orderRows fun row (hr : Sortable access (xs ++ ys) row) => (sortable_append.mp hr).right
  have ho : orderRows access (ys ++ xs) = fun a b => (orderRows access ys a b).then (orderRows access xs a b) :=
    funext₂ fun _ _ => orderRows_append
  rw [stableSort_stableSort hx hy h, ho]

end Order

end OrderItem

namespace Stage

open OrderItem

variable {access : Access} {items : List OrderItem} {rows out : List Value} {e : EvaluationError}

-- A row with its keys at the items.
theorem keyed_iff_map {keyed : List (List Value × Value)} :
    List.Forall₂ (fun row r => access.readAll row (items.map path) = .ok r.1 ∧ row = r.2) rows keyed ↔
      (∀ row ∈ rows, ∀ item ∈ items, ∃ value, access.read row item.path = .ok value) ∧
        rows.map (fun row => (items.map (key access row), row)) = keyed := by
  rw [← List.forall₂_eq_eq_eq, List.forall₂_map_left_iff, ← List.forall₂_and_left]
  have hr : ∀ row (r : List Value × Value), access.readAll row (items.map path) = .ok r.1 ∧ row = r.2 ↔
      (∀ item ∈ items, ∃ value, access.read row item.path = .ok value) ∧ (items.map (key access row), row) = r := by
    rintro row ⟨keys, row'⟩
    rw [readAll_eq_ok, Prod.mk.injEq, and_assoc]
  simp only [hr]

theorem canSort_keyed : CanSort (fun a b => orderKeys items a.1 b.1)
    (rows.map fun row => (items.map (key access row), row)) ↔ CanSort (orderRows access items) rows := by
  simp only [canSort_map, orderKeys_map]

theorem stableSort_keyed : (stableSort (fun a b => orderKeys items a.1 b.1)
    (rows.map fun row => (items.map (key access row), row))).map (·.2) = stableSort (orderRows access items) rows := by
  simp only [stableSort_map, orderKeys_map, List.map_map]
  exact List.map_id _

-- Sorting with keys is sorting by the order of rows.
theorem sortRows_iff_stableSort : sortRows items access rows = .ok out ↔
    (∀ row ∈ rows, ∀ item ∈ items, ∃ value, access.read row item.path = .ok value) ∧
      CanSort (orderRows access items) rows ∧ stableSort (orderRows access items) rows = out := by
  simp only [sortRows_eq_ok, keyed_iff_map, and_assoc, exists_and_left, exists_eq_left', canSort_keyed,
    stableSort_keyed]

-- Keys are read first, and it is the first row that cannot be read that fails.
theorem readKeys_eq_error : (rows.mapM fun row => do return (← access.readAll row (items.map path), row)) = .error e ↔
    ∃ before row after, rows = before ++ row :: after ∧
      (∀ r ∈ before, ∀ item ∈ items, ∃ value, access.read r item.path = .ok value) ∧ Fails access items row e := by
  have hr : ∀ row, (∃ x, (do return (← access.readAll row (items.map path), row)) = Except.ok x) ↔
      ∀ item ∈ items, ∃ value, access.read row item.path = .ok value := by
    intro row
    simp only [bind_eq_ok, pure_eq_ok, readAll_eq_ok]
    constructor
    case mp => exact fun ⟨_, _, ⟨h, _⟩, _⟩ => h
    case mpr => exact fun h => ⟨_, _, ⟨h, rfl⟩, rfl⟩
  rw [mapM_eq_error]
  simp only [hr, return_eq_error, readAll_eq_error]

theorem sortRows_eq_error : sortRows items access rows = .error e ↔
    (∃ before row after, rows = before ++ row :: after ∧
      (∀ r ∈ before, ∀ item ∈ items, ∃ value, access.read r item.path = .ok value) ∧ Fails access items row e) ∨
    (∀ row ∈ rows, ∀ item ∈ items, ∃ value, access.read row item.path = .ok value) ∧
      ¬CanSort (orderRows access items) rows ∧ .orderNotTotal = e := by
  simp only [sortRows, bind_eq_error, readKeys_eq_error, keyed_eq_ok, keyed_iff_map, and_assoc, exists_and_left,
    exists_eq_left']
  refine or_congr_right (and_congr_right fun _ => ?_)
  rw [← canSort_keyed, ← stableSort?_eq_none]
  split
  case h_1 sorted hs =>
    rw [hs]
    exact iff_of_false nofun fun h => nomatch h.left
  case h_2 hs =>
    rw [hs, throw_eq_error, and_iff_right rfl]

theorem sortRows_of_sortable (h : ∀ row ∈ rows, Sortable access items row) :
    sortRows items access rows = .ok (stableSort (orderRows access items) rows) := by
  refine sortRows_iff_stableSort.mpr ⟨fun row hr item hi => ?_, canSort_of_sortable h, rfl⟩
  have ⟨value, hv, _⟩ := h row hr item hi
  exact ⟨value, hv⟩

-- Rows are put in order by their keys, equal ones staying as they were, and the first row that cannot be read stops it.
theorem run_orderBy_sorts (items : List OrderItem) (access : Access) (rows : List Value) :
    ((∀ row ∈ rows, Sortable access items row) →
      ∃ (out : List Value) (placed : List (Value × Nat)), run (.orderBy items access) rows = .ok out ∧ out.Perm rows ∧
        placed.Perm rows.zipIdx ∧ placed.map (·.1) = out ∧
        placed.Pairwise fun a b => Smaller access items a.1 b.1 ∨ Tied access items a.1 b.1 ∧ a.2 < b.2) ∧
    ∀ e, run (.orderBy items access) rows = .error e ↔
      (∃ before row after, rows = before ++ row :: after ∧
        (∀ r ∈ before, ∀ item ∈ items, ∃ value, access.read r item.path = .ok value) ∧ Fails access items row e) ∨
      (∀ row ∈ rows, ∀ item ∈ items, ∃ value, access.read row item.path = .ok value) ∧
        ¬CanSort (orderRows access items) rows ∧ .orderNotTotal = e := by
  simp only [run]
  refine ⟨fun h => ?_, fun e => sortRows_eq_error⟩
  have ho := sortRows_of_sortable h
  obtain ⟨placed, hp, hm, ha⟩ := exists_placed (transCmp_orderRows fun _ => id) h
  refine ⟨_, placed, ho, stableSort_perm _ rows, hp, hm, ha.imp_of_mem fun {a b} hma hmb hab => ?_⟩
  have hs : ∀ x ∈ placed, Sortable access items x.1 := by
    intro x hx
    have hx := List.mem_map_of_mem (f := Prod.fst) (hp.mem_iff.mp hx)
    rw [List.zipIdx_map_fst] at hx
    exact h x.1 hx
  rcases hab with hlt | ⟨heq, he⟩
  case inl => exact .inl (smaller_of_orderRows (hs a hma) (hs b hmb) hlt)
  case inr => exact .inr ⟨tied_of_orderRows (hs a hma) (hs b hmb) heq, he⟩

theorem run_orderBy_sorts_mixed :
    let access : Access := ⟨.exact, false⟩
    let items : List OrderItem := [⟨["K"], .descending⟩, ⟨["L", "M"], .ascending⟩]
    let row (k m : Value) (n : Int) : Value := .object [("K", k), ("L", .object [("M", m)]), ("N", .int n)]
    let rows := [row (.int 1) (.string "b") 0, row (.string "x") .null 1, row (.int 1) (.string "a") 2,
      row .null .null 3, row (.int 1) (.string "b") 4]
    let out := [row (.string "x") .null 1, row (.int 1) (.string "a") 2, row (.int 1) (.string "b") 0,
      row (.int 1) (.string "b") 4, row .null .null 3]
    (∀ row ∈ rows, Sortable access items row) ∧ run (.orderBy items access) rows = .ok out ∧
      ∃ placed : List (Value × Nat), placed.Perm rows.zipIdx ∧ placed.map (·.1) = out ∧
        placed.Pairwise fun a b => Smaller access items a.1 b.1 ∨ Tied access items a.1 b.1 ∧ a.2 < b.2 := by
  intro access items row rows out
  have hi : (Value.int 1).ComparedExactly := .int rfl
  have ht : ∀ t, (Value.string t).ComparedExactly := fun _ => nofun
  have hn : Value.null.ComparedExactly := nofun
  have hs : ∀ row ∈ rows, Sortable access items row := by
    simp only [rows, items, Sortable, List.forall_mem_cons]
    exact ⟨⟨⟨_, rfl, hi⟩, ⟨_, rfl, ht _⟩, nofun⟩, ⟨⟨_, rfl, ht _⟩, ⟨_, rfl, hn⟩, nofun⟩,
      ⟨⟨_, rfl, hi⟩, ⟨_, rfl, ht _⟩, nofun⟩, ⟨⟨_, rfl, hn⟩, ⟨_, rfl, hn⟩, nofun⟩,
      ⟨⟨_, rfl, hi⟩, ⟨_, rfl, ht _⟩, nofun⟩, nofun⟩
  have ho : run (.orderBy items access) rows = .ok out := rfl
  have ⟨_, placed, ho', _, hp, hm, ha⟩ := (run_orderBy_sorts items access rows).left hs
  cases ho.symm.trans ho'
  exact ⟨hs, ho, placed, hp, hm, ha⟩

end Stage

namespace Clause

open OrderItem Stage

variable {access : Access} {registry : Registry} {xs ys : List OrderItem} {rows : List Value}

theorem makes_orderBy_of_sortable (h : ∀ row ∈ rows, Sortable access xs row) :
    Makes access registry [.orderBy xs] rows (stableSort (orderRows access xs) rows) :=
  makes_orderBy.mpr (sortRows_of_sortable h)

-- The later sorting decides before the earlier one does, and to sort once more changes nothing.
theorem orderBy_orderBy (h : ∀ row ∈ rows, Sortable access (xs ++ ys) row) :
    (∃ out, Makes access registry [.orderBy xs, .orderBy ys] rows out ∧
      Makes access registry [.orderBy (ys ++ xs)] rows out) ∧
    ∃ out, Makes access registry [.orderBy xs] rows out ∧ Makes access registry [.orderBy xs] out out := by
  have hx : ∀ row ∈ rows, Sortable access xs row := fun row hr => (sortable_append.mp (h row hr)).left
  have hy : ∀ row ∈ rows, Sortable access ys row := fun row hr => (sortable_append.mp (h row hr)).right
  have hmx : Makes access registry [.orderBy xs] rows (stableSort (orderRows access xs) rows) :=
    makes_orderBy_of_sortable hx
  have hmem : ∀ row ∈ stableSort (orderRows access xs) rows, row ∈ rows :=
    fun row hr => (stableSort_perm _ rows).mem_iff.mp hr
  constructor
  case left =>
    have hyx : ∀ row ∈ rows, Sortable access (ys ++ xs) row :=
      fun row hr => sortable_append.mpr ⟨hy row hr, hx row hr⟩
    refine ⟨_, makes_cons.mpr ⟨_, hmx, makes_orderBy_of_sortable fun row hr => hy row (hmem row hr)⟩, ?_⟩
    rw [stableSort_orderRows h]
    exact makes_orderBy_of_sortable hyx
  case right =>
    have hxx : ∀ row ∈ rows, Sortable access (xs ++ xs) row :=
      fun row hr => sortable_append.mpr ⟨hx row hr, hx row hr⟩
    have hs : stableSort (orderRows access xs) (stableSort (orderRows access xs) rows) =
        stableSort (orderRows access xs) rows := by
      rw [stableSort_orderRows hxx, orderRows_self_append]
    refine ⟨_, hmx, ?_⟩
    have hm : Makes access registry [.orderBy xs] (stableSort (orderRows access xs) rows)
        (stableSort (orderRows access xs) (stableSort (orderRows access xs) rows)) :=
      makes_orderBy_of_sortable fun row hr => hx row (hmem row hr)
    rwa [hs] at hm

theorem orderBy_orderBy_ties :
    let access : Access := ⟨.exact, false⟩
    let xs : List OrderItem := [⟨["A"], .descending⟩]
    let ys : List OrderItem := [⟨["B"], .ascending⟩]
    let row (a b : Int) : Value := .object [("A", .int a), ("B", .int b)]
    let rows := [row 1 5, row 2 5, row 3 4, row 2 4]
    let first := [row 3 4, row 2 5, row 2 4, row 1 5]
    let second := [row 3 4, row 2 4, row 2 5, row 1 5]
    (∀ row ∈ rows, Sortable access (xs ++ ys) row) ∧ Makes access .builtins [.orderBy xs, .orderBy ys] rows second ∧
      Makes access .builtins [.orderBy (ys ++ xs)] rows second ∧ Makes access .builtins [.orderBy xs] rows first ∧
      Makes access .builtins [.orderBy xs] first first := by
  intro access xs ys row rows first second
  have hr : ∀ a b, Value.inInt64 a → Value.inInt64 b → Sortable access (xs ++ ys) (row a b) := by
    intro a b ha hb
    simp only [xs, ys, Sortable, List.cons_append, List.nil_append, List.forall_mem_cons]
    exact ⟨⟨_, rfl, .int ha⟩, ⟨_, rfl, .int hb⟩, nofun⟩
  have hs : ∀ row ∈ rows, Sortable access (xs ++ ys) row := by
    simp only [rows, List.forall_mem_cons]
    exact ⟨hr 1 5 rfl rfl, hr 2 5 rfl rfl, hr 3 4 rfl rfl, hr 2 4 rfl rfl, nofun⟩
  have ⟨⟨_, ht, ho⟩, _, hf, hi⟩ := @orderBy_orderBy _ .builtins _ _ _ hs
  have ⟨_, htc, hte⟩ := ht
  have ⟨_, hfc, hfe⟩ := hf
  cases htc
  cases hte
  cases hfc
  cases hfe
  exact ⟨hs, ht, ho, hf, hi⟩

end Clause
end RowPipeline
