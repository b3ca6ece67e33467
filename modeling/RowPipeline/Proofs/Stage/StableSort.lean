import RowPipeline.Stage.Sorting
import Mathlib.Data.List.Induction
import Mathlib.Order.Defs.Unbundled

namespace RowPipeline

open Std

variable {α β : Type} {order first second : α → α → Ordering} {R : α → α → Prop} {xs ys : List α} {a b x : α}

-- The order decides, and where it finds two items equal, the relation.
def Ahead (order : α → α → Ordering) (R : α → α → Prop) (a b : α) : Prop :=
  order a b = .lt ∨ order a b = .eq ∧ R a b

-- In items with their places: the one that has its place before that of the other.
def Earlier (a b : α × Nat) : Prop :=
  a.2 < b.2

namespace Ahead

instance [TransCmp order] [IsTrans α R] : IsTrans α (Ahead order R) where
  trans a b c hab hbc := by
    rcases hab with hab | ⟨hab, hr⟩
    case inl =>
      rcases hbc with hbc | ⟨hbc, -⟩
      case inl => exact .inl (TransCmp.lt_trans hab hbc)
      case inr => exact .inl (TransCmp.lt_of_lt_of_eq hab hbc)
    case inr =>
      rcases hbc with hbc | ⟨hbc, hr'⟩
      case inl => exact .inl (TransCmp.lt_of_eq_of_lt hab hbc)
      case inr => exact .inr ⟨TransCmp.eq_trans hab hbc, IsTrans.trans _ _ _ hr hr'⟩

instance [OrientedCmp order] [Asymm R] : Asymm (Ahead order R) where
  asymm a b hab hba := by
    have hs : order b a = (order a b).swap := OrientedCmp.eq_swap
    rcases hab with hab | ⟨hab, hr⟩
    case inl =>
      rw [Ahead, hs, hab] at hba
      simp at hba
    case inr =>
      rw [Ahead, hs, hab] at hba
      simp only [Ordering.swap_eq, reduceCtorEq, true_and, false_or] at hba
      exact Asymm.asymm _ _ hr hba

-- To go by one order and then by another is to go by both of them in one.
theorem then_iff : Ahead (fun a b => (second a b).then (first a b)) R a b ↔ Ahead second (Ahead first R) a b := by
  simp only [Ahead, Ordering.then_eq_lt, Ordering.then_eq_eq, and_assoc, or_assoc, and_or_left]

end Ahead

namespace Earlier

instance : IsTrans (α × Nat) Earlier where
  trans _ _ _ hab hbc := Nat.lt_trans hab hbc

instance : Asymm (@Earlier α) where
  asymm _ _ hab hba := Nat.lt_asymm hab hba

theorem pairwise_zipIdx (xs : List α) : xs.zipIdx.Pairwise Earlier := by
  have hp : (xs.zipIdx.map Prod.snd).Pairwise (· < ·) := by
    rw [List.zipIdx_map_snd]
    exact List.pairwise_lt_range'
  exact List.Pairwise.of_map Prod.snd (fun _ _ => id) hp

end Earlier

section Insert

theorem mem_insertDescending : a ∈ insertDescending order x xs ↔ a = x ∨ a ∈ xs :=
  (insertDescending_perm order x xs).mem_iff.trans List.mem_cons

-- An item is put between those it is after and those it is before.
theorem pairwise_insertDescending [IsTrans α R] (hlt : ∀ y ∈ ys, order x y = .lt → R x y)
    (hge : ∀ y ∈ ys, order x y ≠ .lt → R y x) (h : ys.Pairwise fun b a => R a b) :
    (insertDescending order x ys).Pairwise fun b a => R a b := by
  induction ys with
  | nil => exact List.pairwise_singleton _ x
  | cons y ys ih =>
    obtain ⟨hy, hys⟩ := List.pairwise_cons.mp h
    obtain ⟨hxy, hlt⟩ := List.forall_mem_cons.mp hlt
    obtain ⟨hyx, hge⟩ := List.forall_mem_cons.mp hge
    rw [insertDescending]
    split
    case isTrue hc =>
      refine List.pairwise_cons.mpr ⟨fun z hz => ?_, ih hlt hge hys⟩
      rcases mem_insertDescending.mp hz with rfl | hz
      case inl => exact hxy hc
      case inr => exact hy z hz
    case isFalse hc =>
      refine List.pairwise_cons.mpr ⟨?_, h⟩
      exact List.forall_mem_cons.mpr ⟨hyx hc, fun z hz => IsTrans.trans _ _ _ (hy z hz) (hyx hc)⟩

theorem map_insertDescending (f : β → α) (y : β) (ys : List β) :
    (insertDescending (fun a b => order (f a) (f b)) y ys).map f = insertDescending order (f y) (ys.map f) := by
  induction ys with
  | nil => rfl
  | cons z ys ih =>
    rw [List.map_cons, insertDescending, insertDescending]
    split
    case isTrue => rw [List.map_cons, ih]
    case isFalse => rfl

end Insert

theorem stableSort_concat (order : α → α → Ordering) (xs : List α) (x : α) :
    stableSort order (xs ++ [x]) = (insertDescending order x (stableSort order xs).reverse).reverse := by
  rw [stableSort, stableSort, List.foldl_append, List.reverse_reverse]
  rfl

-- Sorting looks at nothing but the order.
theorem stableSort_map (order : α → α → Ordering) (f : β → α) (ys : List β) :
    stableSort order (ys.map f) = (stableSort (fun a b => order (f a) (f b)) ys).map f := by
  induction ys using List.reverseRecOn with
  | nil => rfl
  | append_singleton ys y ih =>
    rw [List.map_append, List.map_singleton, stableSort_concat, stableSort_concat, ih, List.map_reverse,
      map_insertDescending, List.map_reverse]

-- Among equal items what was in a relation before still is.
theorem pairwise_stableSort [TransCmp order] [IsTrans α R] (h : xs.Pairwise R) :
    (stableSort order xs).Pairwise (Ahead order R) := by
  induction xs using List.reverseRecOn with
  | nil => exact .nil
  | append_singleton xs x ih =>
    obtain ⟨hxs, -, hx⟩ := List.pairwise_append.mp h
    rw [stableSort_concat, List.pairwise_reverse]
    apply pairwise_insertDescending
    case hlt => exact fun y _ hc => .inl hc
    case hge =>
      intro y hy hc
      have hy : y ∈ xs := (stableSort_perm order xs).mem_iff.mp (List.mem_reverse.mp hy)
      have hs : order y x = (order x y).swap := OrientedCmp.eq_swap
      cases ho : order x y with
      | lt => exact absurd ho hc
      | eq => exact .inr ⟨by rw [hs, ho]; rfl, hx y hy x (List.mem_singleton_self x)⟩
      | gt => exact .inl (by rw [hs, ho]; rfl)
    case h => exact List.pairwise_reverse.mp (by rw [List.reverse_reverse]; exact ih hxs)

-- What is in order, and was put in order from the same items, is the same.
theorem eq_of_pairwise [OrientedCmp order] [Asymm R] (hp : xs.Perm ys) (hx : xs.Pairwise (Ahead order R))
    (hy : ys.Pairwise (Ahead order R)) : xs = ys :=
  List.Perm.eq_of_pairwise (fun _ _ _ _ hab hba => absurd hba (Asymm.asymm _ _ hab)) hx hy hp

theorem transCmp_comap (h : TransCmp order) (f : β → α) : TransCmp fun a b => order (f a) (f b) where
  eq_swap    := OrientedCmp.eq_swap
  isLE_trans := TransCmp.isLE_trans

theorem isTotalOn_map (f : β → α) (ys : List β) :
    IsTotalOn order (ys.map f) ↔ IsTotalOn (fun a b => order (f a) (f b)) ys := by
  have hr : ∀ y, rankIn order (ys.map f) (f y) = rankIn (fun a b => order (f a) (f b)) ys y :=
    fun y => List.countP_map
  simp only [← goesByRank_iff, goesByRank_iff_forall, List.forall_mem_map, hr]

theorem canSort_map (f : β → α) (ys : List β) :
    CanSort order (ys.map f) ↔ CanSort (fun a b => order (f a) (f b)) ys := by
  rw [CanSort, CanSort, List.length_map, isTotalOn_map]

theorem transCmp_then (hf : TransCmp first) (hs : TransCmp second) :
    TransCmp fun a b => (second a b).then (first a b) :=
  inferInstanceAs (TransCmp (compareLex second first))

-- The sorted items with the places that they had before.
theorem exists_placed_of_transCmp (h : TransCmp order) (xs : List α) :
    ∃ placed : List (α × Nat), placed.Perm xs.zipIdx ∧ placed.map (·.1) = stableSort order xs ∧
      placed.Pairwise (Ahead (fun a b => order a.1 b.1) Earlier) := by
  have hf : TransCmp fun a b : α × Nat => order a.1 b.1 := transCmp_comap h Prod.fst
  refine ⟨stableSort (fun a b => order a.1 b.1) xs.zipIdx, stableSort_perm _ _, ?_, ?_⟩
  case refine_1 => rw [← stableSort_map, List.zipIdx_map_fst]
  case refine_2 => exact pairwise_stableSort (Earlier.pairwise_zipIdx xs)

theorem stableSort_stableSort_of_pairwise (hf : TransCmp first) (hs : TransCmp second) [IsTrans α R] [Asymm R]
    (h : xs.Pairwise R) :
    stableSort second (stableSort first xs) = stableSort (fun a b => (second a b).then (first a b)) xs := by
  have hb : TransCmp fun a b => (second a b).then (first a b) := transCmp_then hf hs
  have htwice : (stableSort second (stableSort first xs)).Pairwise (Ahead second (Ahead first R)) :=
    pairwise_stableSort (pairwise_stableSort h)
  have honce : (stableSort (fun a b => (second a b).then (first a b)) xs).Pairwise (Ahead _ R) := pairwise_stableSort h
  refine eq_of_pairwise ?_ htwice (honce.imp Ahead.then_iff.mp)
  exact ((stableSort_perm second _).trans (stableSort_perm first xs)).trans (stableSort_perm _ xs).symm

-- Sorting by one order and then by another is sorting by the latter and, where it finds items equal, by the former.
theorem stableSort_stableSort_of_transCmp (hf : TransCmp first) (hs : TransCmp second) (xs : List α) :
    stableSort second (stableSort first xs) = stableSort (fun a b => (second a b).then (first a b)) xs := by
  have hf' : TransCmp fun a b : α × Nat => first a.1 b.1 := transCmp_comap hf Prod.fst
  have hs' : TransCmp fun a b : α × Nat => second a.1 b.1 := transCmp_comap hs Prod.fst
  have hz : xs.zipIdx.map Prod.fst = xs := List.zipIdx_map_fst 0 xs
  rw [← hz, stableSort_map, stableSort_map, stableSort_map,
    stableSort_stableSort_of_pairwise hf' hs' (Earlier.pairwise_zipIdx xs)]

-- Where the first one of the items with a property came from: it is ahead of those that came before it, and behind none.
theorem exists_split_of_placed {q : α → Bool} {front rest : List (α × Nat)} {i : Nat}
    (hp : (front ++ (x, i) :: rest).Perm xs.zipIdx)
    (ha : (front ++ (x, i) :: rest).Pairwise (Ahead (fun a b => order a.1 b.1) Earlier)) (hf : ∀ a ∈ front, ¬q a.1) :
    ∃ before after, xs = before ++ x :: after ∧ (∀ y ∈ before, q y → order x y = .lt) ∧
      ∀ y ∈ after, q y → order x y = .lt ∨ order x y = .eq := by
  obtain ⟨-, hrest, -⟩ := List.pairwise_append.mp ha
  obtain ⟨before, after, hz⟩ := List.append_of_mem (hp.mem_iff.mp (List.mem_append_right front List.mem_cons_self))
  have he : (before ++ (x, i) :: after).Pairwise Earlier := hz ▸ Earlier.pairwise_zipIdx xs
  obtain ⟨-, hafter, hbefore⟩ := List.pairwise_append.mp he
  have hahead : ∀ a ∈ before ++ (x, i) :: after, q a.1 → a ≠ (x, i) →
      Ahead (fun a b => order a.1 b.1) Earlier (x, i) a := by
    intro a hm hq hne
    rw [← hz, ← hp.mem_iff] at hm
    rcases List.mem_append.mp hm with hm | hm
    case inl => exact absurd hq (hf a hm)
    case inr => exact (List.pairwise_cons.mp hrest).left a (List.mem_of_ne_of_mem hne hm)
  refine ⟨before.map (·.1), after.map (·.1), ?_, ?_, ?_⟩
  case refine_1 => rw [← List.zipIdx_map_fst 0 xs, hz, List.map_append, List.map_cons]
  case refine_2 =>
    refine List.forall_mem_map.mpr fun a hm hq => ?_
    have hlt : Earlier a (x, i) := hbefore a hm _ List.mem_cons_self
    have hne : a ≠ (x, i) := by rintro rfl; exact Nat.lt_irrefl _ hlt
    rcases hahead a (List.mem_append_left _ hm) hq hne with ho | ⟨-, hgt⟩
    case inl => exact ho
    case inr => exact absurd hgt (Nat.lt_asymm hlt)
  case refine_3 =>
    refine List.forall_mem_map.mpr fun a hm hq => ?_
    have hlt : Earlier (x, i) a := (List.pairwise_cons.mp hafter).left a hm
    have hne : a ≠ (x, i) := by rintro rfl; exact Nat.lt_irrefl _ hlt
    exact (hahead a (List.mem_append_right _ (List.mem_cons_of_mem _ hm)) hq hne).imp_right And.left

-- The same for orders in which only items with some property can be compared.
section Part

variable {p : α → Prop}

theorem exists_map_val (h : ∀ x ∈ xs, p x) : ∃ ys : List (Subtype p), ys.map Subtype.val = xs :=
  ⟨xs.attachWith p h, (List.attachWith_map_val (f := id) h).trans (List.map_id xs)⟩

theorem isTotalOn_of_forall (ho : TransCmp fun a b : Subtype p => order a.1 b.1) (h : ∀ x ∈ xs, p x) :
    IsTotalOn order xs :=
  transCmp_comap ho fun x : Subtype (· ∈ xs) => (⟨x.1, h x.1 x.2⟩ : Subtype p)

theorem exists_placed (ho : TransCmp fun a b : Subtype p => order a.1 b.1) (h : ∀ x ∈ xs, p x) :
    ∃ placed : List (α × Nat), placed.Perm xs.zipIdx ∧ placed.map (·.1) = stableSort order xs ∧
      placed.Pairwise (Ahead (fun a b => order a.1 b.1) Earlier) := by
  obtain ⟨ys, rfl⟩ := exists_map_val h
  obtain ⟨placed, hp, hm, ha⟩ := exists_placed_of_transCmp ho ys
  refine ⟨placed.map (Prod.map Subtype.val id), ?_, ?_, ?_⟩
  case refine_1 =>
    rw [List.zipIdx_map]
    exact hp.map _
  case refine_2 =>
    rw [stableSort_map, ← hm, List.map_map, List.map_map]
    rfl
  case refine_3 => exact List.pairwise_map.mpr ha

theorem exists_first {q : α → Bool} (ho : TransCmp fun a b : Subtype p => order a.1 b.1) (h : ∀ x ∈ xs, p x)
    (hq : ∃ x ∈ xs, q x) :
    ∃ front x rest before after, stableSort order xs = front ++ x :: rest ∧ xs = before ++ x :: after ∧ q x ∧
      (∀ y ∈ front, ¬q y ∧ (order y x = .lt ∨ order y x = .eq)) ∧ (∀ y ∈ before, q y → order x y = .lt) ∧
      ∀ y ∈ after, q y → order x y = .lt ∨ order x y = .eq := by
  obtain ⟨placed, hp, hm, ha⟩ := exists_placed ho h
  have hf : ∃ a, placed.find? (q ·.1) = some a := by
    obtain ⟨x, hx, hqx⟩ := hq
    rw [← (stableSort_perm order xs).mem_iff, ← hm] at hx
    obtain ⟨a, hma, rfl⟩ := List.mem_map.mp hx
    exact Option.isSome_iff_exists.mp (List.find?_isSome.mpr ⟨a, hma, hqx⟩)
  obtain ⟨⟨x, i⟩, hf⟩ := hf
  obtain ⟨hqx, front, rest, rfl, hfront⟩ := List.find?_eq_some_iff_append.mp hf
  have hfront : ∀ a ∈ front, ¬q a.1 := fun a hma => by simpa using hfront a hma
  obtain ⟨before, after, hs, hbefore, hafter⟩ := exists_split_of_placed hp ha hfront
  refine ⟨front.map (·.1), x, rest.map (·.1), before, after, ?_, hs, hqx, ?_, hbefore, hafter⟩
  case refine_1 => rw [← hm, List.map_append, List.map_cons]
  case refine_2 =>
    refine List.forall_mem_map.mpr fun a hma => ⟨hfront a hma, ?_⟩
    exact ((List.pairwise_append.mp ha).right.right a hma _ List.mem_cons_self).imp_right And.left

theorem stableSort_stableSort (hf : TransCmp fun a b : Subtype p => first a.1 b.1)
    (hs : TransCmp fun a b : Subtype p => second a.1 b.1) (h : ∀ x ∈ xs, p x) :
    stableSort second (stableSort first xs) = stableSort (fun a b => (second a b).then (first a b)) xs := by
  obtain ⟨ys, rfl⟩ := exists_map_val h
  rw [stableSort_map, stableSort_map, stableSort_map, stableSort_stableSort_of_transCmp hf hs]

end Part

end RowPipeline
