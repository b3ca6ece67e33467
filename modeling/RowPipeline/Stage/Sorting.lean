import RowPipeline.Row.Condition

namespace RowPipeline

open Std

-- Inserts into a list whose greatest item comes first, in front of all items it is not less than.
def insertDescending (order : α → α → Ordering) (x : α) : List α → List α
  | [] => [x]
  | y :: ys => if order x y = .lt then y :: insertDescending order x ys else x :: y :: ys

-- Equal items keep their places.
def stableSort (order : α → α → Ordering) (xs : List α) : List α :=
  (xs.foldl (fun sorted x => insertDescending order x sorted) []).reverse

-- Any two of the items can be compared, and comparisons go on from one item to the next.
def IsTotalOn (order : α → α → Ordering) (xs : List α) : Prop :=
  TransCmp fun a b : Subtype (· ∈ xs) => order a.1 b.1

-- How many of the items are less.
def rankIn (order : α → α → Ordering) (xs : List α) (x : α) : Nat :=
  xs.countP fun y => order y x = .lt

-- The items compare as their ranks do, which are counted once.
def goesByRank (order : α → α → Ordering) (xs : List α) : Bool :=
  let ranked := xs.map fun x => (x, rankIn order xs x)
  ranked.all fun a => ranked.all fun b => order a.1 b.1 = compare a.2 b.2

section Rank

variable {order : α → α → Ordering} {xs : List α} {a b : α}

theorem goesByRank_iff_forall : goesByRank order xs ↔
    ∀ a ∈ xs, ∀ b ∈ xs, order a b = compare (rankIn order xs a) (rankIn order xs b) := by
  simp [goesByRank]

theorem rankIn_lt [TransCmp order] (ha : a ∈ xs) (h : order a b = .lt) : rankIn order xs a < rankIn order xs b := by
  have hle : ∀ ys, rankIn order ys a ≤ rankIn order ys b := by
    refine fun ys => List.countP_mono_left fun y _ hy => ?_
    exact decide_eq_true (TransCmp.lt_trans (of_decide_eq_true hy) h)
  obtain ⟨front, rest, rfl⟩ := List.append_of_mem ha
  have hf := hle front
  have hr := hle rest
  have haa : order a a = .eq := ReflCmp.compare_self
  simp only [rankIn, List.countP_append, List.countP_cons, haa, h] at hf hr ⊢
  rw [if_neg (by decide), if_pos (by decide)]
  omega

theorem rankIn_eq [TransCmp order] (h : order a b = .eq) : rankIn order xs a = rankIn order xs b := by
  have hc : ∀ y, order y a = order y b := fun _ => TransCmp.congr_right h
  simp only [rankIn, hc]

theorem order_eq_compare_rankIn [TransCmp order] (ha : a ∈ xs) (hb : b ∈ xs) :
    order a b = compare (rankIn order xs a) (rankIn order xs b) := by
  cases h : order a b with
  | lt => exact (Nat.compare_eq_lt.mpr (rankIn_lt ha h)).symm
  | eq => exact (Nat.compare_eq_eq.mpr (rankIn_eq h)).symm
  | gt => exact (Nat.compare_eq_gt.mpr (rankIn_lt hb (OrientedCmp.gt_iff_lt.mp h))).symm

theorem goesByRank_iff : goesByRank order xs ↔ IsTotalOn order xs := by
  rw [goesByRank_iff_forall]
  constructor
  case mp =>
    intro h
    have hc : ∀ a b : Subtype (· ∈ xs), order a.1 b.1 = compare (rankIn order xs a.1) (rankIn order xs b.1) :=
      fun a b => h a.1 a.2 b.1 b.2
    refine show TransCmp _ from { eq_swap := ?_, isLE_trans := ?_ }
    case refine_1 =>
      intro a b
      rw [hc, hc]
      exact OrientedOrd.eq_swap
    case refine_2 =>
      intro a b c
      rw [hc, hc, hc]
      exact TransOrd.isLE_trans
  case mpr =>
    intro h a ha b hb
    have hr : ∀ x : Subtype (· ∈ xs),
        rankIn (fun a b : Subtype (· ∈ xs) => order a.1 b.1) xs.attach x = rankIn order xs x.1 :=
      fun x => List.countP_attach (p := fun y => decide (order y x.1 = .lt))
    have hc := @order_eq_compare_rankIn _ _ xs.attach ⟨a, ha⟩ ⟨b, hb⟩ h (List.mem_attach ..) (List.mem_attach ..)
    rwa [hr, hr] at hc

end Rank

instance (order : α → α → Ordering) (xs : List α) : Decidable (IsTotalOn order xs) :=
  decidable_of_decidable_of_iff goesByRank_iff

-- As many items as this are sorted by insertion, whatever the order is.
def insertionLimit : Nat :=
  20

-- More items are only sorted by an order that is total on them. With any other, the sort may break off, and nothing is
-- known of where the items end up.
def CanSort (order : α → α → Ordering) (xs : List α) : Prop :=
  xs.length ≤ insertionLimit ∨ IsTotalOn order xs

instance (order : α → α → Ordering) (xs : List α) : Decidable (CanSort order xs) :=
  inferInstanceAs (Decidable (_ ∨ _))

def stableSort? (order : α → α → Ordering) (xs : List α) : Option (List α) :=
  if CanSort order xs then some (stableSort order xs) else none

theorem stableSort?_eq_some {order : α → α → Ordering} {xs ys : List α} :
    stableSort? order xs = some ys ↔ CanSort order xs ∧ stableSort order xs = ys := by
  rw [stableSort?]
  split <;> simp [*]

theorem stableSort?_eq_none {order : α → α → Ordering} {xs : List α} :
    stableSort? order xs = none ↔ ¬CanSort order xs := by
  rw [stableSort?]
  split <;> simp [*]

theorem insertDescending_perm (order : α → α → Ordering) (x : α) (xs : List α) :
    (insertDescending order x xs).Perm (x :: xs) := by
  induction xs with
  | nil => exact .refl _
  | cons y ys ih =>
    simp only [insertDescending]
    split
    · exact (ih.cons y).trans (.swap x y ys)
    · exact .refl _

-- Sorting moves items, whatever the order is.
theorem stableSort_perm (order : α → α → Ordering) (xs : List α) :
    (stableSort order xs).Perm xs := by
  suffices h : ∀ acc : List α,
      (xs.foldl (fun sorted x => insertDescending order x sorted) acc).Perm (acc ++ xs) from
    (List.reverse_perm _).trans (h [])
  induction xs with
  | nil => intro acc; simp
  | cons x xs ih =>
    intro acc
    refine (ih _).trans ?_
    refine ((insertDescending_perm order x acc).append_right xs).trans ?_
    exact List.perm_middle.symm

namespace Direction

def order (direction : Direction) (a b : Value) : Ordering :=
  match direction with
  | ascending => a.sortOrder b
  | descending => b.sortOrder a

end Direction

namespace OrderItem

-- The first item on which the keys differ decides.
def orderKeys : List OrderItem → List Value → List Value → Ordering
  | item :: items, a :: as, b :: bs => (item.direction.order a b).then (orderKeys items as bs)
  | _, _, _ => .eq

end OrderItem
end RowPipeline
