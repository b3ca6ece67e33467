import RowPipeline.Proofs.Method.Extreme
import RowPipeline.Proofs.Stage.SortedRows

namespace RowPipeline

open Value

namespace Direction

variable {direction : Direction} {a b : Value}

-- The method that looks for the value that is sorted first, and how it compares values with the best one so far.
def method : Direction → Method
  | ascending => .min
  | descending => .max

def wanted : Direction → Ordering
  | ascending => .lt
  | descending => .gt

theorem wanted_ne_eq : (direction : Direction) → direction.wanted ≠ .eq
  | ascending | descending => nofun

theorem call_method (direction : Direction) (values : List Value) :
    direction.method.call values = .ok ((Method.extreme direction.wanted values).getD .null) := by
  cases direction <;> rfl

theorem order_eq_lt : direction.order a b = .lt ↔ a.sortOrder b = direction.wanted := by
  cases direction with
  | ascending => exact .rfl
  | descending => exact sortOrder_eq_gt.symm

theorem order_eq_eq : direction.order a b = .eq ↔ a.sortOrder b = .eq := by
  cases direction with
  | ascending => exact .rfl
  | descending => rw [order, sortOrder_swap a b, Ordering.swap_eq_eq]

end Direction

namespace OrderItem

variable {access : Access} {item : OrderItem} {rows sorted : List Value} {row value : Value}

-- Of the rows with a key, the one that is ahead of those before it, and not behind any other.
def Leads (access : Access) (item : OrderItem) (rows : List Value) (row : Value) : Prop :=
  ∃ before after, rows = before ++ row :: after ∧
    (∀ r ∈ before, access.read r item.path = .ok .null ∨ item.Compares access row r .lt) ∧
    ∀ r ∈ after, access.read r item.path = .ok .null ∨ item.Compares access row r .lt ∨ item.Compares access row r .eq

-- The value is the key of the leading row, which sorting puts right behind those that are null. Without one it is null.
structure IsFirstKey (access : Access) (item : OrderItem) (rows sorted : List Value) (value : Value) : Prop where
  eq_null : value = .null ↔ ∀ row ∈ rows, access.read row item.path = .ok .null
  leading : value ≠ .null → ∃ nulls row rest, sorted = nulls ++ row :: rest ∧
    (∀ r ∈ nulls, access.read r item.path = .ok .null) ∧ access.read row item.path = .ok value ∧
    Leads access item rows row

section Single

theorem sortable_singleton : Sortable access [item] row ↔
    ∃ key, access.read row item.path = .ok key ∧ key.ComparedExactly :=
  List.forall_mem_singleton

theorem Sortable.read_eq_null (h : Sortable access [item] row) :
    access.read row item.path = .ok .null ↔ (item.key access row).isNull := by
  rw [h.read List.mem_cons_self, Except.ok.injEq, isNull_iff]

end Single

-- No other key is ahead of that of the leading row, and keys that are compared exactly are equal only if they are one.
theorem extreme_keys (h : ∀ row ∈ rows, Sortable access [item] row) (hr : row ∈ rows)
    (hn : ¬(item.key access row).isNull)
    (hl : ∀ r ∈ rows, ¬(item.key access r).isNull →
      (item.direction.order (item.key access row) (item.key access r)).isLE) :
    Method.extreme item.direction.wanted (rows.map (item.key access)) = some (item.key access row) := by
  have hk : item.key access row ∈ rows.map (item.key access) := List.mem_map_of_mem hr
  have ⟨m, he, hm⟩ := Method.exists_isExtreme item.direction.wanted_ne_eq ⟨_, hk, hn⟩
  obtain ⟨r, hmem, rfl⟩ := List.mem_map.mp hm.mem
  have hlt := mt Direction.order_eq_lt.mp (hm.unsurpassed _ hk hn)
  have heq : item.direction.order (item.key access row) (item.key access r) = .eq := by
    have hle := hl r hmem hm.not_isNull
    cases ho : item.direction.order (item.key access row) (item.key access r) with
    | lt => exact absurd ho hlt
    | eq => rfl
    | gt => rw [ho] at hle; contradiction
  rw [he, eq_of_sortOrder_eq ((h row hr).comparedExactly List.mem_cons_self)
    ((h r hmem).comparedExactly List.mem_cons_self) (Direction.order_eq_eq.mp heq)]

-- If there is a key at all, there is a leading row, and only nulls are sorted in front of it.
theorem exists_leading (h : ∀ row ∈ rows, Sortable access [item] row)
    (hk : ¬∀ row ∈ rows, (item.key access row).isNull) :
    ∃ front row rest, stableSort (orderRows access [item]) rows = front ++ row :: rest ∧
      (∀ r ∈ front, (item.key access r).isNull ∧
        (item.direction.order (item.key access r) (item.key access row)).isLE) ∧
      ¬(item.key access row).isNull ∧ Leads access item rows row ∧
      Method.extreme item.direction.wanted (rows.map (item.key access)) = some (item.key access row) := by
  let q (row : Value) : Bool := !(item.key access row).isNull
  have hq : ∀ r, q r ↔ ¬(item.key access r).isNull := by simp [q]
  simp only [not_forall, exists_prop, ← hq] at hk
  obtain ⟨front, row, rest, before, after, hs, rfl, hqr, hfront, hbefore, hafter⟩ :=
    exists_first (transCmp_orderRows fun _ => id) h hk
  simp only [orderRows_singleton, hq, not_not, ← Ordering.isLE_iff_eq_lt_or_eq_eq] at hqr hfront hbefore hafter
  obtain ⟨hsb, hsa⟩ := List.forall_mem_append.mp h
  obtain ⟨hsr, hsa⟩ := List.forall_mem_cons.mp hsa
  refine ⟨front, row, rest, hs, hfront, hqr, ⟨before, after, rfl, fun r hr => ?_, fun r hr => ?_⟩, ?_⟩
  case refine_1 =>
    rw [(hsb r hr).read_eq_null, or_iff_not_imp_left]
    exact fun hn => hbefore r hr hn ▸ hsr.compares (hsb r hr) List.mem_cons_self
  case refine_2 =>
    rw [(hsa r hr).read_eq_null, or_iff_not_imp_left]
    intro hn
    have hc := hsr.compares (hsa r hr) List.mem_cons_self
    rcases Ordering.isLE_iff_eq_lt_or_eq_eq.mp (hafter r hr hn) with ho | ho
    case inl => exact .inl (ho ▸ hc)
    case inr => exact .inr (ho ▸ hc)
  case refine_3 =>
    refine extreme_keys h (List.mem_append_right before List.mem_cons_self) hqr ?_
    refine List.forall_mem_append.mpr ⟨fun r hr hn => ?_, List.forall_mem_cons.mpr ⟨fun _ => ?_, hafter⟩⟩
    case refine_1 => rw [hbefore r hr hn]; rfl
    case refine_2 => rw [Direction.order_eq_eq.mpr (sortOrder_self _)]; rfl

theorem Leads.mem (h : Leads access item rows row) : row ∈ rows := by
  have ⟨before, after, hs, _⟩ := h
  exact hs ▸ List.mem_append_right before List.mem_cons_self

theorem extreme_keys_of_isNull (h : ∀ row ∈ rows, (item.key access row).isNull) :
    Method.extreme item.direction.wanted (rows.map (item.key access)) = none :=
  Method.extreme_of_isNull item.direction.wanted_ne_eq (List.forall_mem_map.mpr h)

theorem isFirstKey_extreme (h : ∀ row ∈ rows, Sortable access [item] row) :
    IsFirstKey access item rows (stableSort (orderRows access [item]) rows)
      ((Method.extreme item.direction.wanted (rows.map (item.key access))).getD .null) := by
  by_cases hk : ∀ row ∈ rows, (item.key access row).isNull
  case pos =>
    rw [extreme_keys_of_isNull hk]
    constructor
    case eq_null => exact iff_of_true rfl fun row hr => (h row hr).read_eq_null.mpr (hk row hr)
    case leading => exact absurd rfl
  case neg =>
    obtain ⟨front, row, rest, hs, hfront, hn, hl, he⟩ := exists_leading h hk
    have hr : row ∈ rows := hl.mem
    rw [he, hs]
    constructor
    case eq_null => exact iff_of_false (mt isNull_iff.mpr hn) fun ha => hn ((h row hr).read_eq_null.mp (ha row hr))
    case leading =>
      refine fun _ => ⟨front, row, rest, rfl, fun r hm => ?_, (h row hr).read List.mem_cons_self, hl⟩
      have hm' : r ∈ rows := (stableSort_perm _ rows).mem_iff.mp (hs ▸ List.mem_append_left _ hm)
      exact (h r hm').read_eq_null.mpr (hfront r hm).left

-- From the greatest value downwards nulls come last.
theorem read_first_of_descending {rest : List Value} (hd : item.direction = .descending)
    (h : ∀ row ∈ rows, Sortable access [item] row) (hs : stableSort (orderRows access [item]) rows = row :: rest) :
    access.read row item.path =
      .ok ((Method.extreme item.direction.wanted (rows.map (item.key access))).getD .null) := by
  have hr : row ∈ rows := (stableSort_perm _ rows).mem_iff.mp (hs ▸ List.mem_cons_self)
  by_cases hk : ∀ row ∈ rows, (item.key access row).isNull
  case pos =>
    rw [extreme_keys_of_isNull hk]
    exact (h row hr).read_eq_null.mpr (hk row hr)
  case neg =>
    obtain ⟨front, row', rest', hs', hfront, hn, _, he⟩ := exists_leading h hk
    cases front with
    | nil =>
      cases hs.symm.trans hs'
      rw [he, (h row hr).read List.mem_cons_self]
      rfl
    | cons r front =>
      have ⟨hnull, hle⟩ := hfront r List.mem_cons_self
      rw [hd] at hle
      exact absurd (isNull_of_isLE hle hnull) hn

end OrderItem

namespace Clause

open OrderItem

variable {access : Access} {registry : Registry} {path : PropertyPath} {rows : List Value}

theorem makes_extreme {name : String} (direction : Direction) (hm : registry.get? name = some direction.method)
    (output : String) (h : ∀ row ∈ rows, Sortable access [⟨path, direction⟩] row) :
    Makes access registry [.aggregate [.property path name output]] rows
      [.object [(output,
        (Method.extreme direction.wanted (rows.map (key access · ⟨path, direction⟩))).getD .null)]] := by
  refine makes_aggregate_property hm ?_ (direction.call_method _)
  rw [List.forall₂_map_right_iff, List.forall₂_same]
  exact fun row hr => (h row hr).read List.mem_cons_self

-- The least value is the key of the first row that has one in ascending order, and the greatest one that of the first
-- row in descending order. Of rows with equal keys the first one comes first in either order.
theorem min_max_orderBy (hmin : registry.get? "min" = some .min) (hmax : registry.get? "max" = some .max)
    (output : String) (h : ∀ row ∈ rows, ∃ value, access.read row path = .ok value ∧ value.ComparedExactly) :
    ∃ least greatest ascending descending,
      Makes access registry [.aggregate [.property path "min" output]] rows [.object [(output, least)]] ∧
      Makes access registry [.aggregate [.property path "max" output]] rows [.object [(output, greatest)]] ∧
      Makes access registry [.orderBy [⟨path, .ascending⟩]] rows ascending ∧
      Makes access registry [.orderBy [⟨path, .descending⟩]] rows descending ∧
      IsFirstKey access ⟨path, .ascending⟩ rows ascending least ∧
      IsFirstKey access ⟨path, .descending⟩ rows descending greatest ∧
      ∀ row rest, descending = row :: rest → access.read row path = .ok greatest := by
  have hs : ∀ direction, ∀ row ∈ rows, Sortable access [⟨path, direction⟩] row :=
    fun direction row hr => sortable_singleton.mpr (h row hr)
  exact ⟨_, _, _, _, makes_extreme .ascending hmin output (hs _), makes_extreme .descending hmax output (hs _),
    makes_orderBy_of_sortable (hs _), makes_orderBy_of_sortable (hs _), isFirstKey_extreme (hs _),
    isFirstKey_extreme (hs _), fun _ _ => read_first_of_descending rfl (hs _)⟩

theorem min_max_orderBy_ties :
    let access : Access := ⟨.exact, false⟩
    let row (k : Value) (n : Int) : Value := .object [("K", k), ("N", .int n)]
    let rows := [row .null 0, row (.int 3) 1, row (.string "b") 2, row (.int 1) 3, row (.string "b") 4, row (.int 1) 5]
    let ascending :=
      [row .null 0, row (.int 1) 3, row (.int 1) 5, row (.int 3) 1, row (.string "b") 2, row (.string "b") 4]
    let descending :=
      [row (.string "b") 2, row (.string "b") 4, row (.int 3) 1, row (.int 1) 3, row (.int 1) 5, row .null 0]
    (∀ row ∈ rows, ∃ value, access.read row ["K"] = .ok value ∧ value.ComparedExactly) ∧
      Makes access .builtins [.aggregate [.property ["K"] "min" "M"]] rows [.object [("M", .int 1)]] ∧
      Makes access .builtins [.aggregate [.property ["K"] "max" "M"]] rows [.object [("M", .string "b")]] ∧
      Makes access .builtins [.orderBy [⟨["K"], .ascending⟩]] rows ascending ∧
      Makes access .builtins [.orderBy [⟨["K"], .descending⟩]] rows descending ∧
      IsFirstKey access ⟨["K"], .ascending⟩ rows ascending (.int 1) ∧
      IsFirstKey access ⟨["K"], .descending⟩ rows descending (.string "b") := by
  intro access row rows ascending descending
  have hi : ∀ n, Value.inInt64 n → ∃ value, access.read (row (.int n) 0) ["K"] = .ok value ∧ value.ComparedExactly :=
    fun n hn => ⟨_, rfl, .int hn⟩
  have ht : ∀ t, (Value.string t).ComparedExactly := fun _ => nofun
  have hn : Value.null.ComparedExactly := nofun
  have hr : ∀ row ∈ rows, ∃ value, access.read row ["K"] = .ok value ∧ value.ComparedExactly := by
    simp only [rows, List.forall_mem_cons]
    exact ⟨⟨_, rfl, hn⟩, hi 3 rfl, ⟨_, rfl, ht _⟩, hi 1 rfl, ⟨_, rfl, ht _⟩, hi 1 rfl, nofun⟩
  have ⟨_, _, _, _, hl, hg, ha, hd, hfa, hfd, _⟩ := @min_max_orderBy access .builtins ["K"] rows rfl rfl "M" hr
  have ⟨_, hlc, hle⟩ := hl
  have ⟨_, hgc, hge⟩ := hg
  have ⟨_, hac, hae⟩ := ha
  have ⟨_, hdc, hde⟩ := hd
  cases hlc
  cases hle
  cases hgc
  cases hge
  cases hac
  cases hae
  cases hdc
  cases hde
  exact ⟨hr, hl, hg, ha, hd, hfa, hfd⟩

end Clause
end RowPipeline
