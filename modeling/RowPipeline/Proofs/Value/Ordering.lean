import RowPipeline.Value.Order
import RowPipeline.Proofs.Value.Text

namespace RowPipeline.Value

open Binary64 Std

variable {a b c : Value} {i j m n : Int}

-- The integer that a value is, if it is one that others of its kind are compared with exactly.
def int64? : Value → Option Int
  | int n => if inInt64 n then some n else none
  | _ => none

-- The text by which a value that is no number is sorted among those of its kind.
def sortText : Value → String
  | string s => s
  | v => v.text

theorem int64?_eq_some : a.int64? = some n ↔ a = int n ∧ inInt64 n := by
  cases a with
  | int k =>
    simp only [int64?, Option.ite_none_right_eq_some, Option.some.injEq, int.injEq]
    constructor
    case mp => rintro ⟨hk, rfl⟩; exact ⟨rfl, hk⟩
    case mpr => rintro ⟨rfl, hk⟩; exact ⟨hk, rfl⟩
  | _ => exact iff_of_false nofun fun h => nomatch h.left

theorem exists_signedUnits? : a.isNumber ↔ ∃ i, a.signedUnits? = some i := by
  cases a <;> simp [isNumber, signedUnits?]

theorem signedUnits?_of_int64? (h : a.int64? = some n) : a.signedUnits? = some (signedOfInt n) := by
  rw [(int64?_eq_some.mp h).left]
  rfl

-- Two integers of 64 bits are compared exactly, any other two numbers are not.
theorem int64?_cases (a b : Value) :
    (a.int64? = none ∨ b.int64? = none) ∨ ∃ m n, a.int64? = some m ∧ b.int64? = some n := by
  cases a.int64? with
  | none => exact .inl (.inl rfl)
  | some m =>
    cases b.int64? with
    | none => exact .inl (.inr rfl)
    | some n => exact .inr ⟨m, n, rfl, rfl⟩

theorem rank_of_isNumber (h : a.isNumber) : a.rank = 2 := by
  cases a with
  | int | float => rfl
  | _ => cases h

theorem isNumber_of_rank (h : a.rank = b.rank) (hb : b.isNumber) : a.isNumber := by
  rw [rank_of_isNumber hb] at h
  cases a with
  | int | float => rfl
  | _ => cases h

theorem compareNumbers?_of_int64 (ha : a.int64? = some m) (hb : b.int64? = some n) :
    compareNumbers? a b = some (compare m n) := by
  obtain ⟨rfl, hm⟩ := int64?_eq_some.mp ha
  obtain ⟨rfl, hn⟩ := int64?_eq_some.mp hb
  simp [compareNumbers?, hm, hn]

theorem compareNumbers?_of_units (ha : a.signedUnits? = some i) (hb : b.signedUnits? = some j)
    (h : a.int64? = none ∨ b.int64? = none) : compareNumbers? a b = some (compare i j) := by
  cases a with
  | int m =>
    cases b with
    | int n =>
      have hmn : ¬(inInt64 m && inInt64 n) := by
        simp only [int64?, ite_eq_right_iff, reduceCtorEq, imp_false] at h
        rw [Bool.and_eq_true]
        exact Decidable.not_and_iff_or_not.mpr h
      cases ha
      cases hb
      exact if_neg hmn
    | _ => simp [compareNumbers?, ha, hb]
  | _ => simp [compareNumbers?, ha, hb]

theorem compare?_of_isNumber (h : a.isNumber) : a.compare? b = compareNumbers? a b := by
  cases a with
  | int | float => cases b <;> rfl
  | _ => cases h

theorem sortOrder_of_rank_eq (h : a.rank = b.rank) :
    a.sortOrder b = (a.compare? b).getD (compare a.text b.text) := by
  rw [sortOrder, h, compare_self]
  rfl

-- Among values of one kind that are no numbers, sorting is by texts.
theorem sortOrder_of_not_isNumber (h : a.rank = b.rank) (hn : ¬a.isNumber) :
    a.sortOrder b = compare a.sortText b.sortText := by
  rw [sortOrder_of_rank_eq h]
  cases a with
  | null =>
    cases b with
    | null => exact compare_self.symm
    | _ => cases h
  | bool p =>
    cases b with
    | bool q => cases p <;> cases q <;> rfl
    | _ => cases h
  | string s =>
    cases b with
    | string t => rfl
    | _ => cases h
  | array vs =>
    cases b with
    | array ws => rfl
    | _ => cases h
  | object ms =>
    cases b with
    | object ns => rfl
    | _ => cases h
  | int | float => exact absurd rfl hn

section Numbers

theorem sortOrder_int64 (ha : a.int64? = some m) (hb : b.int64? = some n) : a.sortOrder b = compare m n := by
  have hna := exists_signedUnits?.mpr ⟨_, signedUnits?_of_int64? ha⟩
  have hnb := exists_signedUnits?.mpr ⟨_, signedUnits?_of_int64? hb⟩
  rw [sortOrder_of_rank_eq ((rank_of_isNumber hna).trans (rank_of_isNumber hnb).symm), compare?_of_isNumber hna,
    compareNumbers?_of_int64 ha hb]
  rfl

theorem sortOrder_units (ha : a.signedUnits? = some i) (hb : b.signedUnits? = some j)
    (h : a.int64? = none ∨ b.int64? = none) : a.sortOrder b = compare i j := by
  have hna := exists_signedUnits?.mpr ⟨i, ha⟩
  have hnb := exists_signedUnits?.mpr ⟨j, hb⟩
  rw [sortOrder_of_rank_eq ((rank_of_isNumber hna).trans (rank_of_isNumber hnb).symm), compare?_of_isNumber hna,
    compareNumbers?_of_units ha hb h]
  rfl

-- Rounding never turns two numbers around.
theorem units_le_of_isLE (ha : a.signedUnits? = some i) (hb : b.signedUnits? = some j) (h : (a.sortOrder b).isLE) :
    i ≤ j := by
  rcases int64?_cases a b with hx | ⟨m, n, hm, hn⟩
  case inl => rwa [sortOrder_units ha hb hx, Int.isLE_compare] at h
  case inr =>
    rw [sortOrder_int64 hm hn, Int.isLE_compare] at h
    cases ha.symm.trans (signedUnits?_of_int64? hm)
    cases hb.symm.trans (signedUnits?_of_int64? hn)
    exact signedOfInt_mono h

end Numbers

theorem sortOrder_self (a : Value) : a.sortOrder a = .eq := by
  by_cases hn : a.isNumber
  case neg => rw [sortOrder_of_not_isNumber rfl hn, compare_self]
  case pos =>
    have ⟨i, ha⟩ := exists_signedUnits?.mp hn
    cases hm : a.int64? with
    | none => rw [sortOrder_units ha ha (.inl hm), compare_self]
    | some m => rw [sortOrder_int64 hm hm, compare_self]

theorem sortOrder_swap_of_rank_eq (h : a.rank = b.rank) : b.sortOrder a = (a.sortOrder b).swap := by
  by_cases hn : a.isNumber
  case neg =>
    rw [sortOrder_of_not_isNumber h hn, sortOrder_of_not_isNumber h.symm (mt (isNumber_of_rank h) hn)]
    exact OrientedCmp.eq_swap
  case pos =>
    have ⟨i, ha⟩ := exists_signedUnits?.mp hn
    have ⟨j, hb⟩ := exists_signedUnits?.mp (isNumber_of_rank h.symm hn)
    rcases int64?_cases a b with hx | ⟨m, n, hm, hn⟩
    case inl =>
      rw [sortOrder_units ha hb hx, sortOrder_units hb ha hx.symm]
      exact OrientedCmp.eq_swap
    case inr =>
      rw [sortOrder_int64 hm hn, sortOrder_int64 hn hm]
      exact OrientedCmp.eq_swap

theorem sortOrder_swap (a b : Value) : b.sortOrder a = (a.sortOrder b).swap := by
  by_cases h : a.rank = b.rank
  case pos => exact sortOrder_swap_of_rank_eq h
  case neg =>
    have hc : compare b.rank a.rank = (compare a.rank b.rank).swap := OrientedCmp.eq_swap
    have hn : compare a.rank b.rank ≠ .eq := mt LawfulEqCmp.eq_of_compare h
    rw [sortOrder, sortOrder, hc]
    cases hr : compare a.rank b.rank with
    | eq => exact absurd hr hn
    | lt | gt => rfl

-- Kinds come in their order.
theorem rank_le_of_isLE (h : (a.sortOrder b).isLE) : a.rank ≤ b.rank := by
  rw [sortOrder, Ordering.isLE_then_iff_and, Nat.isLE_compare] at h
  exact h.left

theorem isLE_of_rank_lt (h : a.rank < b.rank) : (a.sortOrder b).isLE := by
  rw [sortOrder, Nat.compare_eq_lt.mpr h]
  rfl

-- Nothing but null comes before null.
theorem isNull_of_isLE (h : (a.sortOrder b).isLE) (hb : b.isNull) : a.isNull := by
  have hr := rank_le_of_isLE h
  rw [isNull_iff.mp hb] at hr
  cases a with
  | null => rfl
  | _ => cases hr

-- Two integers that are compared exactly, the greater one first, with a number between that is not compared
-- exactly. Both integers are rounded to it.
def Confounds (a b c : Value) : Prop :=
  ∃ m n, a.int64? = some m ∧ c.int64? = some n ∧ n < m ∧ b.int64? = none ∧
    b.signedUnits? = some (signedOfInt m) ∧ signedOfInt n = signedOfInt m

theorem Confounds.sortOrder_eq (h : Confounds a b c) : a.sortOrder b = .eq ∧ b.sortOrder c = .eq := by
  have ⟨m, n, ha, hc, _, hb, hu, he⟩ := h
  rw [sortOrder_units (signedUnits?_of_int64? ha) hu (.inr hb), sortOrder_units hu (signedUnits?_of_int64? hc) (.inl hb),
    he]
  exact ⟨compare_self, compare_self⟩

theorem Confounds.not_trans (h : Confounds a b c) :
    (a.sortOrder b).isLE ∧ (b.sortOrder c).isLE ∧ ¬(a.sortOrder c).isLE := by
  have ⟨m, n, ha, hc, hlt, _⟩ := h
  have ⟨hab, hbc⟩ := h.sortOrder_eq
  rw [hab, hbc, sortOrder_int64 ha hc, Int.isLE_compare]
  exact ⟨rfl, rfl, Int.not_le.mpr hlt⟩

theorem isLE_trans_of_isNumber (ha : a.isNumber) (hb : b.isNumber) (hc : c.isNumber) (h : ¬Confounds a b c)
    (hab : (a.sortOrder b).isLE) (hbc : (b.sortOrder c).isLE) : (a.sortOrder c).isLE := by
  have ⟨i, hi⟩ := exists_signedUnits?.mp ha
  have ⟨j, hj⟩ := exists_signedUnits?.mp hb
  have ⟨k, hk⟩ := exists_signedUnits?.mp hc
  have hij := units_le_of_isLE hi hj hab
  have hjk := units_le_of_isLE hj hk hbc
  rcases int64?_cases a c with hx | ⟨m, n, hm, hn⟩
  case inl =>
    rw [sortOrder_units hi hk hx, Int.isLE_compare]
    exact Int.le_trans hij hjk
  case inr =>
    cases hl : b.int64? with
    | some l =>
      rw [sortOrder_int64 hm hl, Int.isLE_compare] at hab
      rw [sortOrder_int64 hl hn, Int.isLE_compare] at hbc
      rw [sortOrder_int64 hm hn, Int.isLE_compare]
      exact Int.le_trans hab hbc
    | none =>
      rw [sortOrder_int64 hm hn, Int.isLE_compare]
      cases hi.symm.trans (signedUnits?_of_int64? hm)
      cases hk.symm.trans (signedUnits?_of_int64? hn)
      -- The units are those of both integers, if the greater of these came first.
      refine Int.not_lt.mp fun hlt => h ⟨m, n, hm, hn, hlt, hl, ?_, ?_⟩
      case refine_1 =>
        have hnm := signedOfInt_mono (Int.le_of_lt hlt)
        rw [hj, Int.le_antisymm (Int.le_trans hjk hnm) hij]
      case refine_2 => exact Int.le_antisymm (signedOfInt_mono (Int.le_of_lt hlt)) (Int.le_trans hij hjk)

theorem isLE_sortOrder_trans (h : ¬Confounds a b c) (hab : (a.sortOrder b).isLE) (hbc : (b.sortOrder c).isLE) :
    (a.sortOrder c).isLE := by
  have hle := rank_le_of_isLE hab
  have hle' := rank_le_of_isLE hbc
  by_cases hlt : a.rank < c.rank
  case pos => exact isLE_of_rank_lt hlt
  case neg =>
    have hr : a.rank = b.rank := by omega
    have hr' : b.rank = c.rank := by omega
    by_cases hn : a.isNumber
    case pos =>
      have hb := isNumber_of_rank hr.symm hn
      exact isLE_trans_of_isNumber hn hb (isNumber_of_rank hr'.symm hb) h hab hbc
    case neg =>
      rw [sortOrder_of_not_isNumber hr hn] at hab
      rw [sortOrder_of_not_isNumber hr' (mt (isNumber_of_rank hr) hn)] at hbc
      rw [sortOrder_of_not_isNumber (hr.trans hr') hn]
      exact TransCmp.isLE_trans hab hbc

-- Confounded numbers are equal to the number between them, so what is strictly smaller stays so from one to the next.
theorem sortOrder_lt_trans (hab : a.sortOrder b = .lt) (hbc : b.sortOrder c = .lt) : a.sortOrder c = .lt := by
  by_contra hac
  have hca : (c.sortOrder a).isLE := by
    rw [sortOrder_swap a c]
    cases h : a.sortOrder c with
    | lt => exact absurd h hac
    | eq | gt => rfl
  have hc : ¬Confounds c a b := by
    intro h
    rw [h.sortOrder_eq.right] at hab
    contradiction
  have hcb : (c.sortOrder b).isLE := isLE_sortOrder_trans hc hca (by rw [hab]; rfl)
  rw [sortOrder_swap b c, hbc] at hcb
  contradiction

theorem sortOrder_eq_gt : a.sortOrder b = .gt ↔ b.sortOrder a = .lt := by
  rw [sortOrder_swap a b, Ordering.swap_eq_lt]

-- Of the numbers, the integers that others of their kind are compared with exactly.
def ComparedExactly (v : Value) : Prop :=
  v.isNumber → ∃ n, v.int64? = some n

theorem ComparedExactly.int (h : inInt64 n) : (Value.int n).ComparedExactly :=
  fun _ => ⟨n, int64?_eq_some.mpr ⟨rfl, h⟩⟩

theorem ComparedExactly.not_confounds (h : b.ComparedExactly) : ¬Confounds a b c := by
  rintro ⟨m, n, -, -, -, hb, hu, -⟩
  have ⟨l, hl⟩ := h (exists_signedUnits?.mpr ⟨_, hu⟩)
  rw [hl] at hb
  contradiction

theorem rank_eq_of_sortOrder_eq (h : a.sortOrder b = .eq) : a.rank = b.rank :=
  LawfulEqCmp.eq_of_compare (Ordering.then_eq_eq.mp h).left

theorem eq_of_sortText (h : a.rank = b.rank) (ht : a.sortText = b.sortText) : a = b := by
  cases a with
  | string s =>
    cases b with
    | string t => exact congrArg string ht
    | _ => cases h
  | _ =>
    cases b with
    | string t => cases h
    | _ => exact text_injective ht

-- Values that are compared exactly are only equal to themselves.
theorem eq_of_sortOrder_eq (ha : a.ComparedExactly) (hb : b.ComparedExactly) (h : a.sortOrder b = .eq) : a = b := by
  have hr := rank_eq_of_sortOrder_eq h
  by_cases hn : a.isNumber
  case pos =>
    have ⟨m, hm⟩ := ha hn
    have ⟨n, hn⟩ := hb (isNumber_of_rank hr.symm hn)
    rw [sortOrder_int64 hm hn] at h
    rw [(int64?_eq_some.mp hm).left, (int64?_eq_some.mp hn).left, LawfulEqCmp.eq_of_compare h]
  case neg =>
    rw [sortOrder_of_not_isNumber hr hn] at h
    exact eq_of_sortText hr (LawfulEqCmp.eq_of_compare h)

-- The order is reflexive, the other way round it is reversed, and it is transitive but for integers that are
-- confounded by rounding.
theorem sortOrder_laws (a b c : Value) :
    a.sortOrder a = .eq ∧ b.sortOrder a = (a.sortOrder b).swap ∧
    (((a.sortOrder b).isLE → (b.sortOrder c).isLE → (a.sortOrder c).isLE) ↔ ¬Confounds a b c) := by
  refine ⟨sortOrder_self a, sortOrder_swap a b, ?_, isLE_sortOrder_trans⟩
  intro ht hc
  have ⟨hab, hbc, hac⟩ := hc.not_trans
  exact hac (ht hab hbc)

-- Both `2 ^ 53 + 1` and `2 ^ 53` are rounded to the latter.
theorem confounds_two_pow :
    Confounds (int 9007199254740993) (ofFloat? (ofInt 9007199254740992)) (int 9007199254740992) :=
  ⟨_, _, rfl, rfl, by decide, by decide +kernel, by decide +kernel, by decide +kernel⟩

theorem not_sortOrder_trans :
    ¬∀ a b c : Value, (a.sortOrder b).isLE → (b.sortOrder c).isLE → (a.sortOrder c).isLE := by
  intro h
  have ⟨hab, hbc, hac⟩ := confounds_two_pow.not_trans
  exact hac (h _ _ _ hab hbc)

end RowPipeline.Value
