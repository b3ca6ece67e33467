import RowPipeline.Row.Condition
import RowPipeline.Proofs.Success
import RowPipeline.Proofs.Value.Fingerprint
import RowPipeline.Proofs.Value.Ordering

namespace RowPipeline

open Std

namespace Value

variable {a b : Value}

-- Arrays and objects are in no order, though they may be equal.
def isContainer : Value → Bool
  | array _ | object _ => true
  | _ => false

theorem compare?_of_rank_ne (h : a.rank ≠ b.rank) : a.compare? b = none := by
  cases a <;> cases b <;> simp_all [rank, compare?, compareNumbers?, signedUnits?]

theorem compare?_of_isContainer (h : a.isContainer) : a.compare? b = none := by
  cases a with
  | array | object => cases b <;> rfl
  | _ => cases h

theorem compareNumbers?_swap (ha : a.isNumber) (hb : b.isNumber) :
    compareNumbers? b a = (compareNumbers? a b).map Ordering.swap := by
  have ⟨i, hi⟩ := exists_signedUnits?.mp ha
  have ⟨j, hj⟩ := exists_signedUnits?.mp hb
  rcases int64?_cases a b with hx | ⟨m, n, hm, hn⟩
  case inl =>
    rw [compareNumbers?_of_units hi hj hx, compareNumbers?_of_units hj hi hx.symm, Option.map_some]
    exact congrArg some OrientedCmp.eq_swap
  case inr =>
    rw [compareNumbers?_of_int64 hm hn, compareNumbers?_of_int64 hn hm, Option.map_some]
    exact congrArg some OrientedCmp.eq_swap

-- The other way round the order is reversed, where there is one.
theorem compare?_swap (a b : Value) : b.compare? a = (a.compare? b).map Ordering.swap := by
  by_cases h : a.rank = b.rank
  case neg => rw [compare?_of_rank_ne h, compare?_of_rank_ne (Ne.symm h), Option.map_none]
  case pos =>
    by_cases hn : a.isNumber
    case pos =>
      have hb := isNumber_of_rank h.symm hn
      rw [compare?_of_isNumber hn, compare?_of_isNumber hb]
      exact compareNumbers?_swap hn hb
    case neg =>
      cases a with
      | null =>
        cases b with
        | null => rfl
        | _ => cases h
      | bool p =>
        cases b with
        | bool q => cases p <;> cases q <;> rfl
        | _ => cases h
      | string s =>
        cases b with
        | string t => exact congrArg some OrientedCmp.eq_swap
        | _ => cases h
      | array vs =>
        cases b with
        | array ws => rfl
        | _ => cases h
      | object ms =>
        cases b with
        | object ns => rfl
        | _ => cases h
      | int | float => exact absurd rfl hn

-- Nothing else is equal to null.
theorem null_equal_iff : null.equal a ↔ a = null := by
  cases a <;> simp [equal, isNumber, same]

theorem equal_null_iff : a.equal null ↔ a = null := by
  cases a <;> simp [equal, isNumber, same]

-- Equality is that of the order, where there is one.
theorem equal_iff_compare? (h : ¬a.isContainer) : a.equal b ↔ a.compare? b = some .eq := by
  by_cases hn : a.isNumber ∧ b.isNumber
  case pos =>
    rw [compare?_of_isNumber hn.left, equal, hn.left, hn.right]
    exact beq_iff_eq
  case neg =>
    have he : (a.isNumber && b.isNumber) = false := by rwa [← Bool.not_eq_true, Bool.and_eq_true]
    rw [equal_iff_same he]
    by_cases hr : a.rank = b.rank
    case neg =>
      rw [compare?_of_rank_ne hr]
      exact iff_of_false (fun hs => hr (rank_eq_of_alike ((same_iff a b).mp hs).left)) (Option.some_ne_none _).symm
    case pos =>
      cases a with
      | null =>
        cases b with
        | null => exact iff_of_true rfl rfl
        | _ => cases hr
      | bool p =>
        cases b with
        | bool q => cases p <;> cases q <;> decide
        | _ => cases hr
      | string s =>
        cases b with
        | string t =>
          rw [same, beq_iff_eq, compare?, Option.some_inj]
          exact LawfulEqCmp.compare_eq_iff_eq.symm
        | _ => cases hr
      | array | object => exact absurd rfl h
      | int | float => exact absurd ⟨rfl, isNumber_of_rank hr.symm rfl⟩ hn

end Value

namespace Comparison

open Value

variable {a b : Value}

theorem gt_holds_iff : gt.holds a b ↔ lt.holds b a := by
  simp only [holds, beq_iff_eq, compare?_swap a b, Option.map_eq_some_iff, Ordering.swap_eq_lt, exists_eq_right]

theorem ge_holds_iff : ge.holds a b ↔ le.holds b a := by
  simp only [holds, Bool.or_eq_true, beq_iff_eq, compare?_swap a b, Option.map_eq_some_iff, Ordering.swap_eq_lt,
    Ordering.swap_eq_eq, exists_eq_right]

theorem le_holds_iff : le.holds a b ↔ lt.holds a b ∨ eq.holds a b ∧ ¬a.isContainer := by
  by_cases h : a.isContainer
  case pos => simp [holds, compare?_of_isContainer h, h]
  case neg => simp only [holds, Bool.or_eq_true, beq_iff_eq, equal_iff_compare? h, and_iff_left h]

-- What is in an order with another value is not equal to it.
theorem not_equal_of_compare? {o : Ordering} (h : a.compare? b = some o) (ho : o ≠ .eq) : ¬a.equal b := by
  have hc : ¬a.isContainer := by
    intro hc
    rw [compare?_of_isContainer hc] at h
    contradiction
  rw [equal_iff_compare? hc, h, Option.some_inj]
  exact ho

end Comparison

namespace Filter

open Value

variable {access : Access} {row a b : Value} {left right : Operand}

-- A comparison of two operands holds on a row.
def Compares (access : Access) (row : Value) (op : Comparison) (left right : Operand) : Prop :=
  (compare op left right).eval access row = .ok true

theorem compares_iff {op : Comparison} (ha : left.eval access row = .ok a) (hb : right.eval access row = .ok b) :
    Compares access row op left right ↔ op.holds a b := by
  have he : (compare op left right).eval access row = .ok (op.holds a b) := by
    rw [eval, ha, hb]
    rfl
  rw [Compares, he, Except.ok.injEq]

-- Comparisons the other way round, the negation of equality, at most one of three, and what is below or equal.
theorem comparisons_cohere (ha : left.eval access row = .ok a) (hb : right.eval access row = .ok b) :
    (Compares access row .gt left right ↔ Compares access row .lt right left) ∧
    (Compares access row .ge left right ↔ Compares access row .le right left) ∧
    (Compares access row .ne left right ↔ ¬Compares access row .eq left right) ∧
    ¬(Compares access row .lt left right ∧ Compares access row .eq left right) ∧
    ¬(Compares access row .lt left right ∧ Compares access row .gt left right) ∧
    ¬(Compares access row .eq left right ∧ Compares access row .gt left right) ∧
    (Compares access row .le left right ↔
      Compares access row .lt left right ∨ Compares access row .eq left right ∧ ¬a.isContainer) := by
  simp only [compares_iff ha hb, compares_iff hb ha]
  refine ⟨Comparison.gt_holds_iff, Comparison.ge_holds_iff, ?_, ?_, ?_, ?_, Comparison.le_holds_iff⟩
  case refine_1 => simp [Comparison.holds]
  case refine_2 =>
    intro ⟨hl, he⟩
    exact Comparison.not_equal_of_compare? (beq_iff_eq.mp hl) nofun he
  case refine_3 =>
    intro ⟨hl, hg⟩
    have hl : a.compare? b = some .lt := beq_iff_eq.mp hl
    have hg : a.compare? b = some .gt := beq_iff_eq.mp hg
    rw [hl] at hg
    contradiction
  case refine_4 =>
    intro ⟨he, hg⟩
    exact Comparison.not_equal_of_compare? (beq_iff_eq.mp hg) nofun he

-- The integer is rounded to the other number, to which it is equal then.
theorem comparisons_cohere_rounded :
    let n : Int := 2 ^ 54
    let x : Binary64 := ⟨false, 2 ^ 54 * Binary64.one, by decide +kernel, by decide +kernel⟩
    let access : Access := ⟨.exact, false⟩
    let row : Value := .object [("A", .int (n + 1)), ("B", .float x)]
    let left : Operand := .path ["A"]
    let right : Operand := .path ["B"]
    left.eval access row = .ok (.int (n + 1)) ∧ right.eval access row = .ok (.float x) ∧
      Compares access row .eq left right ∧ Compares access row .le left right ∧
      ¬Compares access row .lt left right ∧ Compares access row .le right left := by
  intro n x access row left right
  have ha : left.eval access row = .ok (.int (n + 1)) := rfl
  have hb : right.eval access row = .ok (.float x) := rfl
  have he : Compares access row .eq left right := (compares_iff ha hb).mpr (by decide +kernel)
  obtain ⟨-, hge, -, hl, -, -, hle⟩ := comparisons_cohere ha hb
  have hg : Compares access row .ge left right := (compares_iff ha hb).mpr (by decide +kernel)
  exact ⟨ha, hb, he, hle.mpr (.inr ⟨he, Bool.false_ne_true⟩), fun h => hl ⟨h, he⟩, hge.mp hg⟩

-- An array is equal to itself, but not below or equal.
theorem not_le_iff_lt_or_eq : ¬∀ (access : Access) (row a b : Value) (left right : Operand),
    left.eval access row = .ok a → right.eval access row = .ok b →
    (Compares access row .le left right ↔
      Compares access row .lt left right ∨ Compares access row .eq left right) := by
  intro h
  let items : Value := .array [.int 1]
  have ha : (Operand.path ["A"]).eval ⟨.exact, true⟩ (.object [("A", items)]) = .ok items := rfl
  have h := h _ _ _ _ _ _ ha ha
  simp only [compares_iff ha ha] at h
  have hl := h.mpr (.inr (by decide))
  exact absurd hl (by decide)

end Filter
end RowPipeline
