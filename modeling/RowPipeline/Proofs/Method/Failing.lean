import RowPipeline.Method.Builtin
import RowPipeline.Proofs.Success

namespace RowPipeline

-- No term of a sum, and not passed over either.
def Value.isNonNumeric (v : Value) : Bool :=
  !v.isNull && !v.isNumber

namespace Method

variable {values : List Value} {v : Value} {e : EvaluationError} {method : Method}

theorem exists_term (h : v.isNumber) : ∃ x, term v = .ok x := by
  cases v with
  | int | float => exact ⟨_, rfl⟩
  | null | bool | string | array | object => cases h

theorem term_of_not_isNumber (h : ¬v.isNumber) : term v = .error (.nonNumeric v) := by
  cases v with
  | int | float => exact absurd rfl h
  | null | bool | string | array | object => rfl

-- The first value that is neither null nor a number is what the sum fails on.
theorem mapM_term_eq_error : (nonNull values).mapM term = .error e ↔
    ∃ v, values.find? Value.isNonNumeric = some v ∧ e = .nonNumeric v := by
  induction values with
  | nil => simp [nonNull, pure, Except.pure]
  | cons v values ih =>
    by_cases hn : v.isNull
    case pos =>
      have hs : nonNull (v :: values) = nonNull values := List.filter_cons_of_neg (by simp [hn])
      rw [hs, ih, List.find?_cons_of_neg (by simp [Value.isNonNumeric, hn])]
    case neg =>
      have hs : nonNull (v :: values) = v :: nonNull values := List.filter_cons_of_pos (by simp [hn])
      rw [hs, List.mapM_cons, bind_eq_error]
      simp only [return_eq_error, ih]
      by_cases hv : v.isNumber
      case pos =>
        obtain ⟨x, hx⟩ := exists_term hv
        rw [List.find?_cons_of_neg (by simp [Value.isNonNumeric, hv])]
        simp [hx]
      case neg =>
        rw [List.find?_cons_of_pos (by simp [Value.isNonNumeric, hn, hv])]
        simp [term_of_not_isNumber hv, eq_comm]

theorem sum_call_eq_error : sum.call values = .error e ↔
    ∃ v, values.find? Value.isNonNumeric = some v ∧ e = .nonNumeric v := by
  rw [← mapM_term_eq_error]
  refine bind_eq_error.trans (or_iff_left ?_)
  rintro ⟨terms, -, h⟩
  dsimp only at h
  split at h
  case h_1 => split at h <;> cases h
  case h_2 => cases h

theorem average_call_eq_error : average.call values = .error e ↔
    ∃ v, values.find? Value.isNonNumeric = some v ∧ e = .nonNumeric v := by
  rw [← mapM_term_eq_error]
  refine bind_eq_error.trans (or_iff_left ?_)
  rintro ⟨terms, -, h⟩
  split at h <;> cases h

-- Only sums and averages fail.
theorem builtin_call_eq_error (hm : method ∈ builtins) (h : method.call values = .error e) :
    (method = sum ∨ method = average) ∧ ∃ v, values.find? Value.isNonNumeric = some v ∧ e = .nonNumeric v := by
  simp only [builtins, List.mem_cons, List.not_mem_nil, or_false] at hm
  rcases hm with rfl | rfl | rfl | rfl | rfl
  case inl => exact ⟨.inl rfl, sum_call_eq_error.mp h⟩
  case inr.inr.inr.inl => exact ⟨.inr rfl, average_call_eq_error.mp h⟩
  all_goals cases h

end Method
end RowPipeline
