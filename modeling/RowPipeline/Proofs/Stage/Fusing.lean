import RowPipeline.Proofs.Clause.Enclosing
import RowPipeline.Proofs.Stage.Making

namespace RowPipeline

namespace Filter

variable {access : Access} {row : Value} {c d : Filter} {b : Bool}

-- The second condition is only looked at where the first one holds.
theorem eval_and : (Filter.and c d).eval access row = .ok b ↔
    c.eval access row = .ok false ∧ b = false ∨ c.eval access row = .ok true ∧ d.eval access row = .ok b := by
  simp only [eval, bind_eq_ok, Bool.exists_bool, Bool.false_eq_true, if_false, if_true, pure_eq_ok, eq_comm (a := b)]

end Filter

namespace Stage

variable {access : Access} {passes : Value → Except EvaluationError Bool} {row : Value} {rows out : List Value}
  {c d : Filter}

theorem keep_cons : keep passes (row :: rows) = .ok out ↔
    ∃ b kept, passes row = .ok b ∧ keep passes rows = .ok kept ∧ (if b then row :: kept else kept) = out := by
  simp only [keep, bind_eq_ok, pure_eq_ok, exists_and_left]

theorem keep_and : keep ((Filter.and c d).eval access) rows = .ok out ↔
    ∃ mid, keep (c.eval access) rows = .ok mid ∧ keep (d.eval access) mid = .ok out := by
  induction rows generalizing out with
  | nil => simp [keep]
  | cons row rows ih =>
    simp only [keep_cons, Filter.eval_and, ih]
    constructor
    case mp =>
      rintro ⟨_, kept, ⟨hc, rfl⟩ | ⟨hc, hd⟩, ⟨mid, hm, hk⟩, rfl⟩
      case inl => exact ⟨mid, ⟨false, mid, hc, hm, rfl⟩, hk⟩
      case inr => exact ⟨row :: mid, ⟨true, mid, hc, hm, rfl⟩, keep_cons.mpr ⟨_, kept, hd, hk, rfl⟩⟩
    case mpr =>
      rintro ⟨_, ⟨b, mid, hc, hm, rfl⟩, hk⟩
      cases b with
      | false => exact ⟨false, out, .inl ⟨hc, rfl⟩, ⟨mid, hm, hk⟩, rfl⟩
      | true =>
        obtain ⟨b, kept, hd, hk, he⟩ := keep_cons.mp hk
        exact ⟨b, kept, .inr ⟨hc, hd⟩, ⟨mid, hm, hk⟩, he⟩

end Stage

namespace Clause

variable {first second : String} {c d : Filter}

-- Two conditions in parentheses with `and` between them are one filter after the other, also if some rows cannot be
-- read.
theorem filter_and_iff (hc : Filter.Whole first c) (hd : Filter.Whole second d) :
    parse none ("filter((" ++ first ++ ") and (" ++ second ++ "))") = .ok [.filter (.and c d)] ∧
    parse none ("filter(" ++ first ++ ")/filter(" ++ second ++ ")") = .ok [.filter c, .filter d] ∧
    ∀ (access : Access) (registry : Registry) (rows out : List Value),
      Makes access registry [.filter (.and c d)] rows out ↔ Makes access registry [.filter c, .filter d] rows out := by
  refine ⟨parse_filter_and hc hd, parse_filters hc hd, fun access registry rows out => ?_⟩
  rw [makes_filter, Stage.keep_and, makes_cons]
  simp only [makes_filter]

-- The second condition cannot be read in the first row.
theorem filter_and_iff_short_circuit :
    let c : Filter := .or (.compare .gt (.path ["A"]) (.literal (.int 1))) (.truthy (.path ["B"]))
    let d : Filter := .not (.truthy (.path ["C", "D"]))
    let access : Access := ⟨.exact, false⟩
    let row : Value := .object [("A", .int 2), ("C", .object [("D", .bool false)])]
    let rows := [.object [("A", .int 0), ("B", .bool false)], row]
    Filter.Whole " A gt 1 or B" c ∧ Filter.Whole "not ( C/D ) " d ∧
      parse none "filter(( A gt 1 or B) and (not ( C/D ) ))" = .ok [.filter (.and c d)] ∧
      parse none "filter( A gt 1 or B)/filter(not ( C/D ) )" = .ok [.filter c, .filter d] ∧
      Makes access .empty [.filter (.and c d)] rows [row] ∧ Makes access .empty [.filter c, .filter d] rows [row] := by
  intro c d access row rows
  have hc : Filter.Whole " A gt 1 or B" c := ⟨_, rfl, rfl⟩
  have hd : Filter.Whole "not ( C/D ) " d := ⟨_, rfl, rfl⟩
  have hm : Makes access .empty [.filter (.and c d)] rows [row] := ⟨_, rfl, rfl⟩
  have ⟨hp, hp', hi⟩ := filter_and_iff hc hd
  exact ⟨hc, hd, hp, hp', hm, (hi _ _ _ _).mp hm⟩

end Clause
end RowPipeline
