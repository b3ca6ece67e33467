import Mathlib.Data.List.Perm.Subperm
import RowPipeline.Host.Query
import RowPipeline.Method.Builtin
import RowPipeline.Proofs.Stage.Making

namespace RowPipeline

-- What comes out of the step are rows that came in.
def Transformation.PassesRows : Transformation → Prop
  | filter _ | orderBy _ | top _ | skip _ | identity => True
  | aggregate _ | groupBy .. | select _ | concat _ => False

namespace Clause

variable {access : Access} {registry : Registry} {clause before after : Clause} {t : Transformation} {condition : Filter}
  {rows out : List Value}

-- Only sorting changes the order.
theorem sublist_of_makes_step (ht : t.PassesRows) (ho : ∀ items, t ≠ .orderBy items)
    (h : Makes access registry [t] rows out) : out.Sublist rows := by
  cases t with
  | filter condition => exact Stage.sublist_of_keep (makes_filter.mp h)
  | orderBy items => exact absurd rfl (ho items)
  | top count => exact makes_top.mp h ▸ List.take_sublist count rows
  | skip count => exact makes_skip.mp h ▸ List.drop_sublist count rows
  | identity => exact makes_identity.mp h ▸ .refl rows
  | aggregate | groupBy | select | concat => exact ht.elim

theorem subperm_of_makes_step (ht : t.PassesRows) (h : Makes access registry [t] rows out) : out.Subperm rows := by
  cases t with
  | orderBy items => exact (Stage.perm_of_sortRows (makes_orderBy.mp h)).subperm
  | _ => exact (sublist_of_makes_step ht nofun h).subperm

end Clause
end RowPipeline
