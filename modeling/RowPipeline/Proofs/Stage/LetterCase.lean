import RowPipeline.Proofs.Row.LetterCase
import RowPipeline.Proofs.Stage.Compiling
import RowPipeline.Proofs.Stage.Renaming

namespace RowPipeline

namespace Transformation

variable {t : Transformation}

theorem methods_of_keepsRows (h : t.KeepsRows) : t.methods = [] := by
  rcases h with h | ⟨branches, rfl⟩
  case inl =>
    cases t with
    | aggregate | groupBy => exact h.elim
    | _ => rfl
  case inr => rfl

theorem keepsRows_mapStep {g : PropertyPath → PropertyPath} : (Clause.mapStep g t).KeepsRows ↔ t.KeepsRows := by
  cases t <;> simp [Clause.mapStep, KeepsRows, PassesRows]

end Transformation

namespace Clause

variable {clause clause' : Clause} {rows : List Value} {handling : NullHandling} {registry : Registry}

theorem keepsRows_of_mapPaths {g : PropertyPath → PropertyPath} (h : mapPaths g clause = mapPaths g clause')
    (hk : ∀ t ∈ walk clause, t.KeepsRows) : ∀ t ∈ walk clause', t.KeepsRows := by
  intro t ht
  have hm : mapStep g t ∈ walk (mapPaths g clause) := by
    rw [h, walk_mapPaths]
    exact List.mem_map_of_mem ht
  rw [walk_mapPaths] at hm
  obtain ⟨u, hu, he⟩ := List.mem_map.mp hm
  exact Transformation.keepsRows_mapStep.mp (he ▸ Transformation.keepsRows_mapStep.mpr (hk u hu))

-- Steps of this kind name no method that could be missing.
theorem exists_compileAll_of_keepsRows {access : Access} (hk : ∀ t ∈ walk clause, t.KeepsRows) :
    ∃ stages, Stage.compileAll access registry clause = .ok stages := by
  refine Stage.exists_compileAll fun t ht name hn => ?_
  rw [Transformation.methods_of_keepsRows (hk t ht)] at hn
  cases hn

-- On rows whose names are apart the case of the letters in paths makes no difference: both clauses do what the one in
-- lower case does.
theorem execute_caseInsensitive (hk : ∀ t ∈ walk clause, t.KeepsRows) (hr : ∀ row ∈ rows, row.NamesApart)
    (hc : mapPaths PropertyPath.folded clause = mapPaths PropertyPath.folded clause') :
    ∃ stages stages', Stage.ofClause clause .caseInsensitive ⟨handling⟩ registry = .ok stages ∧
      Stage.ofClause clause' .caseInsensitive ⟨handling⟩ registry = .ok stages' ∧
      EndsAs ((Query.ofRows rows).compose stages).execute ((Query.ofRows rows).compose stages').execute := by
  have hk' := keepsRows_of_mapPaths hc hk
  obtain ⟨stages, hs⟩ := exists_compileAll_of_keepsRows hk
  obtain ⟨stages', hs'⟩ := exists_compileAll_of_keepsRows hk'
  refine ⟨stages, stages', hs, hs', fun out => ?_⟩
  let access : Access := ⟨.caseInsensitive, Settings.propagatesNulls ⟨handling⟩⟩
  have hf : ∀ row ∈ rows, access.ReadsAlike PropertyPath.folded row :=
    fun row hm p => Access.endsAs_read_folded (hr row hm) p
  calc Stage.runAll stages rows = .ok out
    _ ↔ Makes access registry clause rows out := (makes_iff hs).symm
    _ ↔ Makes access registry (mapPaths PropertyPath.folded clause) rows out := (makes_mapPaths hk hf).symm
    _ ↔ Makes access registry (mapPaths PropertyPath.folded clause') rows out := by rw [hc]
    _ ↔ Makes access registry clause' rows out := makes_mapPaths hk' hf
    _ ↔ Stage.runAll stages' rows = .ok out := makes_iff hs'

-- The second clause spells no name like a member, neither within a path nor in a branch.
theorem execute_caseInsensitive_nested :
    let row (name : String) (age : Int) : Value :=
      .object [("Name", .object [("First", .string name)]), ("age", .int age)]
    let rows := [row "Ann" 30, row "Bob" 20, row "Ann" 10]
    let clause : Clause :=
      [.orderBy [⟨["age"], .ascending⟩], .concat [[.filter (.compare .eq (.path ["Name", "First"])
        (.literal (.string "Ann")))], [.skip 1, .identity, .concat [[.top 1]]]]]
    let clause' : Clause :=
      [.orderBy [⟨["AGE"], .ascending⟩], .concat [[.filter (.compare .eq (.path ["nAME", "fiRst"])
        (.literal (.string "Ann")))], [.skip 1, .identity, .concat [[.top 1]]]]]
    (∀ t ∈ walk clause, t.KeepsRows) ∧ (∀ row ∈ rows, row.NamesApart) ∧
    mapPaths PropertyPath.folded clause = mapPaths PropertyPath.folded clause' ∧
    ∃ stages, Stage.ofClause clause' .caseInsensitive ⟨.refuse⟩ .builtins = .ok stages ∧
      ((Query.ofRows rows).compose stages).execute = .ok [row "Ann" 10, row "Ann" 30, row "Bob" 20] := by
  intro row rows clause clause'
  have hk : ∀ t ∈ walk clause, t.KeepsRows := by
    simp [clause, walk, walkInside, walkBranches, Transformation.KeepsRows, Transformation.PassesRows]
  have hr : ∀ r ∈ rows, r.NamesApart := by
    have ha : ∀ name age, (row name age).NamesApart := by
      intro name age
      have ho : Members.Apart [("Name", .object [("First", .string name)]), ("age", .int age)] := by
        simp [Members.Apart, show Resolver.sameUpToCase "Name" "age" = false from rfl]
      have hi : Members.Apart [("First", .string name)] := List.pairwise_singleton _ _
      refine .object ho (List.forall_mem_cons.mpr ⟨.object hi ?_, List.forall_mem_singleton.mpr ?_⟩)
      case refine_1 => exact List.forall_mem_singleton.mpr (.of_scalar (by simp) (by simp))
      case refine_2 => exact .of_scalar (by simp) (by simp)
    simp [rows, ha]
  have hc : mapPaths PropertyPath.folded clause = mapPaths PropertyPath.folded clause' := rfl
  obtain ⟨stages, stages', hs, hs', he⟩ := @execute_caseInsensitive clause clause' rows .refuse .builtins hk hr hc
  refine ⟨hk, hr, hc, stages', hs', (he _).mp ?_⟩
  cases hs
  rfl

end Clause
end RowPipeline
