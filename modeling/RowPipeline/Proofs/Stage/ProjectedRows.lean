import RowPipeline.Proofs.Stage.GroupRows
import RowPipeline.Proofs.Stage.Projection

namespace RowPipeline

namespace Members

open Value

variable {ms : Members} {writes : List (List String × Value)} {names : List String}

theorem mem_names (ms : Members) (name : String) : name ∈ ms.map (·.1) ↔ (ms.get? name).isSome := by
  induction ms with
  | nil => simp [get?]
  | cons m ms ih =>
    obtain ⟨other, v⟩ := m
    rw [get?_cons, List.map_cons, List.mem_cons, ih]
    by_cases h : name = other
    case pos => simp [h]
    case neg => simp [h]

-- A write adds no other name than that of the first step of its path.
theorem isSome_get?_setPath (ms : Members) (path : List String) (value : Value) (name : String) :
    ((ms.setPath path value).get? name).isSome ↔ (ms.get? name).isSome ∨ path.head? = some name := by
  cases path with
  | nil => simp [setPath]
  | cons first rest =>
    obtain ⟨f, hf⟩ := exists_setPath_cons first rest value
    rw [hf, List.head?_cons, Option.some_inj]
    by_cases h : name = first
    case pos => simp [h, get?_insert_self]
    case neg => simp [get?_insert_of_ne h, Ne.symm h]

theorem isSome_get?_setPaths (ms : Members) (writes : List (List String × Value)) (name : String) :
    ((ms.setPaths writes).get? name).isSome ↔ (ms.get? name).isSome ∨ ∃ write ∈ writes, write.1.head? = some name := by
  induction writes generalizing ms with
  | nil => simp [setPaths]
  | cons write writes ih =>
    rw [setPaths_cons, ih, isSome_get?_setPath, List.exists_mem_cons_iff, or_assoc]

end Members

section Firsts

variable {α κ : Type} [DecidableEq κ] {keys : List κ} {xs : List α}

-- The items at those positions whose key does not occur at an earlier one.
def firsts (keys : List κ) (xs : List α) : List α :=
  ((xs.zip keys).zipIdx.filter fun x => x.1.2 ∉ keys.take x.2).map (·.1.1)

theorem firsts_concat (h : xs.length = keys.length) (key : κ) (x : α) :
    firsts (keys ++ [key]) (xs ++ [x]) = firsts keys xs ++ if key ∈ keys then [] else [x] := by
  have hl : 0 + (xs.zip keys).length = keys.length := by rw [List.length_zip, h, Nat.min_self, Nat.zero_add]
  rw [firsts, firsts, List.zip_append h, List.zipIdx_append, List.filter_append, List.map_append, hl]
  congr 2
  case e_a.e_l =>
    refine List.filter_congr fun y hy => ?_
    have hi : y.2 < keys.length := hl ▸ (List.mem_zipIdx hy).right.left
    rw [List.take_append_of_le_length hi.le]
  case e_a =>
    have ht : (keys ++ [key]).take keys.length = keys := List.take_left
    by_cases hk : key ∈ keys
    case pos => simp [ht, hk]
    case neg => simp [ht, hk]

example : firsts [1, 2, 1, 3, 2] ["a", "b", "c", "d", "e"] = ["a", "b", "d"] := by decide

end Firsts

namespace Group

variable {β : Type} {keyed : List (List Value × Value)} {count : Nat}

-- A group is made by the first row with its fingerprints.
theorem map_ofRows (f : List Value → β) (h : ∀ r ∈ keyed, r.1.length = count) :
    (ofRows keyed).map (fun g => f g.keys) = firsts (keyed.map (fingerprints ·.1)) (keyed.map (f ·.1)) := by
  induction keyed using List.reverseRecOn with
  | nil => rfl
  | append_singleton keyed r ih =>
    obtain ⟨hk, hr⟩ := List.forall_mem_append.mp h
    have hr : r.1.length = count := hr r List.mem_cons_self
    subst hr
    have ⟨hd, hl⟩ := divides_ofRows hk
    have ho : ofRows (keyed ++ [r]) = Group.insert r.1 r.2 (ofRows keyed) := List.foldl_concat _ _ _ _
    rw [ho, List.map_append, List.map_append, List.map_singleton, List.map_singleton, firsts_concat (by simp), ← ih hk]
    by_cases ht : fingerprints r.1 ∈ keyed.map (fingerprints ·.1)
    case pos =>
      rw [if_pos ht, List.append_nil, hl.insert_of_known hd.nodup (hd.mem_tuples.mpr ht), List.map_map]
      rfl
    case neg =>
      have hn : ∀ g ∈ ofRows keyed, fingerprints g.keys ≠ fingerprints r.1 :=
        fun g hg he => ht (hd.mem_tuples.mp ⟨g, hg, he⟩)
      rw [if_neg ht, hl.insert_of_new hn, List.map_append, List.map_singleton]

end Group

namespace Stage

variable {access : Access} {paths : List PropertyPath} {rows : List Value} {row : Value}

-- All paths are read before anything is written, or each one just before: the object is the same.
theorem project_eq (access : Access) (row : Value) (paths : List PropertyPath) (out : Members) :
    project access row paths out = do return out.setPaths (paths.zip (← access.readAll row paths)) := by
  induction paths generalizing out with
  | nil => rfl
  | cons path paths ih =>
    simp only [project, ih, Access.readAll, List.mapM_cons, bind_assoc, pure_bind, List.zip_cons_cons,
      Members.setPaths_cons]

theorem run_select (paths : List PropertyPath) (access : Access) (rows : List Value) :
    run (.select paths access) rows = do
      let keyed ← rows.mapM fun row => do return (← access.readAll row paths, row)
      return keyed.map fun r => .object (Group.keyMembers paths r.1) := by
  rw [run, ← mapM_return]
  simp only [project_eq, bind_assoc, pure_bind, Group.keyMembers_eq]

-- What a projected row has in comparison with the row it is made from.
structure Projects (access : Access) (paths : List PropertyPath) (row out : Value) : Prop where
  -- At each path the value that is read there, by the names as they are written and whatever is done with nulls. The
  -- path without names is left out: no text of a clause has it, but a stage can be given it, and writes nothing there.
  reads : ∀ p ∈ paths, p ≠ [] → ∃ value, access.read row p = .ok value ∧
    ∀ propagates, (⟨.exact, propagates⟩ : Access).read out p = .ok value
  -- Nothing at a path that neither goes on from one of these nor leads to one.
  absent : ∀ q ≠ [], (∀ p ∈ paths, ¬p.Meets q) → out.at? q = none
  -- The first names of the paths, each of them once, and no other members.
  names : ∃ ms : Members, out = .object ms ∧ ms.Ordered ∧
    ∀ name, name ∈ ms.map (·.1) ↔ ∃ p ∈ paths, p.head? = some name

theorem projects_keyMembers {keys : List Value} (hd : ∀ p ∈ paths, ∀ q ∈ paths, p <+: q → p = q)
    (ha : access.readAll row paths = .ok keys) : Projects access paths row (.object (Group.keyMembers paths keys)) := by
  have hk := mapM_eq_ok.mp ha
  have hz : (paths.zip keys).map (·.1) = paths := List.map_fst_zip hk.length_eq.le
  constructor
  case reads =>
    intro p hp hn
    rw [← hz] at hp
    obtain ⟨⟨p, value⟩, hm, rfl⟩ := List.mem_map.mp hp
    have hp : p ∈ paths := (List.of_mem_zip hm).left
    refine ⟨value, List.forall₂_zip hk hm, fun propagates => Access.read_of_at? ?_⟩
    exact Group.at?_keyMembers hn (fun q hq hc => hc.elim (hd q hq p hp) fun hc => (hd p hp q hq hc).symm) ha hm
  case absent =>
    intro q hn hq
    have hw : ∀ write ∈ paths.zip keys, ¬write.1 <+: q ∧ ¬q <+: write.1 :=
      fun write hw => not_or.mp (hq write.1 (List.of_mem_zip hw).left)
    rw [Group.keyMembers_eq, Members.at?_setPaths_of_not_isPrefix hw]
    exact Value.at?_of_members_eq_nil rfl hn
  case names =>
    refine ⟨_, rfl, Group.ordered_keyMembers paths keys, fun name => ?_⟩
    have he : (∃ write ∈ paths.zip keys, write.1.head? = some name) ↔ ∃ p ∈ paths, p.head? = some name := by
      conv_rhs => rw [← hz]
      simp only [List.mem_map, exists_exists_and_eq_and]
    rw [Members.mem_names, Group.keyMembers_eq, Members.isSome_get?_setPaths, he]
    exact or_iff_right nofun

-- A selection of paths of which none leads on to another gives each row with what it has there, and nothing else.
theorem run_select_projects (hd : ∀ p ∈ paths, ∀ q ∈ paths, p <+: q → p = q)
    (hr : ∀ row ∈ rows, ∀ p ∈ paths, ∃ value, access.read row p = .ok value) :
    ∃ out, run (.select paths access) rows = .ok out ∧ List.Forall₂ (Projects access paths) rows out := by
  have ⟨keyed, hk⟩ : ∃ keyed : List (List Value × Value),
      List.Forall₂ (fun row r => access.readAll row paths = .ok r.1 ∧ row = r.2) rows keyed := by
    refine exists_forall₂.mpr fun row hm => ?_
    have ⟨keys, ha⟩ := exists_mapM_eq_ok.mpr (hr row hm)
    exact ⟨(keys, row), ha, rfl⟩
  refine ⟨keyed.map fun r => .object (Group.keyMembers paths r.1), ?_, ?_⟩
  case refine_1 =>
    rw [run_select, keyed_eq_ok.mpr hk]
    rfl
  case refine_2 =>
    rw [List.forall₂_map_right_iff]
    exact hk.imp fun _ _ hs => projects_keyMembers hd hs.left

theorem run_select_projects_nested :
    let access : Access := ⟨.caseInsensitive, false⟩
    let paths : List PropertyPath := [["a", "b"], ["D"], ["a", "c"], ["a", "b"]]
    let row : Value := .object [("A", .object [("B", .int 1), ("C", .null), ("E", .int 5)]), ("D", .string "x")]
    let out : Value := .object [("D", .string "x"), ("a", .object [("b", .int 1), ("c", .null)])]
    (∀ p ∈ paths, ∀ q ∈ paths, p <+: q → p = q) ∧
      (∀ r ∈ [row], ∀ p ∈ paths, ∃ value, access.read r p = .ok value) ∧
      run (.select paths access) [row] = .ok [out] ∧ Projects access paths row out := by
  intro access paths row out
  have hd : ∀ p ∈ paths, ∀ q ∈ paths, p <+: q → p = q := by decide
  have hr : ∀ r ∈ [row], ∀ p ∈ paths, ∃ value, access.read r p = .ok value := by
    simp only [paths, List.forall_mem_cons]
    exact ⟨⟨⟨_, rfl⟩, ⟨_, rfl⟩, ⟨_, rfl⟩, ⟨_, rfl⟩, nofun⟩, nofun⟩
  have ho : run (.select paths access) [row] = .ok [out] := rfl
  have ⟨_, ho', hp⟩ := run_select_projects hd hr
  cases ho.symm.trans ho'
  exact ⟨hd, hr, ho, (List.forall₂_cons.mp hp).left⟩

end Stage

namespace Clause

-- A grouping fails just as the selection of its paths does, and else keeps the first row of it for each tuple of keys.
theorem groupBy_firsts_of_select (registry : Registry) (resolver : Resolver) (handling : NullHandling)
    (paths : List PropertyPath) (rows : List Value) :
    ∃ selecting grouping, Stage.ofClause [.select paths] resolver ⟨handling⟩ registry = .ok selecting ∧
      Stage.ofClause [.groupBy paths none] resolver ⟨handling⟩ registry = .ok grouping ∧
      let access : Access := ⟨resolver, Settings.propagatesNulls ⟨handling⟩⟩
      let selected := ((Query.ofRows rows).compose selecting).execute
      let grouped := ((Query.ofRows rows).compose grouping).execute
      (∀ e, grouped = .error e ↔ selected = .error e) ∧
        ∀ out, selected = .ok out → ∃ tuples,
          List.Forall₂ (fun row tuple => ∃ keys, access.readAll row paths = .ok keys ∧ tuple = Group.fingerprints keys)
            rows tuples ∧
          grouped = .ok (firsts tuples out) := by
  refine ⟨_, _, rfl, rfl, ?_⟩
  intro access selected grouped
  have hs : selected = Stage.run (.select paths access) rows := bind_pure _
  have hg : grouped = Stage.run (.groupBy paths [] access) rows := bind_pure _
  rw [hs, hg, Stage.run_select, Stage.run_groupBy_nil]
  refine ⟨fun e => by rw [return_eq_error, return_eq_error], fun out ho => ?_⟩
  obtain ⟨keyed, hk, ho⟩ := bind_eq_ok.mp ho
  cases pure_eq_ok.mp ho
  have hf := Stage.keyed_eq_ok.mp hk
  have hl : ∀ r ∈ keyed, r.1.length = paths.length := Group.length_of_readAll hf
  refine ⟨keyed.map (Group.fingerprints ·.1), ?_, ?_⟩
  case refine_1 => exact List.forall₂_map_right_iff.mpr (hf.imp fun _ r hr => ⟨r.1, hr.left, rfl⟩)
  case refine_2 =>
    rw [hk, ← Group.map_ofRows (fun keys => Value.object (Group.keyMembers paths keys)) hl]
    rfl

end Clause
end RowPipeline
