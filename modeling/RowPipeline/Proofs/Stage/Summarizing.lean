import RowPipeline.Proofs.Stage.Grouping
import RowPipeline.Proofs.Stage.Making
import RowPipeline.Proofs.Value.Writing
import Mathlib.Data.List.Sort

namespace RowPipeline

namespace Members

variable {ms ns base own : Members} {name other : String} {value : Value}

-- The members of the second object, and those of the first under all other names.
def overlay (base own : Members) : Members :=
  own.foldl (fun out m => insert m.1 m.2 out) base

theorem mem_iff_get? (h : ms.Ordered) : (name, value) ∈ ms ↔ ms.get? name = some value := by
  induction ms with
  | nil => simp [get?]
  | cons m ms ih =>
    obtain ⟨other, v⟩ := m
    obtain ⟨hm, hs⟩ := List.pairwise_cons.mp h
    rw [List.mem_cons, get?_cons, Prod.mk.injEq, ih hs]
    by_cases hn : name = other
    case pos =>
      have hf : Members.get? ms name ≠ some value := by
        intro hv
        exact String.lt_irrefl name (hn ▸ hm _ ((ih hs).mpr hv))
      rw [if_pos hn, Option.some_inj, or_iff_left hf, and_iff_right hn, eq_comm]
    case neg => simp [hn]

-- Members in order are told apart by what is found under the names.
theorem eq_of_get? (hm : ms.Ordered) (hn : ns.Ordered) (h : ∀ name, ms.get? name = ns.get? name) : ms = ns := by
  have hi : Std.Irrefl fun a b : String × Value => a.1 < b.1 := ⟨fun a => String.lt_irrefl a.1⟩
  have ha : Std.Antisymm fun a b : String × Value => a.1 < b.1 :=
    ⟨fun _ _ hab hba => absurd (String.lt_trans hab hba) (String.lt_irrefl _)⟩
  apply List.Pairwise.eq_of_mem_iff hm hn
  intro (name, value)
  rw [mem_iff_get? hm, mem_iff_get? hn, h]

theorem get?_eq_none (h : ∀ m ∈ ms, name < m.1) : ms.get? name = none := by
  induction ms with
  | nil => rfl
  | cons m ms ih =>
    have ⟨hm, hs⟩ := List.forall_mem_cons.mp h
    have hn : name ≠ m.1 := by
      intro hn
      exact String.lt_irrefl name (hn ▸ hm)
    have hc : Members.get? (m :: ms) name = if name = m.1 then some m.2 else Members.get? ms name := get?_cons
    rw [hc, if_neg hn, ih hs]

theorem ordered_setPath (h : ms.Ordered) (path : List String) (value : Value) : (ms.setPath path value).Ordered := by
  cases path with
  | nil => exact h
  | cons name rest =>
    cases rest with
    | nil => exact ordered_insert name value h
    | cons next rest => exact ordered_insert name _ h

theorem ordered_overlay (h : base.Ordered) (own : Members) : (base.overlay own).Ordered := by
  induction own generalizing base with
  | nil => exact h
  | cons m own ih => exact ih (ordered_insert m.1 m.2 h)

theorem get?_overlay (h : own.Ordered) :
    (base.overlay own).get? name = (Members.get? own name).or (base.get? name) := by
  induction own generalizing base with
  | nil => rfl
  | cons m own ih =>
    have ⟨other, v⟩ := m
    have ⟨hm, hs⟩ := List.pairwise_cons.mp h
    have ho : base.overlay ((other, v) :: own) = (insert other v base).overlay own := rfl
    rw [ho, ih hs, get?_cons]
    by_cases hn : name = other
    case pos => rw [if_pos hn, hn, get?_eq_none hm, get?_insert_self]; rfl
    case neg => rw [if_neg hn, get?_insert_of_ne hn]

-- Writing on top is writing into what stands on top.
theorem insert_overlay (hb : base.Ordered) (ho : own.Ordered) (name : String) (value : Value) :
    insert name value (base.overlay own) = base.overlay (insert name value own) := by
  apply eq_of_get? (ordered_insert _ _ (ordered_overlay hb own)) (ordered_overlay hb _)
  intro other
  rw [get?_overlay (ordered_insert _ _ ho)]
  by_cases hn : other = name
  case pos => rw [hn, get?_insert_self, get?_insert_self]; rfl
  case neg => rw [get?_insert_of_ne hn, get?_insert_of_ne hn, get?_overlay ho]

end Members

open Members

namespace Group

-- The members hold the keys, each at its path, and nothing else.
structure HoldsKeys (paths : List PropertyPath) (keys : List Value) (ms : Members) : Prop where
  -- They are written in the order of the paths.
  written : ms = Members.setPaths [] (paths.zip keys)
  -- A key can be found, if no later one is written at its path, above or below.
  found   : ∀ before path key after, paths.zip keys = before ++ (path, key) :: after → path ≠ [] →
    (∀ write ∈ after, ¬write.1 <+: path ∧ ¬path <+: write.1) → (Value.object ms).at? path = some key
  -- There is nothing at any other place.
  absent  : ∀ path ≠ [], (∀ write ∈ paths.zip keys, ¬write.1 <+: path ∧ ¬path <+: write.1) →
    (Value.object ms).at? path = none

variable {paths : List PropertyPath} {keys : List Value} {ms : Members}

theorem keyMembers_eq (paths : List PropertyPath) (keys : List Value) :
    keyMembers paths keys = Members.setPaths [] (paths.zip keys) :=
  rfl

theorem holdsKeys_iff : HoldsKeys paths keys ms ↔ ms = keyMembers paths keys := by
  rw [keyMembers_eq]
  constructor
  case mp => exact HoldsKeys.written
  case mpr =>
    rintro rfl
    constructor
    case written => rfl
    case found =>
      intro before path key after hs hp ha
      rw [hs, setPaths_append, setPaths_cons, at?_setPaths_of_not_isPrefix ha]
      exact at?_setPath_self hp
    case absent =>
      intro path hp ha
      rw [at?_setPaths_of_not_isPrefix ha]
      exact Value.at?_of_members_eq_nil rfl hp

theorem ordered_keyMembers (paths : List PropertyPath) (keys : List Value) : (keyMembers paths keys).Ordered :=
  setPaths_induction (P := Ordered) List.Pairwise.nil fun write _ _ h => ordered_setPath h write.1 write.2

end Group

namespace Summary

variable {access : Access} {rows : List Value} {summaries : List Summary} {out base own : Members} {name : String}

theorem writeAll_append {before after : List Summary} : writeAll access rows (before ++ after) base = .ok out ↔
    ∃ mid, writeAll access rows before base = .ok mid ∧ writeAll access rows after mid = .ok out := by
  induction before generalizing base with
  | nil => simp [writeAll]
  | cons s before ih =>
    simp only [List.cons_append, writeAll, bind_eq_ok, ih]
    constructor
    case mp => rintro ⟨v, hv, mid, hm, ho⟩; exact ⟨mid, ⟨v, hv, hm⟩, ho⟩
    case mpr => rintro ⟨mid, ⟨v, hv, hm⟩, ho⟩; exact ⟨v, hv, mid, hm, ho⟩

theorem get?_writeAll_of_not_mem (h : writeAll access rows summaries base = .ok out)
    (hn : name ∉ summaries.map output) : out.get? name = base.get? name := by
  induction summaries generalizing base with
  | nil => cases h; rfl
  | cons s summaries ih =>
    have ⟨v, _, h⟩ := bind_eq_ok.mp h
    have ⟨hne, hn⟩ := not_or.mp (mt List.mem_cons.mpr hn)
    rw [ih h hn, get?_insert_of_ne hne]

theorem ordered_writeAll (hb : base.Ordered) (h : writeAll access rows summaries base = .ok out) : out.Ordered := by
  induction summaries generalizing base with
  | nil => cases h; exact hb
  | cons s summaries ih =>
    have ⟨v, _, h⟩ := bind_eq_ok.mp h
    exact ih (ordered_insert _ _ hb) h

-- What is written on top of members is what would be written alone.
theorem writeAll_overlay (hb : base.Ordered) (ho : own.Ordered) :
    writeAll access rows summaries (base.overlay own) = .ok out ↔
      ∃ out', writeAll access rows summaries own = .ok out' ∧ base.overlay out' = out := by
  induction summaries generalizing own with
  | nil => simp [writeAll]
  | cons s summaries ih =>
    simp only [writeAll, bind_eq_ok, insert_overlay hb ho, ih (ordered_insert _ _ ho)]
    constructor
    case mp => rintro ⟨v, hv, out', hw, he⟩; exact ⟨out', ⟨v, hv, hw⟩, he⟩
    case mpr => rintro ⟨out', ⟨v, hv, hw⟩, he⟩; exact ⟨v, hv, out', hw, he⟩

-- The value of an aggregate stands under its output, unless it is written over.
theorem get?_writeAll_of_last {before after : List Summary} {s : Summary}
    (h : writeAll access rows (before ++ s :: after) base = .ok out) (hn : s.output ∉ after.map output) :
    ∃ value, s.eval access rows = .ok value ∧ out.get? s.output = some value := by
  have ⟨mid, _, h⟩ := writeAll_append.mp h
  have ⟨value, hv, h⟩ := bind_eq_ok.mp h
  refine ⟨value, hv, ?_⟩
  rw [get?_writeAll_of_not_mem h hn]
  exact get?_insert_self _ _ _

end Summary

namespace Stage

variable {properties : List PropertyPath} {summaries : List Summary} {access : Access} {rows out : List Value}

-- The row of a group: its keys, and on top of them what its members alone are summarized to.
def Summarizes (properties : List PropertyPath) (summaries : List Summary) (access : Access) (g : Group) (row : Value) :
    Prop :=
  ∃ base own, Group.HoldsKeys properties g.keys base ∧
    Stage.run (.aggregate summaries access) g.members = .ok [.object own] ∧ row = .object (base.overlay own)

theorem run_aggregate {own : Members} : Stage.run (.aggregate summaries access) rows = .ok [.object own] ↔
    Summary.writeAll access rows summaries [] = .ok own := by
  simp only [Stage.run, summarize, bind_eq_ok, pure_eq_ok]
  constructor
  case mp => rintro ⟨_, ⟨_, hw, rfl⟩, he⟩; cases he; exact hw
  case mpr => exact fun hw => ⟨_, ⟨own, hw, rfl⟩, rfl⟩

theorem summarize_keyMembers {g : Group} {row : Value} :
    summarize summaries access g.members (Group.keyMembers properties g.keys) = .ok row ↔
      Summarizes properties summaries access g row := by
  have ho := Group.ordered_keyMembers properties g.keys
  simp only [summarize, bind_eq_ok, pure_eq_ok, Summarizes, run_aggregate, Group.holdsKeys_iff, exists_and_left,
    exists_eq_left]
  constructor
  case mp =>
    rintro ⟨out, hw, he⟩
    obtain ⟨own, hw, ho⟩ := (Summary.writeAll_overlay ho List.Pairwise.nil).mp hw
    exact ⟨own, hw, by rw [ho, he]⟩
  case mpr =>
    rintro ⟨own, hw, he⟩
    exact ⟨_, (Summary.writeAll_overlay ho List.Pairwise.nil).mpr ⟨own, hw, rfl⟩, he.symm⟩

-- Without aggregates a row of the grouping is the keys of the group.
theorem run_groupBy_nil (properties : List PropertyPath) (access : Access) (rows : List Value) :
    run (.groupBy properties [] access) rows = do
      let keyed ← rows.mapM fun row => do return (← access.readAll row properties, row)
      return (Group.ofRows keyed).map fun g => .object (Group.keyMembers properties g.keys) := by
  have hs : ∀ rows out, summarize [] access rows out = pure (.object out) := fun _ _ => rfl
  simp only [run, groupRows, hs, List.mapM_pure]

end Stage
end RowPipeline
