import RowPipeline.Row.Access
import RowPipeline.Stage.Grouping
import RowPipeline.Proofs.Value.Text
import RowPipeline.Proofs.Success
import Mathlib.Data.List.Basic

namespace RowPipeline

namespace Group

variable {keys keys' : List Value} {row : Value} {rows : List (List Value × Value)} {g : Group} {groups : List Group}
  {count : Nat}

def fingerprints (keys : List Value) : List String :=
  keys.map Value.fingerprint

theorem not_mem_fingerprint (v : Value) : '\x1f' ∉ v.fingerprint.toList := by
  intro h
  have hl := Value.le_of_mem_text h
  contradiction

theorem fingerprint_ne_nil (v : Value) : v.fingerprint.toList ≠ [] := by
  have ⟨c, cs, hc, _⟩ := v.normalized.exists_lead
  rw [Value.fingerprint, Value.text, String.toList_ofList, hc]
  exact List.cons_ne_nil c cs

-- The separator is in no fingerprint, so the label can be taken apart again.
theorem splitOn_labelOf (hn : keys ≠ []) :
    (labelOf keys).toList.splitOn '\x1f' = (fingerprints keys).map String.toList := by
  have hm : ∀ cs ∈ (fingerprints keys).map String.toList, '\x1f' ∉ cs := by
    intro cs hc
    have ⟨s, hs, hc⟩ := List.mem_map.mp hc
    have ⟨v, _, hv⟩ := List.mem_map.mp hs
    rw [← hc, ← hv]
    exact not_mem_fingerprint v
  have hi : (labelOf keys).toList = ['\x1f'].intercalate ((fingerprints keys).map String.toList) :=
    String.toList_intercalate
  rw [hi]
  exact List.splitOn_intercalate '\x1f' hm (by simpa [fingerprints] using hn)

theorem labelOf_eq_iff (hl : keys.length = keys'.length) :
    labelOf keys = labelOf keys' ↔ fingerprints keys = fingerprints keys' := by
  constructor
  case mp =>
    intro h
    by_cases hn : keys = []
    case pos =>
      have hn' : keys' = [] := List.length_eq_zero_iff.mp (hn ▸ hl).symm
      rw [hn, hn']
    case neg =>
      have hn' : keys' ≠ [] := by
        rintro rfl
        exact hn (List.length_eq_zero_iff.mp hl)
      have hc := splitOn_labelOf hn
      rw [h, splitOn_labelOf hn'] at hc
      exact (List.map_injective_iff.mpr (fun _ _ => String.toList_inj.mp) hc).symm
  case mpr => exact congrArg ("\x1f".intercalate ·)

-- Only the label of no keys is empty.
theorem labelOf_nil_ne (hn : keys ≠ []) : labelOf [] ≠ labelOf keys := by
  intro h
  have hs : [[]] = (fingerprints keys).map String.toList := by
    rw [← splitOn_labelOf hn, ← h]
    rfl
  have ⟨s, hs, he⟩ : ∃ s ∈ fingerprints keys, s.toList = [] := by
    rw [← List.mem_map, ← hs]
    exact List.mem_singleton_self []
  have ⟨v, _, hv⟩ := List.mem_map.mp hs
  exact fingerprint_ne_nil v (hv ▸ he)

theorem length_eq_of_labelOf (h : labelOf keys = labelOf keys') : keys.length = keys'.length := by
  by_cases hn : keys = []
  case pos =>
    subst hn
    exact congrArg List.length (Decidable.byContradiction fun hn => labelOf_nil_ne (Ne.symm hn) h)
  case neg =>
    have hn' : keys' ≠ [] := by
      rintro rfl
      exact labelOf_nil_ne hn h.symm
    have hs := splitOn_labelOf hn
    rw [h, splitOn_labelOf hn'] at hs
    simpa [fingerprints] using (congrArg List.length hs).symm

-- Labels are only equal key by key, whatever characters the keys hold.
theorem labels_agree_iff (keys keys' : List Value) :
    labelOf keys = labelOf keys' ↔ List.Forall₂ (fun a b => a.fingerprint = b.fingerprint) keys keys' := by
  have hf : fingerprints keys = fingerprints keys' ↔
      List.Forall₂ (fun a b => a.fingerprint = b.fingerprint) keys keys' := by
    rw [fingerprints, fingerprints, ← List.forall₂_eq_eq_eq, List.forall₂_map_left_iff, List.forall₂_map_right_iff]
  constructor
  case mp =>
    intro h
    exact hf.mp ((labelOf_eq_iff (length_eq_of_labelOf h)).mp h)
  case mpr =>
    intro h
    exact (labelOf_eq_iff h.length_eq).mpr (hf.mpr h)

def membersOf (rows : List (List Value × Value)) (tuple : List String) : List Value :=
  (rows.filter (fingerprints ·.1 = tuple)).map (·.2)

def firstKeys? (rows : List (List Value × Value)) (tuple : List String) : Option (List Value) :=
  (rows.find? (fingerprints ·.1 = tuple)).map (·.1)

-- One group for each tuple of fingerprints, in the order in which the tuples first occur, with all rows of the tuple
-- and the keys of the first of them.
structure Divides (rows : List (List Value × Value)) (groups : List Group) : Prop where
  tuples  : groups.map (fingerprints ·.keys) = (rows.map (fingerprints ·.1)).eraseDups
  members : ∀ g ∈ groups, g.members = membersOf rows (fingerprints g.keys)
  keys    : ∀ g ∈ groups, firstKeys? rows (fingerprints g.keys) = some g.keys

-- Groups are found by their labels, which are those of their keys.
structure Labelled (count : Nat) (groups : List Group) : Prop where
  label  : ∀ g ∈ groups, g.label = labelOf g.keys
  length : ∀ g ∈ groups, g.keys.length = count

section Insert

variable {label : String}

def push (label : String) (row : Value) (g : Group) : Group :=
  if g.label = label then { g with members := g.members ++ [row] } else g

-- A row goes into the group of its label, or into a new one at the end.
theorem go_of_not_mem (h : ∀ g ∈ groups, g.label ≠ label) :
    insert.go keys row label groups = groups ++ [⟨label, keys, [row]⟩] := by
  induction groups with
  | nil => rfl
  | cons g groups ih =>
    have ⟨hg, hgs⟩ := List.forall_mem_cons.mp h
    rw [insert.go, if_neg hg, ih hgs, List.cons_append]

theorem go_of_mem (hn : (groups.map Group.label).Nodup) (h : ∃ g ∈ groups, g.label = label) :
    insert.go keys row label groups = groups.map (push label row) := by
  induction groups with
  | nil =>
    have ⟨_, hg, _⟩ := h
    contradiction
  | cons g groups ih =>
    have ⟨hg, hn⟩ := List.nodup_cons.mp hn
    by_cases hl : g.label = label
    case pos =>
      have hr : ∀ g' ∈ groups, g'.label ≠ label := by
        intro g' hg' he
        exact hg (List.mem_map.mpr ⟨g', hg', he.trans hl.symm⟩)
      have hm : groups.map (push label row) = groups :=
        (List.map_congr_left fun g' hg' => if_neg (hr g' hg')).trans (List.map_id groups)
      rw [insert.go, if_pos hl, List.map_cons, push, if_pos hl, hm]
    case neg =>
      have ⟨g', hg', he⟩ := h
      have hr : ∃ g ∈ groups, g.label = label := by
        rcases List.mem_cons.mp hg' with rfl | hg'
        case inl => contradiction
        case inr => exact ⟨g', hg', he⟩
      rw [insert.go, if_neg hl, List.map_cons, push, if_neg hl, ih hn hr]

theorem of_mem_go (h : g ∈ insert.go keys row label groups) :
    (g.label = label ∧ g.keys = keys) ∨ ∃ g' ∈ groups, g.label = g'.label ∧ g.keys = g'.keys := by
  induction groups with
  | nil =>
    rw [List.mem_singleton.mp h]
    exact .inl ⟨rfl, rfl⟩
  | cons g₀ groups ih =>
    rw [insert.go] at h
    split at h
    case isTrue =>
      rcases List.mem_cons.mp h with he | h
      case inl => exact .inr ⟨g₀, List.mem_cons_self, by rw [he], by rw [he]⟩
      case inr => exact .inr ⟨g, List.mem_cons_of_mem _ h, rfl, rfl⟩
    case isFalse =>
      rcases List.mem_cons.mp h with he | h
      case inl => exact .inr ⟨g₀, List.mem_cons_self, by rw [he], by rw [he]⟩
      case inr =>
        apply (ih h).imp_right
        intro ⟨g', hg', hs⟩
        exact ⟨g', List.mem_cons_of_mem _ hg', hs⟩

theorem perm_go : ((insert.go keys row label groups).flatMap members).Perm (groups.flatMap members ++ [row]) := by
  induction groups with
  | nil => exact .refl _
  | cons g groups ih =>
    rw [insert.go]
    split
    case isTrue =>
      rw [List.flatMap_cons, List.flatMap_cons, List.append_assoc, List.append_assoc]
      exact .append_left _ List.perm_append_comm
    case isFalse =>
      rw [List.flatMap_cons, List.flatMap_cons, List.append_assoc]
      exact ih.append_left _

end Insert

section Distinct

variable {α : Type} [BEq α] [LawfulBEq α]

theorem eraseDups_concat (ts : List α) (t : α) :
    (ts ++ [t]).eraseDups = if t ∈ ts then ts.eraseDups else ts.eraseDups ++ [t] := by
  rw [List.eraseDups_append]
  split
  case isTrue h => simp [List.removeAll, h]
  case isFalse h =>
    have hr : [t].removeAll ts = [t] := by simp [List.removeAll, h]
    rw [hr]
    rfl

theorem nodup_eraseDups (ts : List α) : ts.eraseDups.Nodup := by
  induction ts using List.reverseRecOn with
  | nil => exact .nil
  | append_singleton ts t ih =>
    rw [eraseDups_concat]
    split
    case isTrue => exact ih
    case isFalse h =>
      rw [← List.concat_eq_append]
      exact ih.concat fun hm => h (List.mem_eraseDups.mp hm)

end Distinct

-- The row becomes a member if its keys belong to the group.
def add (keys : List Value) (row : Value) (g : Group) : Group :=
  { g with members := g.members ++ if fingerprints keys = fingerprints g.keys then [row] else [] }

section Step

variable {tuple : List String}

theorem membersOf_concat : membersOf (rows ++ [(keys, row)]) tuple =
    membersOf rows tuple ++ if fingerprints keys = tuple then [row] else [] := by
  simp only [membersOf, List.filter_append, List.map_append]
  by_cases h : fingerprints keys = tuple
  case pos => simp [h]
  case neg => simp [h]

theorem firstKeys?_concat : firstKeys? (rows ++ [(keys, row)]) tuple =
    (firstKeys? rows tuple).or (if fingerprints keys = tuple then some keys else none) := by
  simp only [firstKeys?, List.find?_append, Option.map_or]
  by_cases h : fingerprints keys = tuple
  case pos => simp [h]
  case neg => simp [h]

theorem membersOf_eq_nil (h : tuple ∉ rows.map (fingerprints ·.1)) : membersOf rows tuple = [] := by
  have hf : rows.filter (fingerprints ·.1 = tuple) = [] := by
    apply List.filter_eq_nil_iff.mpr
    intro r hr he
    exact h (List.mem_map.mpr ⟨r, hr, of_decide_eq_true he⟩)
  rw [membersOf, hf, List.map_nil]

theorem firstKeys?_eq_none (h : tuple ∉ rows.map (fingerprints ·.1)) : firstKeys? rows tuple = none := by
  have hf : rows.find? (fingerprints ·.1 = tuple) = none := by
    apply List.find?_eq_none.mpr
    intro r hr he
    exact h (List.mem_map.mpr ⟨r, hr, of_decide_eq_true he⟩)
  rw [firstKeys?, hf, Option.map_none]

end Step

namespace Labelled

theorem label_eq_iff (hl : Labelled keys.length groups) (hg : g ∈ groups) :
    g.label = labelOf keys ↔ fingerprints g.keys = fingerprints keys := by
  rw [hl.label g hg]
  exact labelOf_eq_iff (hl.length g hg)

-- A new tuple makes a new group.
theorem insert_of_new (hl : Labelled keys.length groups) (h : ∀ g ∈ groups, fingerprints g.keys ≠ fingerprints keys) :
    Group.insert keys row groups = groups ++ [⟨labelOf keys, keys, [row]⟩] :=
  go_of_not_mem fun g hg => mt (hl.label_eq_iff hg).mp (h g hg)

-- With any other the group of the tuple gets one more member.
theorem insert_of_known (hl : Labelled keys.length groups) (hn : (groups.map (fingerprints ·.keys)).Nodup)
    (h : ∃ g ∈ groups, fingerprints g.keys = fingerprints keys) :
    Group.insert keys row groups = groups.map (add keys row) := by
  have hd : (groups.map Group.label).Nodup := by
    apply List.pairwise_map.mpr
    apply (List.pairwise_map.mp hn).imp_of_mem
    intro g g' hg hg' hne he
    rw [hl.label g hg, hl.label g' hg'] at he
    exact hne ((labelOf_eq_iff ((hl.length g hg).trans (hl.length g' hg').symm)).mp he)
  have ⟨g, hg, he⟩ := h
  rw [Group.insert, go_of_mem hd ⟨g, hg, (hl.label_eq_iff hg).mpr he⟩]
  apply List.map_congr_left
  intro g hg
  by_cases he : fingerprints g.keys = fingerprints keys
  case pos => rw [push, if_pos ((hl.label_eq_iff hg).mpr he), add, if_pos he.symm]
  case neg => rw [push, if_neg (mt (hl.label_eq_iff hg).mp he), add, if_neg (Ne.symm he), List.append_nil]

end Labelled

namespace Divides

theorem nil : Divides [] [] :=
  ⟨rfl, nofun, nofun⟩

theorem nodup (h : Divides rows groups) : (groups.map (fingerprints ·.keys)).Nodup :=
  h.tuples ▸ nodup_eraseDups _

theorem mem_tuples (h : Divides rows groups) {tuple : List String} :
    (∃ g ∈ groups, fingerprints g.keys = tuple) ↔ tuple ∈ rows.map (fingerprints ·.1) := by
  rw [← List.mem_eraseDups, ← h.tuples, List.mem_map]

-- One more row keeps the division.
theorem insert (h : Divides rows groups) (hl : Labelled keys.length groups) :
    Divides (rows ++ [(keys, row)]) (Group.insert keys row groups) := by
  by_cases hk : fingerprints keys ∈ rows.map (fingerprints ·.1)
  case pos =>
    rw [hl.insert_of_known h.nodup (h.mem_tuples.mpr hk)]
    constructor
    case tuples =>
      rw [List.map_map, List.map_append]
      exact h.tuples.trans ((eraseDups_concat _ _).trans (if_pos hk)).symm
    case members =>
      refine List.forall_mem_map.mpr fun g hg => ?_
      exact (congrArg (· ++ _) (h.members g hg)).trans membersOf_concat.symm
    case keys =>
      refine List.forall_mem_map.mpr fun g hg => ?_
      change firstKeys? (rows ++ [(keys, row)]) (fingerprints g.keys) = some g.keys
      rw [firstKeys?_concat, h.keys g hg]
      rfl
  case neg =>
    have hg : ∀ g ∈ groups, fingerprints g.keys ≠ fingerprints keys := fun g hg he => hk (h.mem_tuples.mp ⟨g, hg, he⟩)
    rw [hl.insert_of_new hg]
    constructor
    case tuples =>
      rw [List.map_append, List.map_append, h.tuples]
      exact ((eraseDups_concat _ _).trans (if_neg hk)).symm
    case members =>
      refine List.forall_mem_append.mpr ⟨?old, ?new⟩
      case old =>
        intro g hm
        rw [membersOf_concat, if_neg (Ne.symm (hg g hm)), List.append_nil]
        exact h.members g hm
      case new =>
        refine List.forall_mem_singleton.mpr ?_
        rw [membersOf_concat, membersOf_eq_nil hk, if_pos rfl]
        rfl
    case keys =>
      refine List.forall_mem_append.mpr ⟨?old, ?new⟩
      case old =>
        intro g hm
        rw [firstKeys?_concat, h.keys g hm]
        rfl
      case new =>
        refine List.forall_mem_singleton.mpr ?_
        rw [firstKeys?_concat, firstKeys?_eq_none hk, if_pos rfl]
        rfl

theorem mem_members (h : Divides rows groups) (hg : g ∈ groups) :
    row ∈ g.members ↔ ∃ keys, (keys, row) ∈ rows ∧ fingerprints keys = fingerprints g.keys := by
  rw [h.members g hg, membersOf, List.mem_map]
  constructor
  case mp =>
    intro ⟨r, hr, he⟩
    have ⟨hm, ht⟩ := List.mem_filter.mp hr
    exact ⟨r.1, he ▸ hm, of_decide_eq_true ht⟩
  case mpr =>
    intro ⟨keys, hr, ht⟩
    exact ⟨(keys, row), List.mem_filter.mpr ⟨hr, decide_eq_true ht⟩, rfl⟩

end Divides

theorem Labelled.insert (hl : Labelled keys.length groups) : Labelled keys.length (Group.insert keys row groups) := by
  constructor
  case label =>
    intro g hg
    rcases of_mem_go hg with ⟨he, hk⟩ | ⟨g', hg', he, hk⟩
    case inl => rw [he, hk]
    case inr => rw [he, hk, hl.label g' hg']
  case length =>
    intro g hg
    rcases of_mem_go hg with ⟨_, hk⟩ | ⟨g', hg', _, hk⟩
    case inl => rw [hk]
    case inr => rw [hk, hl.length g' hg']

-- What one row preserves, all rows do.
theorem divides_ofRows (h : ∀ r ∈ rows, r.1.length = count) :
    Divides rows (ofRows rows) ∧ Labelled count (ofRows rows) := by
  induction rows using List.reverseRecOn with
  | nil => exact ⟨.nil, nofun, nofun⟩
  | append_singleton rows r ih =>
    have ⟨hr, hl⟩ := List.forall_mem_append.mp h
    have hl : r.1.length = count := hl r List.mem_cons_self
    subst hl
    have ⟨hd, hl⟩ := ih hr
    have ho : ofRows (rows ++ [r]) = Group.insert r.1 r.2 (ofRows rows) := List.foldl_concat _ _ _ _
    rw [ho]
    exact ⟨hd.insert hl, hl.insert⟩

theorem perm_ofRows (rows : List (List Value × Value)) : ((ofRows rows).flatMap members).Perm (rows.map (·.2)) := by
  induction rows using List.reverseRecOn with
  | nil => exact .refl _
  | append_singleton rows r ih =>
    have ho : ofRows (rows ++ [r]) = Group.insert r.1 r.2 (ofRows rows) := List.foldl_concat _ _ _ _
    rw [ho, List.map_append]
    exact perm_go.trans (ih.append_right _)

section Read

variable {access : Access} {paths : List PropertyPath} {values : List Value} {keyed : List (List Value × Value)}

theorem length_of_readAll
    (h : List.Forall₂ (fun row k => access.readAll row paths = .ok k.1 ∧ row = k.2) values keyed) :
    ∀ k ∈ keyed, k.1.length = paths.length := by
  intro k hk
  have ⟨row, _, hk, _⟩ := exists_of_mem_right h k hk
  exact (mapM_eq_ok.mp hk).length_eq.symm

theorem divides_of_readAll
    (h : List.Forall₂ (fun row k => access.readAll row paths = .ok k.1 ∧ row = k.2) values keyed) :
    Divides keyed (ofRows keyed) :=
  (divides_ofRows (length_of_readAll h)).left

-- All copies of a row come with the same keys.
theorem readAll_of_mem
    (h : List.Forall₂ (fun row k => access.readAll row paths = .ok k.1 ∧ row = k.2) values keyed)
    (hm : (keys, row) ∈ keyed) : access.readAll row paths = .ok keys := by
  have ⟨row', _, hk, he⟩ := exists_of_mem_right h _ hm
  rwa [he] at hk

theorem mem_of_readAll
    (h : List.Forall₂ (fun row k => access.readAll row paths = .ok k.1 ∧ row = k.2) values keyed)
    (hr : row ∈ values) (hk : access.readAll row paths = .ok keys) : (keys, row) ∈ keyed := by
  have ⟨(keys', row'), hm, hk', he⟩ := exists_of_mem_left h row hr
  rw [hk] at hk'
  cases hk'
  exact he ▸ hm

theorem members_subset
    (h : List.Forall₂ (fun row k => access.readAll row paths = .ok k.1 ∧ row = k.2) values keyed)
    (hg : g ∈ ofRows keyed) : g.members ⊆ values := by
  intro row hr
  obtain ⟨k, hk, rfl⟩ := List.mem_map.mp ((perm_ofRows keyed).mem_iff.mp (List.mem_flatMap.mpr ⟨g, hg, hr⟩))
  obtain ⟨source, hs, -, he⟩ := exists_of_mem_right h k hk
  exact he ▸ hs

end Read

end Group
end RowPipeline
