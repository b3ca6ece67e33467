import RowPipeline.Proofs.Stage.GroupRows
import RowPipeline.Proofs.Value.Fingerprint

namespace RowPipeline

namespace PropertyPath

-- The path, or one that leads to it, is written somewhere, and later writes do not go on from there.
def Lasts (paths : List PropertyPath) (p : PropertyPath) : Prop :=
  ∃ before q after, paths = before ++ q :: after ∧ q ≠ [] ∧ q <+: p ∧ ∀ r ∈ after, q <+: r → r = q

variable {paths : List PropertyPath} {p q : PropertyPath}

theorem Lasts.of_isPrefix (h : Lasts paths q) (hq : q <+: p) : Lasts paths p := by
  have ⟨before, r, after, hs, hr, hp, ha⟩ := h
  exact ⟨before, r, after, hs, hr, hp.trans hq, ha⟩

-- Of the paths that lead to one that does not last take the shortest.
theorem exists_shortest (hp : p ∈ paths) (hl : ¬Lasts paths p) :
    ∃ q ∈ paths, ¬Lasts paths q ∧ ∀ r ∈ paths, r <+: q → r = q := by
  induction hn : p.length using Nat.strong_induction_on generalizing p with
  | h n ih =>
    by_cases hs : ∃ r ∈ paths, r <+: p ∧ r ≠ p
    case pos =>
      have ⟨r, hr, hrp, hne⟩ := hs
      have hlt : r.length < n := hn ▸ lt_of_le_of_ne hrp.length_le (mt hrp.eq_of_length hne)
      exact ih r.length hlt hr (mt (·.of_isPrefix hrp) hl) rfl
    case neg => exact ⟨p, hp, hl, fun r hr hrp => by_contra fun hne => hs ⟨r, hr, hrp, hne⟩⟩

end PropertyPath

open PropertyPath Value

namespace Group

variable {row : Value} {ms : Members} {paths : List PropertyPath} {p q : PropertyPath}

-- What a row has at the paths, missing members being null.
def keysAt (row : Value) (paths : List PropertyPath) : List Value :=
  paths.map fun p => (row.at? p).getD .null

-- Below the names there is the same as in the row.
def Shows (row : Value) (names : List String) (ms : Members) : Prop :=
  ((object ms).at? names).getD null = (row.at? names).getD null

-- Writing what the row has anywhere else, or on the way, leaves it so.
theorem Shows.setPath (h : Shows row q ms) (hp : q <+: p → p = q) :
    Shows row q (ms.setPath p ((row.at? p).getD null)) := by
  by_cases hn : p = []
  case pos => rw [hn]; exact h
  case neg =>
    by_cases hc : p <+: q
    case pos =>
      obtain ⟨rest, rfl⟩ := hc
      rw [Shows, Members.at?_setPath_append hn, getD_at?_append]
    case neg =>
      have hc' : ¬q <+: p := fun hc' => hc (hp hc' ▸ List.prefix_rfl)
      rwa [Shows, Members.at?_setPath_of_not_isPrefix hc hc']

theorem keyMembers_keysAt (row : Value) (paths : List PropertyPath) :
    keyMembers paths (keysAt row paths) = Members.setPaths [] (paths.map fun p => (p, (row.at? p).getD null)) := by
  rw [keyMembers_eq, keysAt, List.map_prod_left_eq_zip]

theorem shows_keyMembers (h : Lasts paths p) : Shows row p (keyMembers paths (keysAt row paths)) := by
  obtain ⟨before, q, after, rfl, hq, ⟨rest, rfl⟩, ha⟩ := h
  have hs : Shows row q (keyMembers (before ++ q :: after) (keysAt row (before ++ q :: after))) := by
    rw [keyMembers_keysAt, List.map_append, List.map_cons, Members.setPaths_append, Members.setPaths_cons]
    apply Members.setPaths_induction (P := Shows row q)
    case h => rw [Shows, Members.at?_setPath_self hq, Option.getD_some]
    case step => exact List.forall_mem_map.mpr fun r hr ms hm => hm.setPath (ha r hr)
  rw [Shows, getD_at?_append, hs, getD_at?_append row]

-- Rows with other numbers below one and the same path.
section Number

variable {ns : Members} {m n : Int} {ws : List PropertyPath} {r : PropertyPath}

def numberAt (p : PropertyPath) (n : Int) (r : PropertyPath) : PropertyPath × Value :=
  (r, if r = p then int n else null)

@[simp]
theorem numberAt_self (p : PropertyPath) (n : Int) : numberAt p n p = (p, int n) := by
  rw [numberAt, if_pos rfl]

theorem numberAt_of_ne (h : r ≠ p) : numberAt p n r = (r, null) := by
  rw [numberAt, if_neg h]

-- Nothing is written at the empty path.
theorem setPaths_numberAt_nil (m n : Int) (ms : Members) (ws : List PropertyPath) :
    ms.setPaths (ws.map (numberAt [] m)) = ms.setPaths (ws.map (numberAt [] n)) := by
  induction ws generalizing ms with
  | nil => rfl
  | cons r ws ih =>
    rw [List.map_cons, List.map_cons, Members.setPaths_cons, Members.setPaths_cons, ih]
    by_cases hr : r = []
    case pos => rw [hr, numberAt_self, numberAt_self]; rfl
    case neg => rw [numberAt_of_ne hr, numberAt_of_ne hr]

-- What is there for the two numbers before the rest is written: the same, or the same but for the numbers, if these
-- are written below later on.
inductive Close (p : PropertyPath) (m n : Int) (ws : List PropertyPath) : Members → Members → Prop
  | same (ms : Members) : Close p m n ws ms ms
  | apart (base : Members) (later : ∃ r ∈ ws, p <+: r ∧ r ≠ p) :
    Close p m n ws (base.setPath p (int m)) (base.setPath p (int n))

theorem Close.setPath_self (h : Close p m n (p :: ws) ms ns) (later : ∃ r ∈ ws, p <+: r ∧ r ≠ p) :
    Close p m n ws (ms.setPath p (int m)) (ns.setPath p (int n)) := by
  cases h with
  | same => exact .apart ms later
  | apart base =>
    rw [Members.setPath_setPath_self, Members.setPath_setPath_self]
    exact .apart base later

theorem Close.setPath_of_ne (h : Close p m n (r :: ws) ms ns) (hp : p ≠ []) (hne : r ≠ p) (hr : ¬r <+: p) (v : Value) :
    Close p m n ws (ms.setPath r v) (ns.setPath r v) := by
  cases h with
  | same => exact .same _
  | apart base later =>
    by_cases hc : p <+: r
    case pos =>
      obtain ⟨rest, rfl⟩ := hc
      have hn : rest ≠ [] := fun hn => hne (by rw [hn, List.append_nil])
      have he : (base.setPath p (int m)).setPath (p ++ rest) v = (base.setPath p (int n)).setPath (p ++ rest) v :=
        Members.setPath_setPath_append hp hn rfl
      exact he ▸ .same _
    case neg =>
      have ⟨r', hr', hpr, hne'⟩ := later
      have hm : r' ≠ r := by
        rintro rfl
        exact hc hpr
      rw [Members.setPath_comm hc hr, Members.setPath_comm hc hr]
      exact .apart _ ⟨r', List.mem_of_ne_of_mem hm hr', hpr, hne'⟩

-- Wherever the path is written, it is written below later on.
def Overwritten (p : PropertyPath) (ws : List PropertyPath) : Prop :=
  ∀ before after, ws = before ++ p :: after → ∃ r ∈ after, p <+: r ∧ r ≠ p

theorem overwritten_of_not_lasts (hp : p ≠ []) (h : ¬Lasts paths p) : Overwritten p paths := by
  intro before after hs
  by_contra hr
  refine h ⟨before, p, after, hs, hp, List.prefix_rfl, fun r hm hpr => ?_⟩
  exact by_contra fun hne => hr ⟨r, hm, hpr, hne⟩

-- In the end the numbers are gone.
theorem Close.setPaths_eq (h : Close p m n ws ms ns) (hp : p ≠ []) (hs : ∀ r ∈ ws, r <+: p → r = p)
    (ho : Overwritten p ws) : ms.setPaths (ws.map (numberAt p m)) = ns.setPaths (ws.map (numberAt p n)) := by
  induction ws generalizing ms ns with
  | nil =>
    cases h with
    | same => rfl
    | apart base later =>
      have ⟨_, hr, _⟩ := later
      cases hr
  | cons r ws ih =>
    have ⟨hr, hs⟩ := List.forall_mem_cons.mp hs
    have ho' : Overwritten p ws := fun before after hb => ho (r :: before) after (hb ▸ rfl)
    rw [List.map_cons, List.map_cons, Members.setPaths_cons, Members.setPaths_cons]
    refine ih ?_ hs ho'
    by_cases hne : r = p
    case pos =>
      subst hne
      rw [numberAt_self, numberAt_self]
      exact h.setPath_self (ho [] ws rfl)
    case neg =>
      rw [numberAt_of_ne hne, numberAt_of_ne hne]
      exact h.setPath_of_ne hp hne (mt hr hne) null

theorem keysAt_buried (hs : ∀ r ∈ paths, r <+: p → r = p) (n : Int) :
    keysAt (buried p (int n)) paths = paths.map fun r => (numberAt p n r).2 := by
  refine List.map_congr_left fun r hr => ?_
  by_cases hne : r = p
  case pos => rw [hne, at?_buried, numberAt_self, Option.getD_some]
  case neg => rw [at?_buried_of_not_isPrefix rfl (mt (hs r hr) hne), numberAt_of_ne hne, Option.getD_none]

-- The number is one of the keys.
theorem fingerprints_keysAt_buried (hp : p ∈ paths) :
    fingerprints (keysAt (buried p (int 0)) paths) ≠ fingerprints (keysAt (buried p (int 1)) paths) := by
  intro h
  rw [fingerprints, fingerprints, keysAt, keysAt, List.map_map, List.map_map] at h
  have hf := List.map_inj_left.mp h p hp
  simp only [Function.comp, at?_buried, Option.getD_some] at hf
  revert hf
  decide

theorem keyMembers_buried (hl : ¬Lasts paths p) (hs : ∀ r ∈ paths, r <+: p → r = p) (m n : Int) :
    keyMembers paths (keysAt (buried p (int m)) paths) = keyMembers paths (keysAt (buried p (int n)) paths) := by
  have hw : ∀ n, keyMembers paths (keysAt (buried p (int n)) paths) = Members.setPaths [] (paths.map (numberAt p n)) := by
    intro n
    rw [keyMembers_eq, keysAt_buried hs, ← List.map_prod_left_eq_zip]
    rfl
  rw [hw, hw]
  by_cases hp : p = []
  case pos => subst hp; exact setPaths_numberAt_nil m n [] paths
  case neg => exact Close.setPaths_eq (.same []) hp hs (overwritten_of_not_lasts hp hl)

end Number

end Group

namespace Clause

variable {registry : Registry} {access : Access} {propagates : Bool} {paths : List PropertyPath} {rows out : List Value}
  {p : PropertyPath}

-- Without aggregates a row of the grouping is the keys of the group.
theorem makes_groupBy_none : Makes access registry [.groupBy paths none] rows out ↔
    ∃ keyed, List.Forall₂ (fun row r => access.readAll row paths = .ok r.1 ∧ row = r.2) rows keyed ∧
      (Group.ofRows keyed).map (fun g => object (Group.keyMembers paths g.keys)) = out := by
  have hr : Makes access registry [.groupBy paths none] rows out ↔ Stage.run (.groupBy paths [] access) rows = .ok out :=
    makes_of_compile rfl
  rw [hr, Stage.run_groupBy_nil, bind_eq_ok]
  simp only [Stage.keyed_eq_ok, pure_eq_ok]

-- Rows that are equal show the same keys, and so they are rows of one group.
theorem pairwise_of_lasts (hl : ∀ p ∈ paths, Lasts paths p)
    (h : Makes ⟨.exact, propagates⟩ registry [.groupBy paths none] rows out) : out.Pairwise fun a b => ¬a.same b := by
  obtain ⟨keyed, hk, rfl⟩ := makes_groupBy_none.mp h
  apply List.pairwise_map.mpr
  apply (List.pairwise_map.mp (Group.divides_of_readAll hk).nodup).imp_of_mem
  intro g g' hg hg' hne hsame
  have ⟨row, _, hr⟩ := Group.exists_readAll_keys hk hg
  have ⟨row', _, hr'⟩ := Group.exists_readAll_keys hk hg'
  have hr : g.keys = Group.keysAt row paths := Access.eq_of_readAll_exact hr
  have hr' : g'.keys = Group.keysAt row' paths := Access.eq_of_readAll_exact hr'
  rw [hr, hr'] at hne hsame
  apply hne
  rw [Group.fingerprints, Group.fingerprints, Group.keysAt, Group.keysAt, List.map_map, List.map_map]
  refine List.map_congr_left fun p hp => ?_
  have hf := fingerprint_at? (fingerprint_of_same hsame) p
  rwa [Group.shows_keyMembers (hl p hp), Group.shows_keyMembers (hl p hp)] at hf

-- Two rows that only differ in what is written over are two groups, and come out as one and the same row.
theorem exists_not_pairwise (registry : Registry) (hp : p ∈ paths) (hl : ¬Lasts paths p) : ∃ rows out,
    Makes ⟨.exact, true⟩ registry [.groupBy paths none] rows out ∧ ¬out.Pairwise fun a b => ¬a.same b := by
  have ⟨q, hq, hl, hs⟩ := exists_shortest hp hl
  let rows := [buried q (int 0), buried q (int 1)]
  let keyed := rows.map fun row => (Group.keysAt row paths, row)
  let result := object (Group.keyMembers paths (Group.keysAt (buried q (int 0)) paths))
  have hk : List.Forall₂ (fun row r => (⟨.exact, true⟩ : Access).readAll row paths = .ok r.1 ∧ row = r.2) rows keyed := by
    rw [List.forall₂_map_right_iff, List.forall₂_same]
    exact fun row _ => ⟨Access.readAll_exact row paths, rfl⟩
  have hlen : (Group.ofRows keyed).length = 2 := by
    have ht := congrArg List.length (Group.divides_of_readAll hk).tuples
    rw [List.length_map] at ht
    rw [ht]
    have hne := Group.fingerprints_keysAt_buried hq
    simp [keyed, rows, List.eraseDups_cons, Ne.symm hne]
  have hall : ∀ g ∈ Group.ofRows keyed, object (Group.keyMembers paths g.keys) = result := by
    intro g hg
    have ⟨row, hm, hr⟩ := Group.exists_readAll_keys hk hg
    have hr : g.keys = Group.keysAt row paths := Access.eq_of_readAll_exact hr
    have ⟨n, hn⟩ : ∃ n, row = buried q (int n) := by
      rcases List.mem_pair.mp hm with hm | hm
      case inl => exact ⟨0, hm⟩
      case inr => exact ⟨1, hm⟩
    rw [hr, hn, Group.keyMembers_buried hl hs n 0]
  refine ⟨rows, _, makes_groupBy_none.mpr ⟨keyed, hk, rfl⟩, ?_⟩
  rw [List.map_congr_left hall, List.map_const', hlen]
  intro h
  exact List.rel_of_pairwise_cons h List.mem_cons_self (same_self result)

-- Which rows come out is up to the paths alone: the ones that a later path goes on from have to be kept elsewhere.
theorem groupBy_distinct_iff (registry : Registry) (paths : List PropertyPath) :
    (∀ handling rows out, (∃ stages, Stage.ofClause [.groupBy paths none] .exact ⟨handling⟩ registry = .ok stages ∧
      ((Query.ofRows rows).compose stages).execute = .ok out) → out.Pairwise fun a b => ¬a.same b) ↔
    ∀ p ∈ paths, Lasts paths p := by
  constructor
  case mp =>
    intro h p hp
    by_contra hl
    have ⟨rows, out, hm, hd⟩ := exists_not_pairwise registry hp hl
    exact hd (h .propagate rows out hm)
  case mpr => exact fun hl handling rows out h => pairwise_of_lasts hl h

-- The keys 5 and 6 are not objects and give way to one with the second key.
theorem not_groupBy_distinct :
    let paths : List PropertyPath := [["A"], ["A", "B"]]
    let rows := [object [("A", int 5)], object [("A", int 6)]]
    let out := [object [("A", object [("B", null)])], object [("A", object [("B", null)])]]
    parse none " groupby ( ( A , A/B ) ) " = .ok [.groupBy paths none] ∧
      (∃ stages, Stage.ofClause [.groupBy paths none] .exact ⟨.refuse⟩ .builtins = .ok stages ∧
        ((Query.ofRows rows).compose stages).execute = .ok out) ∧
      ¬out.Pairwise fun a b => ¬a.same b := by
  intro paths rows out
  refine ⟨?_, ⟨_, rfl, rfl⟩, fun h => List.rel_of_pairwise_cons h List.mem_cons_self (same_self _)⟩
  have ht : render [.groupBy paths none] (fun _ => " ") = " groupby ( ( A , A/B ) ) " := rfl
  have hi : IsIdentifier "A" ∧ IsIdentifier "B" := by decide
  rw [← ht]
  apply parse_groupBy
  simp [paths, Transformation.WellFormed, PropertyPath.WellFormed, hi]

end Clause
end RowPipeline
