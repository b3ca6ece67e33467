import RowPipeline.Row.Condition
import RowPipeline.Method.Builtin
import RowPipeline.Proofs.Stage.Grouping
import RowPipeline.Proofs.Value.Fingerprint
import RowPipeline.Proofs.Success

namespace RowPipeline

open Value

variable {access : Access} {paths : List PropertyPath} {rows : List Value} {keyed : List (List Value × Value)}
  {r s : Value} {as bs : List Value}

namespace Group

theorem fingerprints_eq_iff : fingerprints as = fingerprints bs ↔
    List.Forall₂ (fun a b => a.fingerprint = b.fingerprint) as bs := by
  rw [fingerprints, fingerprints, ← List.forall₂_eq_eq_eq, List.forall₂_map_left_iff, List.forall₂_map_right_iff]

def Together (keyed : List (List Value × Value)) (r s : Value) : Prop :=
  ∃ g ∈ ofRows keyed, r ∈ g.members ∧ s ∈ g.members

-- A row is in the group that has its fingerprints.
theorem mem_members_iff {g : Group}
    (h : List.Forall₂ (fun row k => access.readAll row paths = .ok k.1 ∧ row = k.2) rows keyed)
    (hr : r ∈ rows) (ha : access.readAll r paths = .ok as) (hg : g ∈ ofRows keyed) :
    r ∈ g.members ↔ fingerprints as = fingerprints g.keys := by
  rw [(divides_of_readAll h).mem_members hg]
  constructor
  case mp =>
    intro ⟨keys, hm, ht⟩
    cases ha.symm.trans (readAll_of_mem h hm)
    exact ht
  case mpr => exact fun ht => ⟨as, mem_of_readAll h hr ha, ht⟩

theorem together_iff (h : List.Forall₂ (fun row k => access.readAll row paths = .ok k.1 ∧ row = k.2) rows keyed)
    (hr : r ∈ rows) (hs : s ∈ rows) (ha : access.readAll r paths = .ok as) (hb : access.readAll s paths = .ok bs) :
    Together keyed r s ↔ fingerprints as = fingerprints bs := by
  constructor
  case mp =>
    intro ⟨g, hg, hrg, hsg⟩
    have ht := (mem_members_iff h hs hb hg).mp hsg
    exact ((mem_members_iff h hr ha hg).mp hrg).trans ht.symm
  case mpr =>
    intro he
    have hm := List.mem_map_of_mem (f := fun k => fingerprints k.1) (mem_of_readAll h hr ha)
    have ⟨g, hg, ht⟩ := (divides_of_readAll h).mem_tuples.mpr hm
    exact ⟨g, hg, (mem_members_iff h hr ha hg).mpr ht.symm, (mem_members_iff h hs hb hg).mpr (he ▸ ht.symm)⟩

end Group

-- Filters find each value under its path.
def Finds (access : Access) (row : Value) (paths : List PropertyPath) (values : List Value) : Prop :=
  List.Forall₂ (fun path v => (Filter.compare .eq (.path path) (.literal v)).eval access row = .ok true) paths values

theorem finds_iff (h : access.readAll r paths = .ok as) : Finds access r paths bs ↔ List.Forall₂ (·.equal ·) as bs := by
  have he : ∀ {path a b}, access.read r path = .ok a →
      ((Filter.compare .eq (.path path) (.literal b)).eval access r = .ok true ↔ a.equal b) := by
    intro path a b ha
    simp [Filter.eval, Operand.eval, ha, Comparison.holds, bind, Except.bind, pure, Except.pure]
  rw [Access.readAll, mapM_eq_ok] at h
  rw [Finds]
  induction h generalizing bs with
  | nil => rw [List.forall₂_nil_left_iff, List.forall₂_nil_left_iff]
  | cons ha _ ih => simp only [List.forall₂_cons_left_iff, he ha, ih]

theorem Method.countDistinct_pair {a b : Value} (ha : ¬a.isNull) (hb : ¬b.isNull) :
    Method.countDistinct.call [a, b] = .ok (.int 1) ↔ a.fingerprint = b.fingerprint := by
  have hn : Method.nonNull [a, b] = [a, b] := by simp [Method.nonNull, ha, hb]
  simp only [Method.countDistinct, hn]
  by_cases h : a.fingerprint = b.fingerprint
  case pos => simp [h, List.eraseDups_cons]
  case neg => simp [List.eraseDups_cons, Ne.symm h, h]

theorem forall₂_fingerprint_iff (h : List.Forall₂ Clear as bs) :
    List.Forall₂ (fun a b => a.fingerprint = b.fingerprint) as bs ↔ List.Forall₂ (·.equal ·) as bs := by
  induction h with
  | nil => simp
  | cons hc _ ih => rw [List.forall₂_cons, List.forall₂_cons, (fingerprint_iff_equal_iff _ _).mpr hc, ih]

-- Keys agree with equality unless numbers are blurred by rounding or written in different ways inside of values.
theorem keys_agree_iff (access : Access) (a b : Value) :
    ((a.fingerprint = b.fingerprint ↔ a.equal b) ↔ Clear a b) ∧
    (∀ path rows keyed, ∀ r ∈ rows, ∀ s ∈ rows,
      List.Forall₂ (fun row k => access.readAll row [path] = .ok k.1 ∧ row = k.2) rows keyed →
      access.readAll r [path] = .ok [a] → access.readAll s [path] = .ok [b] →
      ((Group.Together keyed r s ↔ Finds access r [path] [b]) ↔ Clear a b)) ∧
    (∀ paths rows keyed, ∀ r ∈ rows, ∀ s ∈ rows, ∀ as bs,
      List.Forall₂ (fun row k => access.readAll row paths = .ok k.1 ∧ row = k.2) rows keyed →
      access.readAll r paths = .ok as → access.readAll s paths = .ok bs → List.Forall₂ Clear as bs →
      (Group.Together keyed r s ↔ Finds access r paths bs)) ∧
    (¬a.isNull → ¬b.isNull →
      ((Method.countDistinct.call [a, b] = .ok (.int 1) ↔ a.equal b) ↔ Clear a b)) := by
  have h := fingerprint_iff_equal_iff a b
  refine ⟨h, ?_, ?_, ?_⟩
  case refine_1 =>
    intro path rows keyed r hr s hs hk ha hb
    rw [Group.together_iff hk hr hs ha hb, finds_iff ha, Group.fingerprints_eq_iff]
    simpa using h
  case refine_2 =>
    intro paths rows keyed r hr s hs as bs hk ha hb hc
    rw [Group.together_iff hk hr hs ha hb, finds_iff ha, Group.fingerprints_eq_iff]
    exact forall₂_fingerprint_iff hc
  case refine_3 =>
    intro ha hb
    rwa [Method.countDistinct_pair ha hb]

theorem keys_agree_one :
    let one : Value := .float ⟨false, Binary64.one, by decide +kernel, by decide +kernel⟩
    let r : Value := .object [("K", .int 1)]
    let s : Value := .object [("K", one)]
    (Group.Together [([.int 1], r), ([one], s)] r s ↔ Finds ⟨.exact, true⟩ r [["K"]] [one]) ∧
    (Method.countDistinct.call [.int 1, one] = .ok (.int 1) ↔ (Value.int 1).equal one) := by
  intro one r s
  have hc : Clear (.int 1) one := ⟨fun h => h.left (by decide +kernel), id⟩
  have hk : List.Forall₂ (fun row k => (⟨.exact, true⟩ : Access).readAll row [["K"]] = .ok k.1 ∧ row = k.2) [r, s]
      [([.int 1], r), ([one], s)] :=
    .cons ⟨rfl, rfl⟩ (.cons ⟨rfl, rfl⟩ .nil)
  have hs : s ∈ [r, s] := List.mem_cons_of_mem _ List.mem_cons_self
  have ⟨_, _, hg, hd⟩ := keys_agree_iff ⟨.exact, true⟩ (.int 1) one
  exact ⟨hg _ [r, s] _ r List.mem_cons_self s hs _ _ hk rfl rfl (.cons hc .nil),
    (hd Bool.false_ne_true Bool.false_ne_true).mpr hc⟩

-- The integer is rounded to the other number.
theorem not_fingerprint_iff_equal : ¬∀ a b : Value, a.fingerprint = b.fingerprint ↔ a.equal b := by
  intro h
  have h := h (.int (2 ^ 53 + 1)) (.float ⟨false, 2 ^ 53 * Binary64.one, by decide +kernel, by decide +kernel⟩)
  rw [fingerprint_eq_iff_alike, equal_int_float] at h
  have he := h.mpr (by decide +kernel)
  revert he
  decide +kernel

end RowPipeline
