import RowPipeline.Row.Access
import RowPipeline.Proofs.Success

namespace RowPipeline

-- The name with its ASCII letters in lower case.
def Resolver.folded (name : String) : String :=
  String.ofList (name.toList.map Char.toLower)

def PropertyPath.folded (path : PropertyPath) : PropertyPath :=
  path.map Resolver.folded

namespace Resolver

variable {a b name : String}

theorem sameUpToCase_iff : sameUpToCase a b ↔ folded a = folded b := by
  rw [sameUpToCase, beq_iff_eq, folded, folded, String.ofList_inj]

theorem sameUpToCase_self (name : String) : sameUpToCase name name :=
  sameUpToCase_iff.mpr rfl

-- What is in lower case stays as it is.
theorem toLower_toLower (c : Char) : c.toLower.toLower = c.toLower := by
  have outside : ∀ {c : Char}, ¬(c.val ≥ 'A'.val ∧ c.val ≤ 'Z'.val) → c.toLower = c := fun h => dif_neg h
  by_cases h : c.val ≥ 'A'.val ∧ c.val ≤ 'Z'.val
  case pos =>
    have hv : c.toLower.val = c.val + 32 := congrArg Char.val (dif_pos h)
    have ha : 'A'.val.toNat = 65 := rfl
    have hz : 'Z'.val.toNat = 90 := rfl
    have hs : (32 : UInt32).toNat = 32 := rfl
    refine outside ?_
    simp only [ge_iff_le, UInt32.le_iff_toNat_le, hv, UInt32.toNat_add] at h ⊢
    omega
  case neg => rw [outside h, outside h]

theorem folded_folded (name : String) : folded (folded name) = folded name := by
  rw [folded, folded, String.toList_ofList, List.map_map]
  exact congrArg String.ofList (List.map_congr_left fun c _ => toLower_toLower c)

end Resolver

namespace Members

open Resolver

variable {ms : Members}

-- No two names differ in the case of letters only.
def Apart (ms : Members) : Prop :=
  ms.Pairwise fun a b => ¬sameUpToCase a.1 b.1

-- A member of just this name is the only one to find.
theorem Apart.get?_or (h : ms.Apart) (name : String) :
    (ms.get? name).or ((ms.find? fun m => sameUpToCase m.1 name).map (·.2)) =
      (ms.find? fun m => sameUpToCase m.1 name).map (·.2) := by
  induction ms with
  | nil => rfl
  | cons m ms ih =>
    obtain ⟨other, value⟩ := m
    obtain ⟨hm, hms⟩ := List.pairwise_cons.mp h
    rw [get?_cons, List.find?_cons]
    by_cases hs : sameUpToCase other name
    case neg =>
      have hn : name ≠ other := fun he => hs (he ▸ sameUpToCase_self name)
      simpa only [hs, if_neg hn] using ih hms
    case pos =>
      have hr : get? ms name = none := by
        refine List.lookup_eq_none_iff.mpr fun m hm' => bne_iff_ne.mpr ?_
        rintro rfl
        exact hm m hm' hs
      simp only [hs, hr]
      split <;> rfl

end Members

namespace Value

-- The value itself, and what is in its items and members.
inductive Inside (inner : Value) : Value → Prop
  | self : Inside inner inner
  | item {items v} : v ∈ items → Inside inner v → Inside inner (.array items)
  | member {ms name v} : (name, v) ∈ ms → Inside inner v → Inside inner (.object ms)

-- The names are apart in every object, at whatever depth.
def NamesApart (row : Value) : Prop :=
  ∀ ms, Inside (.object ms) row → Members.Apart ms

namespace NamesApart

variable {row inner : Value} {name : String}

theorem members (h : row.NamesApart) : Members.Apart row.members := by
  cases row with
  | object ms => exact h ms .self
  | _ => exact List.Pairwise.nil

theorem of_mem (h : row.NamesApart) (hm : (name, inner) ∈ row.members) : inner.NamesApart := by
  cases row with
  | object ms => exact fun ms' hi => h ms' (.member hm hi)
  | _ => cases hm

theorem of_scalar (hi : ∀ items, row ≠ .array items) (ho : ∀ ms, row ≠ .object ms) : row.NamesApart := by
  intro ms h
  cases h with
  | self => exact absurd rfl (ho ms)
  | item => exact absurd rfl (hi _)
  | member => exact absurd rfl (ho _)

theorem object {ms : Members} (h : ms.Apart) (hm : ∀ m ∈ ms, m.2.NamesApart) : (object ms).NamesApart := by
  rintro ms' (_ | _ | ⟨hv, hi⟩)
  case self => exact h
  case member => exact hm _ hv ms' hi

end NamesApart

end Value

namespace Resolver

variable {row inner : Value} {name : String}

theorem mem_of_member? (h : caseInsensitive.member? row name = some inner) : ∃ other, (other, inner) ∈ row.members := by
  rcases Option.or_eq_some_iff.mp h with h | ⟨-, h⟩
  case inl =>
    obtain ⟨before, after, he, -⟩ := List.lookup_eq_some_iff.mp h
    exact ⟨name, he ▸ List.mem_append_right before List.mem_cons_self⟩
  case inr =>
    obtain ⟨m, hf, rfl⟩ := Option.map_eq_some_iff.mp h
    exact ⟨m.1, List.mem_of_find?_eq_some hf⟩

theorem member?_folded (h : row.NamesApart) (name : String) :
    caseInsensitive.member? row (folded name) = caseInsensitive.member? row name := by
  have hf : (fun m : String × Value => sameUpToCase m.1 (folded name)) = fun m => sameUpToCase m.1 name := by
    funext m
    rw [Bool.eq_iff_iff, sameUpToCase_iff, sameUpToCase_iff, folded_folded]
  exact (h.members.get?_or _).trans (hf ▸ (h.members.get?_or name).symm)

end Resolver

namespace Access

variable {propagates : Bool} {row : Value}

-- What is read is apart as well, so that the next name finds the same again.
theorem endsAs_read_folded (h : row.NamesApart) (path : PropertyPath) :
    EndsAs (read ⟨.caseInsensitive, propagates⟩ row path.folded) (read ⟨.caseInsensitive, propagates⟩ row path) := by
  have go : ∀ (names : List String) (row : Value), row.NamesApart →
      EndsAs (read.go ⟨.caseInsensitive, propagates⟩ path.folded row (names.map Resolver.folded))
        (read.go ⟨.caseInsensitive, propagates⟩ path row names) := by
    intro names
    induction names with
    | nil => exact fun _ _ => .rfl
    | cons name rest ih =>
      intro row h
      rw [List.map_cons, read.go, read.go, Resolver.member?_folded h]
      by_cases hn : row.isNull && !propagates
      case pos => simp [EndsAs, hn]
      case neg =>
        simp only [hn]
        cases hm : Resolver.caseInsensitive.member? row name with
        | none =>
          simp only [List.isEmpty_map]
          by_cases hl : propagates || rest.isEmpty
          case pos => simp [hl, EndsAs]
          case neg => simp [hl, EndsAs]
        | some inner =>
          obtain ⟨other, ho⟩ := Resolver.mem_of_member? hm
          exact ih inner (h.of_mem ho)
  exact go path row h

end Access
end RowPipeline
