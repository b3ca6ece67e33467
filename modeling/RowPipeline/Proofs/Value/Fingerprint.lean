import RowPipeline.Proofs.Number.Whole
import RowPipeline.Proofs.Value.Path
import RowPipeline.Proofs.Value.Text
import Mathlib.Tactic.Tauto

namespace RowPipeline

namespace Value

open Binary64

-- The number is the integer, which is one of 64 bits.
def whole (x : Binary64) (n : Int) : Bool :=
  inInt64 n && x.signed == n * one

-- The same value, but for integers of 64 bits that are written as one kind of number or the other.
mutual
def alike : Value → Value → Bool
  | null, null => true
  | bool a, bool b => a == b
  | int m, int n => m == n
  | int n, float x => whole x n
  | float x, int n => whole x n
  | float x, float y => x.signed == y.signed
  | string a, string b => a == b
  | array as, array bs => alikeItems as bs
  | object as, object bs => alikeMembers as bs
  | _, _ => false

def alikeItems : List Value → List Value → Bool
  | [], [] => true
  | a :: as, b :: bs => a.alike b && alikeItems as bs
  | _, _ => false

def alikeMembers : List (String × Value) → List (String × Value) → Bool
  | [], [] => true
  | (m, a) :: as, (n, b) :: bs => m == n && a.alike b && alikeMembers as bs
  | _, _ => false
end

-- Somewhere an integer stands in one value where a binary64 number stands in the other.
mutual
def mixes : Value → Value → Bool
  | int _, float _ => true
  | float _, int _ => true
  | array as, array bs => mixesItems as bs
  | object as, object bs => mixesMembers as bs
  | _, _ => false

def mixesItems : List Value → List Value → Bool
  | a :: as, b :: bs => a.mixes b || mixesItems as bs
  | _, _ => false

def mixesMembers : List (String × Value) → List (String × Value) → Bool
  | (_, a) :: as, (_, b) :: bs => a.mixes b || mixesMembers as bs
  | _, _ => false
end

variable {a b : Value} {x y : Binary64} {n : Int}

theorem whole_iff : whole x n ↔ inInt64 n ∧ x.signed = n * one := by
  rw [whole, Bool.and_eq_true, beq_iff_eq]

theorem normalized_float_of_whole (h : whole x n) : (float x).normalized = int n := by
  have ⟨hn, hx⟩ := whole_iff.mp h
  rw [normalized, toInt?_eq_some.mpr hx]
  exact if_pos hn

theorem normalized_float_of_not_whole (h : ∀ n, ¬whole x n) : (float x).normalized = float x := by
  rw [normalized]
  split
  case h_1 n hx =>
    apply if_neg
    intro hn
    exact h n (whole_iff.mpr ⟨hn, toInt?_eq_some.mp hx⟩)
  case h_2 => rfl

theorem normalized_float (x : Binary64) : (∃ n, whole x n ∧ (float x).normalized = int n) ∨
    ((∀ n, ¬whole x n) ∧ (float x).normalized = float x) := by
  by_cases h : ∃ n, whole x n
  case pos =>
    have ⟨n, hn⟩ := h
    exact .inl ⟨n, hn, normalized_float_of_whole hn⟩
  case neg =>
    have hn := not_exists.mp h
    exact .inr ⟨hn, normalized_float_of_not_whole hn⟩

theorem rank_normalized (v : Value) : v.normalized.rank = v.rank := by
  cases v with
  | float x =>
    rcases normalized_float x with ⟨n, _, h⟩ | ⟨_, h⟩
    case inl => rw [h]; rfl
    case inr => rw [h]
  | _ => simp [normalized, rank]

theorem rank_eq_of_alike (h : a.alike b) : a.rank = b.rank := by
  cases a <;> cases b <;> simp_all [alike, rank]

theorem normalized_eq_iff_of_rank (h : a.rank ≠ b.rank) : a.normalized = b.normalized ↔ a.alike b := by
  apply iff_of_false
  case ha =>
    intro he
    exact h (by rw [← rank_normalized a, he, rank_normalized])
  case hb => exact mt rank_eq_of_alike h

theorem normalized_int_float (n : Int) (x : Binary64) : (int n).normalized = (float x).normalized ↔ whole x n := by
  rw [show (int n).normalized = int n from by rw [normalized]]
  constructor
  case mp =>
    intro h
    rcases normalized_float x with ⟨m, hm, he⟩ | ⟨_, he⟩
    case inl =>
      rw [he] at h
      cases h
      exact hm
    case inr =>
      rw [he] at h
      cases h
  case mpr => exact fun h => (normalized_float_of_whole h).symm

theorem normalized_floats (x y : Binary64) : (float x).normalized = (float y).normalized ↔ x.signed = y.signed := by
  constructor
  case mp =>
    intro h
    rcases normalized_float x with ⟨n, hn, he⟩ | ⟨_, he⟩
    case inl =>
      rw [he, ← show (int n).normalized = int n from by rw [normalized], normalized_int_float] at h
      exact (whole_iff.mp hn).right.trans (whole_iff.mp h).right.symm
    case inr =>
      rcases normalized_float y with ⟨n, _, he'⟩ | ⟨_, he'⟩
      case inl => rw [he, he'] at h; cases h
      case inr => rw [he, he'] at h; cases h; rfl
  case mpr =>
    intro h
    rcases normalized_float x with ⟨n, hn, he⟩ | ⟨hn, he⟩
    case inl =>
      have ⟨hl, hx⟩ := whole_iff.mp hn
      rw [he, normalized_float_of_whole (whole_iff.mpr ⟨hl, h.symm.trans hx⟩)]
    case inr =>
      -- Zero is an integer, whatever its sign.
      have hz : x.signed ≠ 0 := by
        intro hz
        exact hn 0 (whole_iff.mpr ⟨rfl, by rw [hz, Int.zero_mul]⟩)
      rw [eq_of_signed h hz]

mutual
theorem normalized_eq_iff : (a b : Value) → (a.normalized = b.normalized ↔ a.alike b)
  | .null, b => by
    cases b with
    | null => simp [alike]
    | _ => exact normalized_eq_iff_of_rank nofun
  | .bool p, b => by
    cases b with
    | bool q => simp [normalized, alike]
    | _ => exact normalized_eq_iff_of_rank nofun
  | .int m, b => by
    cases b with
    | int n => simp [normalized, alike]
    | float x => exact normalized_int_float m x
    | _ => exact normalized_eq_iff_of_rank nofun
  | .float x, b => by
    cases b with
    | int n => exact eq_comm.trans (normalized_int_float n x)
    | float y => simp [normalized_floats, alike]
    | _ => exact normalized_eq_iff_of_rank nofun
  | .string s, b => by
    cases b with
    | string t => simp [normalized, alike]
    | _ => exact normalized_eq_iff_of_rank nofun
  | .array as, b => by
    cases b with
    | array bs => simp [normalized, alike, normalizedItems_eq_iff as bs]
    | _ => exact normalized_eq_iff_of_rank nofun
  | .object as, b => by
    cases b with
    | object bs => simp [normalized, alike, normalizedMembers_eq_iff as bs]
    | _ => exact normalized_eq_iff_of_rank nofun

theorem normalizedItems_eq_iff : (as bs : List Value) → (normalizedItems as = normalizedItems bs ↔ alikeItems as bs)
  | [], [] => by simp [alikeItems]
  | [], _ :: _ => by simp [normalizedItems, alikeItems]
  | _ :: _, [] => by simp [normalizedItems, alikeItems]
  | a :: as, b :: bs => by
    simp [normalizedItems, alikeItems, normalized_eq_iff a b, normalizedItems_eq_iff as bs]

theorem normalizedMembers_eq_iff : (as bs : Members) →
    (normalizedMembers as = normalizedMembers bs ↔ alikeMembers as bs)
  | [], [] => by simp [alikeMembers]
  | [], (_, _) :: _ => by simp [normalizedMembers, alikeMembers]
  | (_, _) :: _, [] => by simp [normalizedMembers, alikeMembers]
  | (m, a) :: as, (n, b) :: bs => by
    simp [normalizedMembers, alikeMembers, normalized_eq_iff a b, normalizedMembers_eq_iff as bs, and_assoc]
end

theorem fingerprint_eq_iff_alike : a.fingerprint = b.fingerprint ↔ a.alike b :=
  text_injective.eq_iff.trans (normalized_eq_iff a b)

theorem fingerprint_eq_null : a.fingerprint = null.fingerprint ↔ a.isNull := by
  rw [fingerprint_eq_iff_alike]
  cases a <;> simp [alike, isNull]

mutual
theorem same_iff : (a b : Value) → (a.same b ↔ a.alike b ∧ ¬a.mixes b)
  | .null, b => by cases b <;> simp [same, alike, mixes]
  | .bool p, b => by cases b <;> simp [same, alike, mixes]
  | .int m, b => by cases b <;> simp [same, alike, mixes]
  | .float x, b => by cases b <;> simp [same, alike, mixes]
  | .string s, b => by cases b <;> simp [same, alike, mixes]
  | .array as, b => by
    cases b with
    | array bs => simpa [same, alike, mixes] using sameItems_iff as bs
    | _ => simp [same, alike]
  | .object as, b => by
    cases b with
    | object bs => simpa [same, alike, mixes] using sameMembers_iff as bs
    | _ => simp [same, alike]

theorem sameItems_iff : (as bs : List Value) → (sameItems as bs ↔ alikeItems as bs ∧ ¬mixesItems as bs)
  | [], [] => by simp [sameItems, alikeItems, mixesItems]
  | [], _ :: _ => by simp [sameItems, alikeItems]
  | _ :: _, [] => by simp [sameItems, alikeItems]
  | a :: as, b :: bs => by
    simp only [sameItems, alikeItems, mixesItems, Bool.and_eq_true, Bool.or_eq_true, same_iff a b, sameItems_iff as bs]
    tauto

theorem sameMembers_iff : (as bs : Members) → (sameMembers as bs ↔ alikeMembers as bs ∧ ¬mixesMembers as bs)
  | [], [] => by simp [sameMembers, alikeMembers, mixesMembers]
  | [], (_, _) :: _ => by simp [sameMembers, alikeMembers]
  | (_, _) :: _, [] => by simp [sameMembers, alikeMembers]
  | (m, a) :: as, (n, b) :: bs => by
    simp only [sameMembers, alikeMembers, mixesMembers, Bool.and_eq_true, Bool.or_eq_true, same_iff a b,
      sameMembers_iff as bs]
    tauto
end

theorem fingerprint_of_same (h : a.same b) : a.fingerprint = b.fingerprint :=
  fingerprint_eq_iff_alike.mpr ((same_iff a b).mp h).left

mutual
theorem same_self : (v : Value) → v.same v
  | null => rfl
  | bool _ | int _ | float _ | string _ => by simp [same]
  | array vs => by rw [same]; exact sameItems_self vs
  | object ms => by rw [same]; exact sameMembers_self ms

theorem sameItems_self : (vs : List Value) → sameItems vs vs
  | [] => rfl
  | v :: vs => by simp [sameItems, same_self v, sameItems_self vs]

theorem sameMembers_self : (ms : Members) → sameMembers ms ms
  | [] => rfl
  | (_, v) :: ms => by simp [sameMembers, same_self v, sameMembers_self ms]
end

-- The equality of two numbers, as that of their integers or of their units.
section Numbers

variable {m : Int}

theorem some_compare_eq {j k : Int} : (some (compare j k) == some Ordering.eq) = true ↔ j = k := by
  rw [beq_iff_eq, Option.some_inj, Std.LawfulEqCmp.compare_eq_iff_eq]

theorem equal_ints (m n : Int) :
    (int m).equal (int n) ↔ if inInt64 m && inInt64 n then m = n else signedOfInt m = signedOfInt n := by
  change ((if inInt64 m && inInt64 n then _ else _) == _) = true ↔ _
  split
  case isTrue => exact some_compare_eq
  case isFalse => exact some_compare_eq

theorem equal_int_float (n : Int) (x : Binary64) : (int n).equal (float x) ↔ signedOfInt n = x.signed :=
  some_compare_eq

theorem equal_float_int (x : Binary64) (n : Int) : (float x).equal (int n) ↔ signedOfInt n = x.signed :=
  some_compare_eq.trans eq_comm

theorem equal_floats (x y : Binary64) : (float x).equal (float y) ↔ x.signed = y.signed :=
  some_compare_eq

end Numbers

-- Two numbers become the same binary64 number, though the one is not the other.
def Blurred : Value → Value → Prop
  | int m, int n => m ≠ n ∧ ¬(inInt64 m ∧ inInt64 n) ∧ signedOfInt m = signedOfInt n
  | int n, float x => ¬whole x n ∧ signedOfInt n = x.signed
  | float x, int n => ¬whole x n ∧ signedOfInt n = x.signed
  | _, _ => False

-- Two arrays or objects only differ in how integers of 64 bits are written inside them.
def MixedInside : Value → Value → Prop
  | array as, array bs => alikeItems as bs ∧ mixesItems as bs
  | object as, object bs => alikeMembers as bs ∧ mixesMembers as bs
  | _, _ => False

theorem equal_iff_same (h : (a.isNumber && b.isNumber) = false) : a.equal b ↔ a.same b := by
  rw [equal, h]
  rfl

-- What is equal but no number is alike.
theorem blurred_iff (a b : Value) : Blurred a b ↔ a.equal b ∧ ¬a.alike b := by
  have hs : ∀ {a b : Value}, (a.isNumber && b.isNumber) = false → ¬(a.equal b ∧ ¬a.alike b) := by
    intro a b h ⟨he, hn⟩
    exact hn ((same_iff a b).mp ((equal_iff_same h).mp he)).left
  cases a <;> cases b
  case int.int m n =>
    rw [equal_ints, Blurred, alike, beq_iff_eq, ← Bool.and_eq_true]
    split
    case isTrue h => simp [h]
    case isFalse h => simp [h, and_comm]
  case int.float n x => rw [equal_int_float, Blurred, alike, and_comm]
  case float.int x n => rw [equal_float_int, Blurred, alike, and_comm]
  case float.float x y => simp [equal_floats, Blurred, alike]
  all_goals exact iff_of_false id (hs rfl)

theorem equal_of_whole (h : whole x n) : signedOfInt n = x.signed :=
  signedOfInt_of_signed (whole_iff.mp h).right

-- Numbers that are alike are equal, and so is everything else that mixes nothing.
theorem mixedInside_iff (a b : Value) : MixedInside a b ↔ a.alike b ∧ ¬a.equal b := by
  have hs : ∀ {a b : Value}, (a.isNumber && b.isNumber) = false → (a.alike b ∧ ¬a.equal b ↔ a.alike b ∧ a.mixes b) := by
    intro a b h
    rw [equal_iff_same h, same_iff]
    tauto
  cases a <;> cases b
  case int.int m n =>
    rw [equal_ints, alike, beq_iff_eq]
    exact iff_of_false id fun ⟨he, hn⟩ => hn (by rw [he]; split <;> rfl)
  case int.float n x =>
    rw [equal_int_float]
    exact iff_of_false id fun ⟨he, hn⟩ => hn (equal_of_whole he)
  case float.int x n =>
    rw [equal_float_int]
    exact iff_of_false id fun ⟨he, hn⟩ => hn (equal_of_whole he)
  case float.float x y =>
    rw [equal_floats, alike, beq_iff_eq]
    exact iff_of_false id fun ⟨he, hn⟩ => hn he
  case array.array as bs => rw [hs rfl, MixedInside, alike, mixes]
  case object.object as bs => rw [hs rfl, MixedInside, alike, mixes]
  all_goals
    rw [hs rfl]
    exact iff_of_false id fun ⟨_, hm⟩ => by cases hm

def Clear (a b : Value) : Prop :=
  ¬Blurred a b ∧ ¬MixedInside a b

-- Fingerprints agree with equality on all other values.
theorem fingerprint_iff_equal_iff (a b : Value) :
    (a.fingerprint = b.fingerprint ↔ a.equal b) ↔ Clear a b := by
  rw [fingerprint_eq_iff_alike, Clear, blurred_iff, mixedInside_iff]
  tauto

theorem members_normalized (v : Value) : v.normalized.members = normalizedMembers v.members := by
  cases v with
  | float x => rcases normalized_float x with ⟨n, _, h⟩ | ⟨_, h⟩ <;> rw [h] <;> rfl
  | _ => simp [normalized, members, normalizedMembers]

theorem get?_normalizedMembers (ms : Members) (name : String) :
    Members.get? (normalizedMembers ms) name = (ms.get? name).map normalized := by
  induction ms with
  | nil => rfl
  | cons m ms ih =>
    obtain ⟨other, v⟩ := m
    rw [normalizedMembers, Members.get?_cons, Members.get?_cons, ih]
    split <;> rfl

theorem at?_normalized (v : Value) (names : List String) : v.normalized.at? names = (v.at? names).map normalized := by
  induction names generalizing v with
  | nil => rfl
  | cons name rest ih =>
    rw [at?_cons, at?_cons, members_normalized, get?_normalizedMembers]
    cases v.members.get? name with
    | none => rfl
    | some inner => exact ih inner

-- Values with one fingerprint have the same fingerprints inside.
theorem fingerprint_at? (h : a.fingerprint = b.fingerprint) (names : List String) :
    ((a.at? names).getD null).fingerprint = ((b.at? names).getD null).fingerprint := by
  have hn : a.normalized = b.normalized := text_injective h
  have hm : ∀ v : Value, ((v.at? names).getD null).normalized = (v.normalized.at? names).getD null := by
    intro v
    rw [at?_normalized]
    cases v.at? names with
    | none => rw [Option.getD_none, normalized]; rfl
    | some inner => rfl
  rw [fingerprint, fingerprint, hm, hm, hn]

end Value
end RowPipeline
