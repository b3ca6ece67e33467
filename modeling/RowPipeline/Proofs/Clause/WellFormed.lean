import Mathlib.Data.List.DropRight
import RowPipeline.Clause.Grammar
import RowPipeline.Proofs.Clause.Contents
import RowPipeline.Proofs.Clause.Scan

namespace RowPipeline

-- Letters, digits, `_` and `$`, and one of them at least.
def IsIdentifier (s : String) : Prop :=
  s ≠ "" ∧ ∀ c ∈ s.toList, Scan.isIdentifierChar c

instance (s : String) : Decidable (IsIdentifier s) :=
  inferInstanceAs (Decidable (_ ∧ _))

-- Identifiers with a point between them.
def IsQualifiedName (s : String) : Prop :=
  ∃ names, names ≠ [] ∧ (∀ name ∈ names, IsIdentifier name) ∧ s = ".".intercalate names

namespace PropertyPath

def WellFormed (path : PropertyPath) : Prop :=
  path ≠ [] ∧ ∀ name ∈ path, IsIdentifier name

-- An operand that starts with a digit is a number, and three words are literals.
def StartsOperand (path : PropertyPath) : Prop :=
  ∀ name ∈ path.head?, name ∉ ["true", "false", "null"] ∧ ∀ c ∈ name.toList.head?, ¬c.isDigit

end PropertyPath

namespace Operand

-- An integer of a text has 64 bits: the bounds are -2 ^ 63 and 2 ^ 63.
def IsLiteral : Value → Prop
  | .null | .bool _ | .string _ | .float _ => True
  | .int n => -9223372036854775808 ≤ n ∧ n < 9223372036854775808
  | .array _ | .object _ => False

mutual
def WellFormed : Operand → Prop
  | path p => p.WellFormed ∧ p.StartsOperand
  | literal value => IsLiteral value
  | call function args => args.length = function.arity ∧ AllWellFormed args

def AllWellFormed : List Operand → Prop
  | [] => True
  | o :: os => WellFormed o ∧ AllWellFormed os
end

theorem allWellFormed_iff (os : List Operand) : AllWellFormed os ↔ ∀ o ∈ os, o.WellFormed := by
  induction os with
  | nil => simp [AllWellFormed]
  | cons o os ih => simp [AllWellFormed, ih]

-- At the start of a condition the word `not` negates.
def StartsWithNot : Operand → Prop
  | path p => p.head? = some "not"
  | _ => False

end Operand

namespace Filter

def WellFormed : Filter → Prop
  | compare _ left right => left.WellFormed ∧ right.WellFormed ∧ ¬left.StartsWithNot
  | and left right | or left right => left.WellFormed ∧ right.WellFormed
  | not inner => inner.WellFormed
  | truthy operand => operand.WellFormed ∧ ¬operand.StartsWithNot

end Filter

namespace Aggregate

-- A path that starts with `$count` would count rows.
def WellFormed : Aggregate → Prop
  | property path method output =>
    path.WellFormed ∧ path.head? ≠ some "$count" ∧ IsQualifiedName method ∧ IsIdentifier output
  | count output => IsIdentifier output

end Aggregate

namespace Transformation

-- What the step itself contains. The steps in the branches of a concatenation are not looked at.
def WellFormed : Transformation → Prop
  | aggregate aggregates => aggregates ≠ [] ∧ ∀ a ∈ aggregates, a.WellFormed
  | groupBy properties aggregates =>
    (properties ≠ [] ∧ ∀ p ∈ properties, p.WellFormed) ∧
      ∀ as ∈ aggregates, as ≠ [] ∧ ∀ a ∈ as, a.WellFormed
  | filter condition => condition.WellFormed
  | select paths => paths ≠ [] ∧ ∀ p ∈ paths, p.WellFormed
  | orderBy items => items ≠ [] ∧ ∀ item ∈ items, item.path.WellFormed
  | top count | skip count => count ≤ 9223372036854775807
  | concat branches => 2 ≤ branches.length ∧ ∀ b ∈ branches, b ≠ []
  | identity => True

end Transformation

namespace Clause

def WellFormed (clause : Clause) : Prop :=
  clause ≠ [] ∧ ∀ t ∈ walk clause, t.WellFormed

end Clause

open Scan

variable {binding : Option Binding} {cursor next : Cursor} {depth : Nat}

namespace Scan

theorem isIdentifier_of_yields {name : String} (h : identifier.Yields cursor name next) :
    IsIdentifier name := by
  obtain ⟨hn, hne, -⟩ := yields_identifier.mp h
  refine ⟨hne, fun c hc => ?_⟩
  rw [hn] at hc
  exact List.all_eq_true.mp (List.all_takeWhile) c hc

theorem isQualifiedName_of_yields {name : String} (h : qualifiedName.Yields cursor name next) :
    IsQualifiedName name := by
  simp only [qualifiedName, bind_pure_comp, yields_map] at h
  obtain ⟨names, hn, rfl⟩ := h
  obtain ⟨hne, hi⟩ := forall_of_joinedBy isIdentifier_of_yields hn
  exact ⟨names, hne, hi, rfl⟩

theorem yields_checkPath {path : PropertyPath} {start : Nat} {u : Unit} :
    (checkPath binding path start).Yields cursor u next ↔
      next = cursor ∧ ∀ b ∈ binding, b.checkPath path = .ok () := by
  cases binding with
  | none => simp [checkPath]
  | some b => cases h : b.checkPath path <;> simp [checkPath, h]

theorem isLiteral_of_yields {value : Value} (h : numberLiteral.Yields cursor value next) :
    Operand.IsLiteral value := by
  simp only [numberLiteral, yields_bind, yields_ite, not_yields_failAt, and_false, false_or, or_false,
    yields_pure] at h
  obtain ⟨_, _, _, negative, _, _, whole, _, _, point, _, _, h⟩ := h
  rcases h with ⟨_, _, _, _, _, rfl, _⟩ | ⟨_, _, hr, rfl, _⟩
  case inl =>
    cases Decimal.toBinary64 negative _ <;> trivial
  case inr => exact hr

end Scan

namespace PropertyPath

-- The path starts with what can be read as an identifier after blanks.
theorem wellFormed_of_yields {path : PropertyPath}
    (h : (PropertyPath.scan binding).Yields cursor path next) :
    path.WellFormed ∧ ∀ name ∈ path.head?,
      name.toList = (cursor.rest.dropWhile Text.isBlank).takeWhile isIdentifierChar := by
  simp only [PropertyPath.scan, yields_bind, yields_position, yields_pure] at h
  obtain ⟨_, _, hb, _, _, ⟨rfl, _⟩, p, _, hp, _, _, _, rfl, _⟩ := h
  refine ⟨forall_of_joinedBy isIdentifier_of_yields hp, ?_⟩
  obtain ⟨name, _, hn, more, _, rfl⟩ := yields_joinedBy.mp hp
  rintro _ ⟨⟩
  rw [(yields_identifier.mp hn).left, rest_of_skipBlank hb]

end PropertyPath

namespace Operand

theorem scanWord?_some {o : Operand} (h : scanWord?.Yields cursor (some o) next) :
    ∃ value, o = .literal value ∧ IsLiteral value := by
  simp only [scanWord?, yields_bind, yields_ite, yields_pure, Option.some.injEq, reduceCtorEq, false_and,
    and_false, or_false] at h
  obtain ⟨_, _, _, ⟨_, rfl, _⟩ | ⟨_, _, _, _, ⟨_, rfl, _⟩ | ⟨_, _, _, _, _, rfl, _⟩⟩⟩ := h
  all_goals exact ⟨_, rfl, trivial⟩

-- Where no literal word stands, nothing is read, and what can be read as an identifier is none of them.
theorem scanWord?_none (h : scanWord?.Yields cursor none next) :
    next = cursor ∧
      ∀ w ∈ ["true", "false", "null"], cursor.rest.takeWhile isIdentifierChar ≠ w.toList := by
  simp only [scanWord?, yields_bind, yields_ite, yields_pure, reduceCtorEq, false_and, and_false,
    false_or] at h
  obtain ⟨_, c₁, h₁, hn₁, _, c₂, h₂, hn₂, _, c₃, h₃, hn₃, _, rfl⟩ := h
  rw [yields_keyword (by decide)] at h₁ h₂ h₃
  simp_all

theorem call_of_scanCall {start : Nat} {name : String} {operand : Scan Operand} {o : Operand}
    (ho : ∀ {c x c'}, operand.Yields c x c' → x.WellFormed)
    (h : (scanCall start name operand).Yields cursor o next) :
    ∃ function args, o = .call function args ∧ (Operand.call function args).WellFormed := by
  simp only [scanCall] at h
  cases hf : ScalarFunction.ofName? name with
  | none => simp [hf] at h
  | some function =>
    simp only [hf, yields_bind, yields_ite, yields_pure, not_yields_failAt, and_false, or_false] at h
    obtain ⟨_, _, _, args, _, ha, _, _, _, hl, rfl, _⟩ := h
    exact ⟨function, args, rfl, hl, (allWellFormed_iff args).mpr (forall_of_listBy ho ha).right⟩

theorem cases_of_scanNamed {operand : Scan Operand} {o : Operand}
    (ho : ∀ {c x c'}, operand.Yields c x c' → x.WellFormed)
    (h : (scanNamed binding operand).Yields cursor o next) :
    (∃ function args, o = .call function args ∧ (Operand.call function args).WellFormed) ∨
    (∃ name names, o = .path (name :: names) ∧ PropertyPath.WellFormed (name :: names) ∧
      name.toList = cursor.rest.takeWhile isIdentifierChar) := by
  simp only [scanNamed, yields_bind, yields_position, yields_ite, yields_pure] at h
  obtain ⟨_, _, ⟨rfl, _⟩, name, _, hn, _, _, _, _, _, _, ⟨_, hc⟩ | ⟨_, names, _, hs, _, _, _, rfl, _⟩⟩ := h
  case inl => exact .inl (call_of_scanCall ho hc)
  case inr =>
    have hi := forall_of_many isIdentifier_of_yields hs
    exact .inr ⟨name, names, rfl, ⟨List.cons_ne_nil _ _,
      List.forall_mem_cons.mpr ⟨isIdentifier_of_yields hn, hi⟩⟩, (yields_identifier.mp hn).left⟩

theorem head?_takeWhile_eq_some {p : Char → Bool} {cs : List Char} {c : Char}
    (h : (cs.takeWhile p).head? = some c) : cs.head? = some c := by
  cases cs with
  | nil => simp at h
  | cons d cs => by_cases hd : p d <;> simp_all

-- The path of an operand starts with what can be read as an identifier after blanks.
theorem wellFormed_of_yields {o : Operand} (h : (Operand.scan binding depth).Yields cursor o next) :
    o.WellFormed ∧ ∀ name names, o = .path (name :: names) →
      name.toList = (cursor.rest.dropWhile Text.isBlank).takeWhile isIdentifierChar := by
  induction depth generalizing cursor o next
  case zero => simp [Operand.scan] at h
  case succ depth ih =>
    simp only [Operand.scan, yields_bind, yields_peek, yields_ite, bind_pure_comp, yields_map] at h
    obtain ⟨_, c, hb, _, _, ⟨rfl, rfl⟩, h⟩ := h
    have hr := rest_of_skipBlank hb
    rcases h with ⟨_, s, _, rfl⟩ | ⟨_, ⟨_, value, hv, rfl⟩ | ⟨hd, word, c', hw, h⟩⟩
    case inl => exact ⟨trivial, by rintro _ _ ⟨⟩⟩
    case inr.inl => exact ⟨isLiteral_of_yields hv, by rintro _ _ ⟨⟩⟩
    cases word with
    | some operand =>
      obtain ⟨rfl, rfl⟩ := yields_pure.mp h
      obtain ⟨value, rfl, hv⟩ := scanWord?_some hw
      exact ⟨hv, by rintro _ _ ⟨⟩⟩
    | none =>
      obtain ⟨rfl, hw⟩ := scanWord?_none hw
      rcases cases_of_scanNamed (fun h => (ih h).left) h with
        ⟨function, args, rfl, ho⟩ | ⟨name, names, rfl, hp, hn⟩
      case inl => exact ⟨ho, by rintro _ _ ⟨⟩⟩
      case inr =>
        refine ⟨⟨hp, ?_⟩, ?_⟩
        case refine_1 =>
          rintro _ ⟨⟩
          refine ⟨fun hm => hw _ hm hn.symm, fun d hc => ?_⟩
          rw [hn] at hc
          have := head?_takeWhile_eq_some hc
          simp_all
        case refine_2 =>
          rintro _ _ ⟨⟩
          rw [hn, hr]

end Operand

namespace Filter

theorem wellFormed_of_scanOperand {o : Operand} (h : (scanOperand binding).Yields cursor o next) :
    o.WellFormed ∧ ∀ name names, o = .path (name :: names) →
      name.toList = (cursor.rest.dropWhile Text.isBlank).takeWhile isIdentifierChar := by
  simp only [scanOperand, yields_bind, yields_get] at h
  obtain ⟨_, _, ⟨rfl, rfl⟩, h⟩ := h
  exact Operand.wellFormed_of_yields h

theorem wellFormed_of_scanComparison {f : Filter} (h : (scanComparison binding).Yields cursor f next)
    (hn : (cursor.rest.dropWhile Text.isBlank).takeWhile isIdentifierChar ≠ "not".toList) :
    f.WellFormed := by
  simp only [scanComparison, yields_bind, bind_pure_comp] at h
  obtain ⟨left, _, hl, _, _, _, op, _, _, h⟩ := h
  obtain ⟨hl, hs⟩ := wellFormed_of_scanOperand hl
  have hs : ¬left.StartsWithNot := by
    intro hw
    cases left with
    | literal | call => exact hw.elim
    | path path =>
      cases path with
      | nil => cases hw
      | cons name names =>
        obtain rfl : name = "not" := by simpa [Operand.StartsWithNot] using hw
        exact hn (hs _ _ rfl).symm
  cases op with
  | none =>
    obtain ⟨rfl, _⟩ := yields_pure.mp h
    exact ⟨hl, hs⟩
  | some op =>
    simp only [yields_bind, yields_map] at h
    obtain ⟨_, _, _, right, hr, rfl⟩ := h
    exact ⟨hl, (wellFormed_of_scanOperand hr).left, hs⟩

theorem wellFormed_of_disjunction {item : Scan Filter} {f : Filter}
    (hi : ∀ {c x c'}, item.Yields c x c' → x.WellFormed) (h : (disjunction item).Yields cursor f next) :
    f.WellFormed :=
  of_chain (of_chain hi fun {x y} hx hy => show (x.and y).WellFormed from ⟨hx, hy⟩)
    (fun {x y} hx hy => show (x.or y).WellFormed from ⟨hx, hy⟩) h

theorem wellFormed_of_scanUnary {f : Filter} (h : (scanUnary binding depth).Yields cursor f next) :
    f.WellFormed := by
  induction depth generalizing cursor f next
  case zero => simp [scanUnary] at h
  case succ depth ih =>
    simp only [scanUnary, yields_bind, yields_ite, bind_pure_comp, yields_map] at h
    obtain ⟨_, c, hb, negated, _, hk, ⟨_, inner, hi, rfl⟩ | ⟨hn, opened, _, hc, h⟩⟩ := h
    case inl => exact (ih hi : inner.WellFormed)
    case inr =>
      rcases h with ⟨_, inner, _, hi, _, _, _, _, _, rfl⟩ | ⟨ho, h⟩
      case inl => exact wellFormed_of_disjunction ih hi
      case inr =>
        rw [yields_keyword (by decide)] at hk
        rw [yields_char?] at hc
        obtain ⟨hn, _, rfl⟩ := hk.resolve_left fun hk => hn hk.2.1
        obtain ⟨_, _, rfl⟩ := hc.resolve_left fun hc => ho hc.2.1
        refine wellFormed_of_scanComparison h ?_
        rwa [rest_of_skipBlank hb, List.dropWhile_idempotent, ← rest_of_skipBlank hb]

theorem wellFormed_of_yields {f : Filter} (h : (Filter.scan binding).Yields cursor f next) :
    f.WellFormed := by
  simp only [Filter.scan, yields_bind] at h
  obtain ⟨_, _, _, h⟩ := h
  exact wellFormed_of_disjunction wellFormed_of_scanUnary h

end Filter

namespace OrderItem

theorem wellFormed_of_yields {item : OrderItem} (h : (OrderItem.scan binding).Yields cursor item next) :
    item.path.WellFormed := by
  simp only [OrderItem.scan, yields_bind, yields_ite, yields_pure] at h
  obtain ⟨path, _, hp, _, _, _, _, _, _, ⟨_, rfl, _⟩ | ⟨_, _, _, _, rfl, _⟩⟩ := h
  all_goals exact (PropertyPath.wellFormed_of_yields hp).left

end OrderItem

namespace Aggregate

theorem isIdentifier_of_scanOutput {name : String} (h : scanOutput.Yields cursor name next) :
    IsIdentifier name := by
  simp only [scanOutput, yields_bind] at h
  obtain ⟨_, _, _, _, _, _, h⟩ := h
  exact isIdentifier_of_yields h

theorem wellFormed_of_yields {a : Aggregate} (h : (Aggregate.scan binding).Yields cursor a next) :
    a.WellFormed := by
  simp only [Aggregate.scan, yields_bind, yields_ite, bind_pure_comp, yields_map] at h
  obtain ⟨_, c, hb, counts, _, hk, ⟨_, output, ho, rfl⟩ |
    ⟨hn, path, _, hp, _, _, _, _, _, _, method, _, hm, output, ho, rfl⟩⟩ := h
  case inl => exact isIdentifier_of_scanOutput ho
  case inr =>
    obtain ⟨hp, hw⟩ := PropertyPath.wellFormed_of_yields hp
    rw [yields_keyword (by decide)] at hk
    obtain ⟨hn, _, rfl⟩ := hk.resolve_left fun hk => hn hk.2.1
    refine ⟨hp, fun hd => hn ?_, isQualifiedName_of_yields hm, isIdentifier_of_scanOutput ho⟩
    have hd := hw _ hd
    rwa [rest_of_skipBlank hb, List.dropWhile_idempotent, ← rest_of_skipBlank hb, eq_comm] at hd

end Aggregate

namespace Transformation

theorem le_of_scanCount {count : Nat} (h : scanCount.Yields cursor count next) : count ≤ 9223372036854775807 := by
  simp only [scanCount, yields_bind, yields_ite, not_yields_failAt, and_false, false_or, yields_pure] at h
  obtain ⟨_, _, _, _, _, _, n, _, hn, _, rfl, _⟩ := h
  obtain ⟨_, _, _, _, _, ⟨_, hlt⟩, _⟩ := yields_integer.mp hn
  omega

theorem wellFormed_of_scanGroupBy {t : Transformation} (h : (scanGroupBy binding).Yields cursor t next) :
    t.WellFormed ∧ Clause.walkInside t = [] := by
  simp only [scanGroupBy, yields_bind, yields_ite, yields_pure, bind_pure_comp, yields_map] at h
  obtain ⟨_, _, _, _, _, _, properties, _, hp, _, _, _, _, _, _, _, _, _, h⟩ := h
  have hp := forall_of_listBy (fun h => (PropertyPath.wellFormed_of_yields h).left) hp
  rcases h with ⟨_, _, _, _, _, _, _, _, _, _, aggregates, _, ha, _, _, rfl⟩ | ⟨_, rfl, _⟩
  case inl =>
    have ha := forall_of_listBy Aggregate.wellFormed_of_yields ha
    exact ⟨⟨hp, by rintro _ ⟨⟩; exact ha⟩, rfl⟩
  case inr => exact ⟨⟨hp, by rintro _ ⟨⟩⟩, rfl⟩

variable {item : Option Binding → Scan (Transformation × Option Binding)} {t : Transformation × Option Binding}

theorem wellFormed_of_sequenceOf {ts : List Transformation × Option Binding}
    (hi : ∀ {b c t c'}, (item b).Yields c t c' → ∀ u ∈ t.1 :: Clause.walkInside t.1, u.WellFormed)
    (h : (sequenceOf item binding).Yields cursor ts next) : Clause.WellFormed ts.1 := by
  simp only [sequenceOf, yields_bind, bind_pure_comp, yields_map] at h
  obtain ⟨first, _, hf, _, _, _, more, hm, rfl⟩ := h
  refine ⟨List.cons_ne_nil _ _, ?_⟩
  rw [Clause.walk_eq_flatMap, List.forall_mem_flatMap]
  exact List.forall_mem_cons.mpr ⟨hi hf, List.forall_mem_map.mpr (forall_of_manyAfter hi hm)⟩

theorem wellFormed_of_scanConcat {start : Nat}
    (hi : ∀ {b c t c'}, (item b).Yields c t c' → ∀ u ∈ t.1 :: Clause.walkInside t.1, u.WellFormed)
    (h : (scanConcat start item binding).Yields cursor t next) :
    ∀ u ∈ t.1 :: Clause.walkInside t.1, u.WellFormed := by
  simp only [scanConcat, yields_bind, yields_ite, not_yields_failAt, and_false, false_or, yields_pure] at h
  obtain ⟨branches, _, hb, hl, rfl, _⟩ := h
  have hb := (forall_of_listBy (wellFormed_of_sequenceOf hi) hb).right
  refine List.forall_mem_cons.mpr ⟨⟨?_, List.forall_mem_map.mpr fun b h => (hb b h).left⟩, ?_⟩
  · rw [List.length_map]; omega
  rw [Clause.walkInside, Clause.walkBranches_eq_flatMap, List.forall_mem_flatMap]
  exact List.forall_mem_map.mpr fun b h => (hb b h).right

theorem wellFormed_of_scanBody {start : Nat} {name : String}
    (hi : ∀ {b c t c'}, (item b).Yields c t c' → ∀ u ∈ t.1 :: Clause.walkInside t.1, u.WellFormed)
    (h : (scanBody start name item binding).Yields cursor t next) :
    ∀ u ∈ t.1 :: Clause.walkInside t.1, u.WellFormed := by
  simp only [scanBody] at h
  split at h
  case h_1 =>
    rw [bind_pure_comp, yields_map] at h
    obtain ⟨aggregates, ha, rfl⟩ := h
    exact List.forall_mem_singleton.mpr (forall_of_listBy Aggregate.wellFormed_of_yields ha)
  case h_2 =>
    rw [bind_pure_comp, yields_map] at h
    obtain ⟨t, ht, rfl⟩ := h
    obtain ⟨ht, hw⟩ := wellFormed_of_scanGroupBy ht
    rw [hw]
    exact List.forall_mem_singleton.mpr ht
  case h_3 =>
    rw [bind_pure_comp, yields_map] at h
    obtain ⟨condition, hc, rfl⟩ := h
    exact List.forall_mem_singleton.mpr (Filter.wellFormed_of_yields hc)
  case h_4 =>
    rw [bind_pure_comp, yields_map] at h
    obtain ⟨paths, hp, rfl⟩ := h
    exact List.forall_mem_singleton.mpr
      (forall_of_listBy (fun h => (PropertyPath.wellFormed_of_yields h).left) hp)
  case h_5 =>
    rw [bind_pure_comp, yields_map] at h
    obtain ⟨items, hi, rfl⟩ := h
    exact List.forall_mem_singleton.mpr (forall_of_listBy OrderItem.wellFormed_of_yields hi)
  case h_6 | h_7 =>
    rw [bind_pure_comp, yields_map] at h
    obtain ⟨count, hc, rfl⟩ := h
    exact List.forall_mem_singleton.mpr (le_of_scanCount hc)
  case h_8 => exact wellFormed_of_scanConcat hi h
  case h_9 => exact absurd h not_yields_failAt

theorem wellFormed_of_yields (h : (Transformation.scan depth binding).Yields cursor t next) :
    ∀ u ∈ t.1 :: Clause.walkInside t.1, u.WellFormed := by
  induction depth generalizing binding cursor t next
  case zero => simp [Transformation.scan] at h
  case succ depth ih =>
    simp only [Transformation.scan, yields_bind, yields_ite, yields_pure] at h
    obtain ⟨_, _, _, _, _, _, name, _, _, ⟨_, rfl, _⟩ | ⟨_, _, _, _, _, _, _, t', _, ht, _, _, _, rfl, _⟩⟩ := h
    case inl => exact List.forall_mem_singleton.mpr trivial
    case inr => exact wellFormed_of_scanBody ih ht

end Transformation

namespace Clause

theorem wellFormed_of_parse {s : String} {clause : Clause} (h : parse binding s = .ok clause) :
    clause.WellFormed := by
  obtain ⟨next, h⟩ := run'_eq_ok.mp h
  simp only [Clause.scan, yields_bind, yields_ite, yields_pure, not_yields_fail, and_false, or_false] at h
  obtain ⟨_, _, _, ⟨clause', _⟩, _, hc, _, _, _, _, _, _, _, rfl, _⟩ := h
  exact Transformation.wellFormed_of_sequenceOf Transformation.wellFormed_of_yields hc

end Clause
end RowPipeline
