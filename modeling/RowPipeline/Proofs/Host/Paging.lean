import Mathlib.Algebra.Group.Nat.Defs
import RowPipeline.Proofs.Clause.RoundTrip
import RowPipeline.Proofs.Host.Applying

namespace RowPipeline

variable {text : String} {rows out : List Value} {size index count : Nat}

theorem Token.number_eq_toString (n : Nat) : number n = toString n := by
  rw [number, Decimal.digits, Nat.toString_eq_ofList_toDigits]

namespace Clause

theorem parse_skip (h : count ≤ 2 ^ 63 - 1) : parse none ("skip(" ++ toString count ++ ")") = .ok [.skip count] := by
  have h := parse_bracketed (t := .skip count) rfl rfl ⟨h, nofun⟩
  simpa only [Transformation.kind, String.reduceAppend, Token.number_eq_toString] using h

theorem parse_top (h : count ≤ 2 ^ 63 - 1) : parse none ("top(" ++ toString count ++ ")") = .ok [.top count] := by
  have h := parse_bracketed (t := .top count) rfl rfl ⟨h, nofun⟩
  simpa only [Transformation.kind, String.reduceAppend, Token.number_eq_toString] using h

end Clause

-- The text of a page, with the pages counted from zero.
def pageText (text : String) (size index : Nat) : String :=
  text ++ "/skip(" ++ toString (index * size) ++ ")/top(" ++ toString size ++ ")"

theorem apply_pageText (h : apply text rows = .ok out) (hs : size ≤ 2 ^ 63 - 1) (hi : index * size ≤ 2 ^ 63 - 1) :
    apply (pageText text size index) rows = .ok ((out.drop (index * size)).take size) := by
  have ⟨clause, hp, hm⟩ := apply_eq_ok.mp h
  have hp' := Clause.parse_slash (Clause.parse_slash hp (Clause.parse_skip hi)) (Clause.parse_top hs)
  have ht : text ++ "/" ++ ("skip(" ++ toString (index * size) ++ ")") ++ "/" ++ ("top(" ++ toString size ++ ")") =
      pageText text size index := by
    refine String.toList_inj.mp ?_
    simp [pageText]
  refine apply_eq_ok.mpr ⟨_, ht ▸ hp', ?_⟩
  simp only [Clause.makes_append, Clause.makes_skip, Clause.makes_top]
  exact ⟨_, ⟨out, hm, rfl⟩, rfl⟩

-- Pages that follow each other from the first one on are a prefix.
theorem flatten_slices {α : Type} (xs : List α) (size count : Nat) :
    ((List.range count).map fun i => (xs.drop (i * size)).take size).flatten = xs.take (count * size) := by
  induction count with
  | zero => simp
  | succ n ih =>
    rw [List.range_succ, List.map_append, List.flatten_append, ih, Nat.succ_mul, List.take_add]
    simp

-- A skip from `2 ^ 63` on cannot be written, for its numeral is refused. No sequence in memory gets so long.
theorem apply_pages (h : apply text rows = .ok out) (hs : 1 ≤ size) (hm : size ≤ 2 ^ 63 - 1)
    (hl : out.length ≤ 2 ^ 63) :
    ∃ pages : List (List Value), (∀ i, i < pages.length ↔ i * size < out.length) ∧
      (∀ i page, pages[i]? = some page → apply (pageText text size i) rows = .ok page) ∧
      pages.flatten = out := by
  have hc : ∀ i, i < (out.length + size - 1) / size ↔ i * size < out.length := by
    intro i
    rw [← Nat.succ_le_iff, Nat.le_div_iff_mul_le hs, Nat.succ_mul]
    omega
  refine ⟨(List.range ((out.length + size - 1) / size)).map fun i => (out.drop (i * size)).take size, ?_, ?_, ?_⟩
  case refine_1 => simpa using hc
  case refine_2 =>
    intro i page hp
    rw [List.getElem?_map, Option.map_eq_some_iff] at hp
    obtain ⟨j, hj, rfl⟩ := hp
    obtain ⟨hi, rfl⟩ := List.getElem?_eq_some_iff.mp hj
    rw [List.length_range, hc] at hi
    rw [List.getElem_range]
    exact apply_pageText h hm (by omega)
  case refine_3 =>
    rw [flatten_slices]
    refine List.take_of_length_le (Nat.le_of_not_lt fun hn => ?_)
    exact Nat.lt_irrefl _ ((hc _).mpr hn)

theorem apply_pages_sorted :
    let row (n : Int) : Value := .object [("A", .int n)]
    let rows := [row 1, row 3, row 2]
    let sorted := [row 3, row 2, row 1]
    apply "orderby(A desc)" rows = .ok sorted ∧ 1 ≤ 2 ∧ 2 ≤ 2 ^ 63 - 1 ∧ sorted.length ≤ 2 ^ 63 ∧
      ∃ pages : List (List Value), pages.length = 2 ∧
        (∀ i page, pages[i]? = some page → apply (pageText "orderby(A desc)" 2 i) rows = .ok page) ∧
        pages.flatten = sorted := by
  intro row rows sorted
  have ha : apply "orderby(A desc)" rows = .ok sorted := rfl
  have ⟨pages, hn, hp, hf⟩ := apply_pages ha (by decide : 1 ≤ 2) (by decide) (by decide)
  have h₁ := (hn 1).mpr (by decide)
  have h₂ := mt (hn 2).mp (by decide)
  exact ⟨ha, by decide, by decide, by decide, pages, by omega, hp, hf⟩

end RowPipeline
