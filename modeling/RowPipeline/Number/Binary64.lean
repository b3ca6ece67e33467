import RowPipeline.Number.Rounding

namespace RowPipeline

namespace Binary64

-- Powers of numbers are those of the core library, whatever else is imported.
attribute [local instance] natPow

-- The units in the number one.
def one : Nat :=
  2 ^ (1074 : Nat)

-- The units in `2 ^ 1024`, the first power of two that is too large.
def ceiling : Nat :=
  2 ^ (2098 : Nat)

theorem ceiling_pos : 0 < ceiling := by
  decide +kernel

end Binary64

-- The finite binary64 number `± units · 2 ^ -1074`. Zero has two signs. A result that is too large for the format is
-- absent in what follows.
structure Binary64 where
  negative : Bool
  units    : Nat
  bits     : HasBits 53 units
  bounded  : units < Binary64.ceiling
deriving DecidableEq

namespace Binary64

def zero (negative : Bool) : Binary64 where
  negative := negative
  units    := 0
  bits     := by decide
  bounded  := ceiling_pos

-- Order and equality of numbers are those of their signed units, so the two zeros are equal.
def signed (x : Binary64) : Int :=
  if x.negative then -(x.units : Int) else x.units

-- The number nearest to `num / den` units.
def ofRatio (negative : Bool) (num den : Nat) : Option Binary64 :=
  if h : roundToBits 53 num den < ceiling then
    some ⟨negative, roundToBits 53 num den, hasBits_roundToBits num den (by decide), h⟩
  else
    none

def ofInt (n : Int) : Option Binary64 :=
  ofRatio (n < 0) (n.natAbs * one) 1

-- The signed units of an integer rounded to 53 bits, whatever its size.
def signedOfInt (n : Int) : Int :=
  let units : Int := roundToBits 53 (n.natAbs * one) 1
  if n < 0 then -units else units

theorem signedOfInt_mono {m n : Int} (h : m ≤ n) : signedOfInt m ≤ signedOfInt n := by
  have mono : ∀ a b : Nat, a ≤ b → roundToBits 53 (a * one) 1 ≤ roundToBits 53 (b * one) 1 :=
    fun a b hab => roundToBits_mono 53 1 (by decide) (Nat.mul_le_mul_right _ hab)
  simp only [signedOfInt]
  split <;> split
  · have := mono n.natAbs m.natAbs (by omega)
    omega
  · omega
  · omega
  · have := mono m.natAbs n.natAbs (by omega)
    omega

-- A sum of zero is negative only if both terms are.
def add (x y : Binary64) : Option Binary64 :=
  let sum := x.signed + y.signed
  let negative := if sum = 0 then x.negative && y.negative else decide (sum < 0)
  ofRatio negative sum.natAbs 1

def divNat (x : Binary64) (n : Nat) : Option Binary64 :=
  ofRatio x.negative x.units n

-- The integer that the number is, if it is one.
def toInt? (x : Binary64) : Option Int :=
  if x.units % one = 0 then
    some (if x.negative then -((x.units / one : Nat) : Int) else (x.units / one : Nat))
  else
    none

-- The sum from left to right. An empty sum is the negative zero, which is neutral in additions.
def sum (xs : List (Option Binary64)) : Option Binary64 :=
  xs.foldl (fun acc x => do add (← acc) (← x)) (some (zero true))

end Binary64
end RowPipeline
