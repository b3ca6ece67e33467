import RowPipeline.Number.Binary64

namespace RowPipeline

-- The number `coefficient · 10 ^ exponent`.
structure Decimal where
  coefficient : Nat
  exponent    : Int
deriving DecidableEq, Repr

namespace Decimal

-- Powers of numbers are those of the core library, whatever else is imported.
attribute [local instance] natPow

def digits (n : Nat) : List Char :=
  Nat.toDigits 10 n

def ofDigits (cs : List Char) : Nat :=
  Nat.ofDigitChars 10 cs 0

theorem isDigit_of_mem_digits {n : Nat} {c : Char} (h : c ∈ digits n) : c.isDigit :=
  Nat.isDigit_of_mem_toDigits (by decide) (by decide) h

theorem digits_ne_nil {n : Nat} : digits n ≠ [] :=
  Nat.toDigits_ne_nil

theorem ofDigits_digits (n : Nat) : ofDigits (digits n) = n :=
  Nat.ofDigitChars_toDigits (by decide) (by decide)

-- Where the first digit stands: `d` in `x.yz · 10 ^ d`.
def magnitude (d : Decimal) : Int :=
  d.exponent + (digits d.coefficient).length - 1

-- A numeral at or above `10 ^ 310` is too large and one below `10 ^ -330` rounds to zero. These two
-- are told without forming the power of ten.
def toBinary64 (negative : Bool) (d : Decimal) : Option Binary64 :=
  if d.coefficient = 0 ∨ d.magnitude < -330 then
    some (.zero negative)
  else if d.magnitude ≥ 310 then
    none
  else if d.exponent ≥ 0 then
    Binary64.ofRatio negative (d.coefficient * 10 ^ d.exponent.toNat * Binary64.one) 1
  else
    Binary64.ofRatio negative (d.coefficient * Binary64.one) (10 ^ d.exponent.natAbs)

-- The same number without trailing zeros in the coefficient.
def trim (d : Decimal) : Decimal :=
  go (digits d.coefficient).length d
where
  go : Nat → Decimal → Decimal
    | 0, d => d
    | n + 1, d =>
      if d.coefficient % 10 = 0 ∧ d.coefficient ≠ 0 then
        go n ⟨d.coefficient / 10, d.exponent + 1⟩
      else d

end Decimal

end RowPipeline
