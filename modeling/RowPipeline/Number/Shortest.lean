import RowPipeline.Number.Decimal

namespace RowPipeline

namespace Binary64

-- Powers of numbers are those of the core library, whatever else is imported.
attribute [local instance] natPow

-- The absolute value, exactly: a unit is `5 ^ 1074 · 10 ^ -1074`.
def toDecimal (x : Binary64) : Decimal :=
  ⟨x.units * 5 ^ (1074 : Nat), -1074⟩

-- `d` reads back as the absolute value of `x`.
def ReadsAs (d : Decimal) (x : Binary64) : Prop :=
  (d.toBinary64 false).map units = some x.units

instance (d : Decimal) (x : Binary64) : Decidable (ReadsAs d x) :=
  inferInstanceAs (Decidable (_ = _))

-- The two neighbours of a number among the decimals that keep all but its last `dropped` digits.
-- Of those that read back, the nearer; at the same distance, the even one.
def nearestKeeping? (x : Binary64) (dropped : Nat) : Option Decimal :=
  let exact := x.toDecimal
  let grid := 10 ^ dropped
  let below : Decimal := ⟨exact.coefficient / grid, exact.exponent + dropped⟩
  let above : Decimal := ⟨below.coefficient + 1, below.exponent⟩
  let nearest := if roundHalfEven exact.coefficient grid = below.coefficient then below else above
  let other := if nearest = below then above else below
  [nearest, other].find? (ReadsAs · x)

-- The numeral with the fewest digits that reads back. Seventeen always suffice.
def shortest (x : Binary64) : Decimal :=
  let exact := x.toDecimal
  let length := (Decimal.digits exact.coefficient).length
  let found := (List.range 17).findSome? fun n => x.nearestKeeping? (length - (n + 1))
  (found.getD exact).trim

end Binary64

end RowPipeline
