import RowPipeline.Number.Shortest

namespace RowPipeline

-- How numbers are laid out: positional from the magnitude `low` up to `high`, exponential outside.
structure NumeralStyle where
  low       : Int
  high      : Int
  wholeMark : List Char
  expMark   : List Char
  plus      : List Char
  minus     : List Char

namespace NumeralStyle

-- Numerals as rows show them: `1.0`, `0.00001`, `1e-6`, `1.5e+300`.
def row : NumeralStyle where
  low       := -5
  high      := 16
  wholeMark := ['.', '0']
  expMark   := ['e']
  plus      := ['+']
  minus     := ['-']

def exponential (style : NumeralStyle) (ds : List Char) (magnitude : Int) : List Char :=
  let mantissa := match ds with
    | [] => []
    | [d] => [d]
    | d :: more => d :: '.' :: more
  let sign := if magnitude < 0 then style.minus else style.plus
  mantissa ++ style.expMark ++ sign ++ Decimal.digits magnitude.natAbs

def positional (style : NumeralStyle) (ds : List Char) (magnitude : Int) : List Char :=
  if magnitude < 0 then
    '0' :: '.' :: (List.replicate (magnitude.natAbs - 1) '0' ++ ds)
  else
    let whole := magnitude.toNat + 1
    if ds.length ≤ whole then
      ds ++ List.replicate (whole - ds.length) '0' ++ style.wholeMark
    else
      ds.take whole ++ '.' :: ds.drop whole

def chars (style : NumeralStyle) (x : Binary64) : List Char :=
  let sign := if x.negative then style.minus else []
  if x.units = 0 then
    sign ++ '0' :: style.wholeMark
  else
    let d := x.shortest
    let ds := Decimal.digits d.coefficient
    if style.low ≤ d.magnitude ∧ d.magnitude < style.high then
      sign ++ style.positional ds d.magnitude
    else
      sign ++ style.exponential ds d.magnitude

end NumeralStyle

-- The decimal text of an integer.
def intChars (n : Int) : List Char :=
  if n < 0 then '-' :: Decimal.digits n.natAbs else Decimal.digits n.natAbs

end RowPipeline
