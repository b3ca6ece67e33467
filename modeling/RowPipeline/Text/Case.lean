import RowPipeline.Text.CaseTable
import RowPipeline.Text.CaseProperties

namespace RowPipeline.Text

def mapCase (runs : List CaseTable.Run) (expansions : List (Nat × List Nat)) (c : Char) : List Char :=
  match runs.find? (·.contains c.toNat) with
  | some run => [Char.ofNat (c.toNat + run.shift).toNat]
  | none =>
    match expansions.lookup c.toNat with
    | some codes => codes.map Char.ofNat
    | none => [c]

def within (ranges : List (Nat × Nat)) (c : Char) : Bool :=
  ranges.any fun (first, last) => first ≤ c.toNat && c.toNat ≤ last

-- The nearest character that counts for the shape of a word is one that has case.
def meetsCased (cs : List Char) : Bool :=
  match cs.dropWhile (within CaseTable.caseIgnorable) with
  | [] => false
  | c :: _ => within CaseTable.cased c

-- A capital sigma at the end of a word becomes the final form. `before` holds the characters to the left, nearest
-- first.
def lowerFrom (before : List Char) : List Char → List Char
  | [] => []
  | c :: after =>
    let form :=
      if c = 'Σ' then
        if meetsCased before && !meetsCased after then ['ς'] else ['σ']
      else
        mapCase CaseTable.lower CaseTable.lowerExpansions c
    form ++ lowerFrom (c :: before) after

def toLower (s : String) : String :=
  String.ofList (lowerFrom [] s.toList)

def toUpper (s : String) : String :=
  String.ofList (s.toList.flatMap (mapCase CaseTable.upper CaseTable.upperExpansions))

end RowPipeline.Text
