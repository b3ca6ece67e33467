import RowPipeline.Value.Members

namespace RowPipeline

-- `name` is for callers and `label` for descriptions of stages.
structure Resolver where
  name    : String
  label   : String
  member? : Value → String → Option Value

namespace Resolver

def exact : Resolver where
  name    := "exact"
  label   := "ExactPropertyResolver"
  member? := fun row name => row.members.get? name

-- Names that are equal up to the case of their ASCII letters.
def sameUpToCase (a b : String) : Bool :=
  a.toList.map Char.toLower == b.toList.map Char.toLower

-- A member of just this name, or else the first one whose name differs in case only.
def caseInsensitive : Resolver where
  name    := "case-insensitive"
  label   := "CaseInsensitivePropertyResolver"
  member? := fun row name =>
    (row.members.get? name).or
      ((row.members.find? fun m => sameUpToCase m.1 name).map (·.2))

end Resolver
end RowPipeline
