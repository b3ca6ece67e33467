import RowPipeline.Host.Settings
import RowPipeline.Error

namespace RowPipeline

namespace Transformation

def counts (aggregates : List Aggregate) : Bool :=
  aggregates.any Aggregate.isCount

-- The rule that a transformation breaks by itself, whatever its branches do.
def violation? (defaults : Defaults) : Transformation → Option ValidationError
  | filter _ => if defaults.enableFilter then none else some .filterNotAllowed
  | orderBy _ => if defaults.enableOrderBy then none else some .orderByNotAllowed
  | top n =>
    match defaults.maxTop with
    | some limit => if limit < n then some (.topTooLarge n limit) else none
    | none => none
  | aggregate aggregates =>
    if !defaults.enableCount && counts aggregates then some .countNotAllowed else none
  | groupBy _ (some aggregates) =>
    if !defaults.enableCount && counts aggregates then some .countNotAllowed else none
  | _ => none

end Transformation

namespace Clause

-- The first transformation that breaks a rule decides, at any depth.
def validate (defaults : Defaults) (clause : Clause) : Except ValidationError Unit :=
  match (walk clause).findSome? (Transformation.violation? defaults) with
  | some error => .error error
  | none => .ok ()

end Clause
end RowPipeline
