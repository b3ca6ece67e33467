import RowPipeline.Row.Resolver
import RowPipeline.Error

namespace RowPipeline

structure Access where
  resolver        : Resolver
  propagatesNulls : Bool

namespace Access

-- A missing last member is null. A step into null or from a missing member fails, unless nulls
-- propagate.
def read (access : Access) (row : Value) (path : PropertyPath) : Except EvaluationError Value :=
  go row path
where
  go : Value → List String → Except EvaluationError Value
    | current, [] => .ok current
    | current, name :: rest =>
      if current.isNull && !access.propagatesNulls then
        .error (.readOfNull name path)
      else
        match access.resolver.member? current name with
        | some value => go value rest
        | none =>
          if access.propagatesNulls || rest.isEmpty then .ok .null
          else .error (.memberNotFound name path)

-- The values of several paths, up to the first that fails.
def readAll (access : Access) (row : Value) (paths : List PropertyPath) :
    Except EvaluationError (List Value) :=
  paths.mapM (access.read row)

end Access
end RowPipeline
