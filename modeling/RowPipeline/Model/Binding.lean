import RowPipeline.Model.Basic
import RowPipeline.Error

namespace RowPipeline

-- The type of the rows, by its name in a model.
structure Binding where
  model    : Model
  typeName : String
deriving DecidableEq, Repr

namespace Binding

-- Each name of the path is a property of the type that the names before it lead to.
def checkPath (binding : Binding) (path : PropertyPath) : Except SyntaxFault Unit :=
  go (binding.model.type? binding.typeName) path
where
  go : Option StructuredType → List String → Except SyntaxFault Unit
    | _, [] => .ok ()
    | none, _ :: _ => .error (.throughPrimitive path)
    | some ty, name :: rest =>
      match binding.model.property? ty name with
      | none => .error (.unknownProperty name ty.name)
      | some property => go (binding.model.propertyType? property) rest

end Binding
end RowPipeline
