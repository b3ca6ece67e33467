import RowPipeline.Value.Text
import RowPipeline.Clause.Basic

namespace RowPipeline

-- What the text of a clause lacks or has too much of. No text is nested too deeply: this is what a reader answers that
-- is given less depth than its text needs.
inductive SyntaxFault where
  | identifierExpected
  | integerExpected
  | badInteger
  | negativeCount
  | numberExpected
  | badFloat
  | badInt
  | unterminatedString
  | charExpected (c : Char)
  | wordExpected (word : String)
  | unknownTransformation (name : String)
  | tooFewSequences
  | trailingInput
  | unknownFunction (name : String)
  | wrongArity (name : String) (arity given : Nat)
  | throughPrimitive (path : PropertyPath)
  | unknownProperty (name typeName : String)
  | tooDeep
deriving DecidableEq, Repr

namespace SyntaxFault

def message : SyntaxFault → String
  | identifierExpected => "identifier expected"
  | integerExpected => "expected integer"
  | badInteger => "bad integer"
  | negativeCount => "expected a non-negative integer"
  | numberExpected => "number expected"
  | badFloat => "bad float"
  | badInt => "bad int"
  | unterminatedString => "unterminated string"
  | charExpected c => "expected '" ++ String.singleton c ++ "'"
  | wordExpected word => "expected '" ++ word ++ "'"
  | unknownTransformation name => "unknown transformation '" ++ name ++ "'"
  | tooFewSequences => "concat needs at least two sequences"
  | trailingInput => "trailing input"
  | unknownFunction name => "unknown function '" ++ name ++ "'"
  | wrongArity name arity given =>
    "'" ++ name ++ "' takes " ++ Nat.repr arity ++ " argument(s), got " ++ Nat.repr given
  | throughPrimitive path => "'" ++ path.text ++ "' navigates through a primitive property"
  | unknownProperty name typeName =>
    "property '" ++ name ++ "' not found on type '" ++ typeName ++ "'"
  | tooDeep => "nested too deeply"

end SyntaxFault

-- Positions count the bytes of the text before them.
structure SyntaxError where
  position : Nat
  fault    : SyntaxFault
deriving DecidableEq, Repr

-- A sort by an order that is not total on its keys breaks off, and has no answer to give.
inductive EvaluationError where
  | readOfNull (segment : String) (path : PropertyPath)
  | memberNotFound (segment : String) (path : PropertyPath)
  | nonNumeric (value : Value)
  | orderNotTotal
  | other (reason : String)

namespace EvaluationError

def message : EvaluationError → String
  | readOfNull segment path =>
    "cannot read '" ++ segment ++ "' of null while evaluating '" ++ path.text ++ "'"
  | memberNotFound segment path =>
    "member '" ++ segment ++ "' not found while evaluating '" ++ path.text ++ "'"
  | nonNumeric value => "cannot aggregate non-numeric value " ++ value.text
  | orderNotTotal => "the order of the keys is not total"
  | other reason => reason

end EvaluationError

inductive ValidationError where
  | filterNotAllowed
  | orderByNotAllowed
  | topTooLarge (count limit : Nat)
  | countNotAllowed
deriving DecidableEq, Repr

namespace ValidationError

def message : ValidationError → String
  | filterNotAllowed => "filter is not allowed"
  | orderByNotAllowed => "orderby is not allowed"
  | topTooLarge count limit =>
    "top(" ++ Nat.repr count ++ ") exceeds the maximum of " ++ Nat.repr limit
  | countNotAllowed => "$count is not allowed"

end ValidationError

-- What a query option is not made without.
inductive Requirement where
  | context
  | clauseText
  | grammar
deriving DecidableEq, Repr

namespace Requirement

def message : Requirement → String
  | context => "invalid argument `context`: is required"
  | clauseText => "invalid argument `raw_value`: must not be empty"
  | grammar => "invalid argument `parser`: is required"

end Requirement

-- The kinds of services that a scope holds.
inductive Service where
  | settings
  | resolver
  | text
deriving DecidableEq, Repr

namespace Service

def typeName : Service → String
  | settings => "apply_compose::settings::DefaultQuerySettings"
  | resolver => "alloc::sync::Arc<dyn apply_compose::resolver::PropertyResolver>"
  | text => "alloc::string::String"

end Service

inductive Error where
  | invalidArgument (requirement : Requirement)
  | clauseSyntax (error : SyntaxError)
  | missingRegistration (service : Service)
  | validation (error : ValidationError)
  | unknownMethod (name : String)
  | evaluation (error : EvaluationError)

namespace Error

def message : Error → String
  | invalidArgument requirement => requirement.message
  | clauseSyntax error =>
    "syntax error at position " ++ Nat.repr error.position ++ ": " ++ error.fault.message
  | missingRegistration service =>
    "no service of type `" ++ service.typeName ++ "` is registered in the scope"
  | validation error => "validation error: " ++ error.message
  | unknownMethod name => "unknown aggregation method `" ++ name ++ "`"
  | evaluation error => "evaluation error: " ++ error.message

end Error
end RowPipeline
