import DiscreteChoice.Expr.SyntaxError
import DiscreteChoice.Identifier

/-!
# Compile errors

Why a model specification is refused, and the text that says so.
-/

namespace DiscreteChoice

/-- What is wrong with a model specification as a whole. -/
inductive ModelFault (α : Type) where
  | invalidName (name : String)
  | constantWithoutValue (name : String)
  | nonFiniteConstant (name : String) (value : α)
  | noUtility (alternative : String)
  | nonFiniteCoefficient (value : α)
  | coefficientScope (name : String) (scope : Scope)
  | noAlternatives (model : String)
  | repeatedAlternative (id : AlternativeId) (model : String)
  | repeatedNest (nest : String)
  | emptyNest (nest : String)
  | unknownAlternative (nest : String) (id : AlternativeId)
  | placedTwice (id : AlternativeId)
  | unplaced (ids : List AlternativeId)
deriving Repr

/-- The part of an alternative in which an error was met. -/
inductive Field where
  | utility
  | namedTerm (description : String)
  | term (index : Nat)
  | availability
deriving Repr, DecidableEq

/-- Why a model specification is refused. -/
inductive CompileError (α : Type) where
  | malformed (error : SyntaxError α)
  | unknownVariable (name : String) (position : Nat)
  | nestScale (nest : String) (scale : α)
  | duplicateVariable (name : String)
  | invalidModel (fault : ModelFault α)
  | inAlternative (alternative : String) (field : Field) (cause : CompileError α)
deriving Repr

variable {α : Type}

/-- The description of a fault. -/
def ModelFault.message [NumberText α] : ModelFault α → String
  | invalidName name => s!"'{name}' is not a valid variable name"
  | constantWithoutValue name => s!"constant '{name}' must be declared with a value"
  | nonFiniteConstant name value =>
    s!"constant '{name}' has non-finite value {NumberText.plain value}"
  | noUtility alternative =>
    s!"alternative '{alternative}' has neither a utility expression nor utility terms"
  | nonFiniteCoefficient value => s!"coefficient {NumberText.plain value} is not finite"
  | coefficientScope name scope =>
    s!"coefficient '{name}' must be a constant, found a {scope.name} variable"
  | noAlternatives model => s!"model '{model}' has no alternatives"
  | repeatedAlternative id model =>
    s!"alternative id {id.toNat} is used more than once in model '{model}'"
  | repeatedNest nest => s!"nest name '{nest}' is used more than once"
  | emptyNest nest => s!"nest '{nest}' has no children"
  | unknownAlternative nest id => s!"nest '{nest}' refers to unknown alternative {id.toNat}"
  | placedTwice id => s!"alternative {id.toNat} is placed in more than one nest"
  | unplaced ids =>
    let list := String.intercalate ", " (ids.map fun id => toString id.toNat)
    s!"alternatives [{list}] are not placed in any nest"

/-- The name of a part of an alternative. -/
def Field.text : Field → String
  | utility => "utility"
  | namedTerm description => s!"term '{description}'"
  | term index => s!"term {index}"
  | availability => "availability"

namespace CompileError

/-- The description of an error. -/
def message [NumberText α] : CompileError α → String
  | malformed error => s!"syntax error at position {error.position}: {error.fault.message}"
  | unknownVariable name position =>
    s!"unknown variable '{name}' at position {position}, not declared in the variable schema"
  | nestScale nest scale =>
    s!"nest '{nest}' has scale parameter {NumberText.plain scale}, which must be within (0, 1]"
  | duplicateVariable name => s!"variable '{name}' is declared more than once"
  | invalidModel fault => s!"invalid model specification: {fault.message}"
  | inAlternative alternative field cause =>
    s!"failure compiling {field.text} of alternative '{alternative}': {cause.message}"

/-- The error without the alternative and the field in which it was met. -/
def rootCause : CompileError α → CompileError α
  | inAlternative _ _ cause => cause.rootCause
  | error => error

end CompileError
end DiscreteChoice
