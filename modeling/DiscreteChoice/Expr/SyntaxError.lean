import DiscreteChoice.Expr.Token
import DiscreteChoice.Expr.Tree
import DiscreteChoice.Schema.Scope

/-!
# Errors at a place of an expression

What can be wrong at a place of an expression: a character that starts no word, a word that does not
continue the expression, or a variable with indices that do not fit its scope.
-/

namespace DiscreteChoice

/-- What is wrong at a place of an expression. -/
inductive SyntaxFault (α : Type) where
  /-- An at sign without a name behind it. -/
  | variableNameExpected
  /-- A character that only a second one like it makes a symbol. -/
  | halfSymbol (c : Char)
  | unexpectedCharacter (c : Char)
  | trailing (found : TokenKind α)
  | tooDeep
  | symbolExpected (expected : Symbol) (found : TokenKind α)
  | expressionExpected (found : TokenKind α)
  | notCallable (name : String)
  | unknownFunction (name : String)
  | argumentCount (function : Builtin) (count : Nat)
  | unknownIndex (word : String)
  | indexExpected (found : TokenKind α)
  | zoneIndexExpected (name : String) (found : Index)
  | periodIndexExpected (name : String) (found : Index)
  | indexMismatch (scope : Scope) (name : String) (found : List Index)
deriving Repr

/-- A fault and the position in the text where it was found. -/
structure SyntaxError (α : Type) where
  position : Nat
  fault : SyntaxFault α
deriving Repr

/-- The indices that the variables of a scope take. -/
def Scope.indexRule : Scope → String
  | scalar | constant => "no index"
  | alternative => "no index or [alt]"
  | zone => "[orig] or [dest]"
  | matrix => "[orig, dest] with an optional time period"

/-- The text of a list of indices. -/
def Index.listText (indices : List Index) : String :=
  if indices.isEmpty then "no index"
  else "[" ++ String.intercalate ", " (indices.map text) ++ "]"

/-- The description of a fault. -/
def SyntaxFault.message {α : Type} [NumberText α] : SyntaxFault α → String
  | variableNameExpected => "expected a variable name after '@'"
  | halfSymbol c => s!"unexpected '{c}', expected '{c}{c}'"
  | unexpectedCharacter c => s!"unexpected character '{c}'"
  | trailing found => s!"unexpected {found.text} after end of expression"
  | tooDeep => "expression nested too deeply"
  | symbolExpected expected found => s!"expected {expected.quoted}, found {found.text}"
  | expressionExpected found => s!"expected an expression, found {found.text}"
  | notCallable name => s!"'@{name}' is a variable and cannot be called"
  | unknownFunction name => s!"unknown function '{name}'"
  | argumentCount function count => function.arityText count
  | unknownIndex word => s!"unknown index '{word}', expected one of alt, orig, dest, period"
  | indexExpected found => s!"expected an index, found {found.text}"
  | zoneIndexExpected name found =>
    s!"variable '{name}' expects a zone index (orig or dest), found '{found.text}'"
  | periodIndexExpected name found =>
    s!"variable '{name}' expects a time period index (period or a number), found '{found.text}'"
  | indexMismatch scope name found =>
    s!"{scope.name} variable '{name}' expects {scope.indexRule}, found {Index.listText found}"

end DiscreteChoice
