import DiscreteChoice.Numeric.Basic

/-!
# Tokens

The words of an expression and their texts in messages.

Main results:

- Theorem `Symbol.ofSpelling?_spelling`: a symbol is read back from its spelling.
-/

namespace DiscreteChoice

/-- The operators and the punctuation of expressions. -/
inductive Symbol where
  | plus
  | minus
  | star
  | slash
  | caret
  | bang
  | equalEqual
  | bangEqual
  | less
  | lessEqual
  | greater
  | greaterEqual
  | andAnd
  | orOr
  | question
  | colon
  | comma
  | leftParen
  | rightParen
  | leftBracket
  | rightBracket
deriving Repr, DecidableEq

namespace Symbol

/-- The characters of a symbol. -/
def spelling : Symbol → List Char
  | plus => ['+']
  | minus => ['-']
  | star => ['*']
  | slash => ['/']
  | caret => ['^']
  | bang => ['!']
  | equalEqual => ['=', '=']
  | bangEqual => ['!', '=']
  | less => ['<']
  | lessEqual => ['<', '=']
  | greater => ['>']
  | greaterEqual => ['>', '=']
  | andAnd => ['&', '&']
  | orOr => ['|', '|']
  | question => ['?']
  | colon => [':']
  | comma => [',']
  | leftParen => ['(']
  | rightParen => [')']
  | leftBracket => ['[']
  | rightBracket => [']']

/-- All symbols. -/
def all : List Symbol :=
  [plus, minus, star, slash, caret, bang, equalEqual, bangEqual, less, lessEqual, greater,
    greaterEqual, andAnd, orOr, question, colon, comma, leftParen, rightParen, leftBracket,
    rightBracket]

/-- The symbol that is spelled by the given characters. -/
def ofSpelling? (cs : List Char) : Option Symbol :=
  all.find? (·.spelling == cs)

/-- A symbol is read back from its spelling. -/
@[simp] theorem ofSpelling?_spelling (s : Symbol) : ofSpelling? s.spelling = some s := by
  cases s <;> decide

/-- A symbol between single quotes. -/
def quoted (s : Symbol) : String :=
  "'" ++ String.ofList s.spelling ++ "'"

end Symbol

/-- The words of an expression. -/
inductive TokenKind (α : Type) where
  | number (value : α)
  /-- A bare name: a function, the keyword of an index, or a variable. -/
  | identifier (name : String)
  /-- A variable marked with an at sign. -/
  | reference (name : String)
  | symbol (s : Symbol)
  | endOfText
deriving Repr, DecidableEq

/-- A word and the position of its first character. -/
structure Token (α : Type) where
  kind : TokenKind α
  position : Nat
deriving Repr, DecidableEq

/-- The text of a word in messages. -/
def TokenKind.text {α : Type} [NumberText α] : TokenKind α → String
  | number value => s!"number {NumberText.plain value}"
  | identifier name => s!"'{name}'"
  | reference name => s!"'@{name}'"
  | symbol s => s.quoted
  | endOfText => "end of expression"

end DiscreteChoice
