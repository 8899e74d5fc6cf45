import DiscreteChoice.Expr.Lexer

/-!
# From tokens to expressions

Loosest first: the conditional `?:`, the left-associative levels `||`, `&&`, comparisons, `+ -` and
`* /`, the right-associative power `^`, and the unary operators `! -`, which bind tighter than the
power.

The productions that can nest, which are whole expressions, exponents and the operands of unary
operators, take how many of them may still be opened. The parsers are defined by recursion on that
number, so a text of any length and nesting has an answer.
-/

namespace DiscreteChoice

/-- A reader of the front of a list of tokens, which leaves the rest. -/
abbrev Parser (α β : Type) :=
  List (Token α) → Except (SyntaxError α) (β × List (Token α))

namespace Parser

/-- How many productions may be nested. -/
def maxDepth : Nat := 256

variable {α : Type}

/-- The token at the front, the end of the text when none is left. -/
def current : List (Token α) → Token α
  | [] => ⟨.endOfText, 0⟩
  | token :: _ => token

/-- Whether the token at the front is the given symbol. -/
def startsWith (s : Symbol) (tokens : List (Token α)) : Bool :=
  match (current tokens).kind with
  | .symbol found => found == s
  | _ => false

/-- Refuses the expression at the front token. -/
def failHere {β : Type} (fault : TokenKind α → SyntaxFault α) (tokens : List (Token α)) :
    Except (SyntaxError α) (β × List (Token α)) :=
  .error ⟨(current tokens).position, fault (current tokens).kind⟩

/-- Takes a symbol, which has to be at the front. -/
def expect (s : Symbol) (tokens : List (Token α)) :
    Except (SyntaxError α) (Unit × List (Token α)) :=
  if startsWith s tokens then .ok ((), tokens.tail) else failHere (.symbolExpected s) tokens

/-! ## Levels of binary operators -/

/-- The levels of left-associative operators. -/
inductive Level where
  | or
  | and
  | comparison
  | additive
  | multiplicative
deriving Repr, DecidableEq

/-- The operator that a symbol stands for on a level. -/
def Level.operator? : Level → Symbol → Option BinaryOp
  | or, .orOr => some .or
  | and, .andAnd => some .and
  | comparison, .equalEqual => some .equal
  | comparison, .bangEqual => some .notEqual
  | comparison, .less => some .less
  | comparison, .lessEqual => some .lessEqual
  | comparison, .greater => some .greater
  | comparison, .greaterEqual => some .greaterEqual
  | additive, .plus => some .add
  | additive, .minus => some .subtract
  | multiplicative, .star => some .multiply
  | multiplicative, .slash => some .divide
  | _, _ => none

/-- The levels, loosest first. -/
def levels : List Level :=
  [.or, .and, .comparison, .additive, .multiplicative]

/-- The operator of a level at the front, if there is one. -/
def operatorAt? (level : Level) (tokens : List (Token α)) : Option BinaryOp :=
  match (current tokens).kind with
  | .symbol s => level.operator? s
  | _ => none

/-- Goes on behind a first operand for as long as operators of the level follow. Every step takes a
token, so that as many steps as there are tokens suffice. -/
def chainFrom (level : Level) (operand : Parser α (Expr α)) :
    Nat → Expr α → Parser α (Expr α)
  | 0, lhs, tokens => .ok (lhs, tokens)
  | steps + 1, lhs, tokens =>
    match operatorAt? level tokens with
    | none => .ok (lhs, tokens)
    | some op => do
      let (rhs, rest) ← operand tokens.tail
      chainFrom level operand steps (.binary op lhs rhs) rest

/-- A chain of operands joined by the operators of a level, grouped from the left. -/
def chain (level : Level) (operand : Parser α (Expr α)) : Parser α (Expr α) := fun tokens => do
  let (first, rest) ← operand tokens
  chainFrom level operand rest.length first rest

/-! ## Variables and calls -/

variable [Numeric α]

/-- The index that a token stands for. Numbers are time periods. -/
def index (token : Token α) : Except (SyntaxError α) Index :=
  match token.kind with
  | .identifier word =>
    match Index.ofKeyword? word with
    | some i => .ok i
    | none => .error ⟨token.position, .unknownIndex word⟩
  | .number value =>
    match Numeric.toNat? value with
    | some n => if n < UInt32.size then .ok (.literal n.toUInt32)
      else .error ⟨token.position, .indexExpected token.kind⟩
    | none => .error ⟨token.position, .indexExpected token.kind⟩
  | kind => .error ⟨token.position, .indexExpected kind⟩

/-- The rest of a list of indices, from an index to the closing bracket. -/
def indicesFrom : Nat → Parser α (List Index)
  | 0, tokens => failHere .indexExpected tokens
  | steps + 1, tokens => do
    let first ← index (current tokens)
    let rest := tokens.tail
    if startsWith .comma rest then
      let (others, rest) ← indicesFrom steps rest.tail
      return (first :: others, rest)
    else
      let (_, rest) ← expect .rightBracket rest
      return ([first], rest)

/-- The indices behind the name of a variable, none without a bracket. -/
def indices : Parser α (List Index) := fun tokens =>
  if startsWith .leftBracket tokens then indicesFrom tokens.length tokens.tail
  else .ok ([], tokens)

/-- A variable whose name has been taken. -/
def variableNamed (name : String) (position : Nat) : Parser α (Expr α) := fun tokens => do
  let (indices, rest) ← indices tokens
  return (.reference name indices position, rest)

/-- The rest of a list of arguments, from an argument to the closing parenthesis. -/
def argumentsFrom (argument : Parser α (Expr α)) : Nat → Parser α (List (Expr α))
  | 0, tokens => failHere .expressionExpected tokens
  | steps + 1, tokens => do
    let (first, rest) ← argument tokens
    if startsWith .comma rest then
      let (others, rest) ← argumentsFrom argument steps rest.tail
      return (first :: others, rest)
    else
      let (_, rest) ← expect .rightParen rest
      return ([first], rest)

/-- The arguments of a call, from the opening parenthesis to the closing one. -/
def arguments (argument : Parser α (Expr α)) : Parser α (List (Expr α)) := fun tokens => do
  let (_, rest) ← expect .leftParen tokens
  if startsWith .rightParen rest then return ([], rest.tail)
  else argumentsFrom argument rest.length rest

/-- A call of a function whose name has been taken. -/
def callNamed (argument : Parser α (Expr α)) (name : String) (position : Nat) :
    Parser α (Expr α) := fun tokens =>
  match Builtin.ofName? name with
  | none => .error ⟨position, .unknownFunction name⟩
  | some function => do
    let (args, rest) ← arguments argument tokens
    if function.accepts args.length then return (.call function args, rest)
    else .error ⟨position, .argumentCount function args.length⟩

/-! ## Productions -/

/-- A number, a variable, a call or an expression in parentheses. -/
def primary (inner : Parser α (Expr α)) : Parser α (Expr α) := fun tokens =>
  let token := current tokens
  let rest := tokens.tail
  match token.kind with
  | .number value => .ok (.constant value, rest)
  | .reference name =>
    if startsWith .leftParen rest then .error ⟨token.position, .notCallable name⟩
    else variableNamed name token.position rest
  | .identifier name =>
    if startsWith .leftParen rest then callNamed inner name token.position rest
    else variableNamed name token.position rest
  | .symbol .leftParen => do
    let (e, rest) ← inner rest
    let (_, rest) ← expect .rightParen rest
    return (e, rest)
  | kind => .error ⟨token.position, .expressionExpected kind⟩

/-- The unary operator at the front, if there is one. -/
def unaryAt? (tokens : List (Token α)) : Option UnaryOp :=
  match (current tokens).kind with
  | .symbol .bang => some .not
  | .symbol .minus => some .negate
  | _ => none

/-- A unary operator with its operand, or a primary expression. -/
def unary (operand inner : Parser α (Expr α)) : Parser α (Expr α) := fun tokens =>
  match unaryAt? tokens with
  | none => primary inner tokens
  | some op => do
    let (e, rest) ← operand tokens.tail
    return (.unary op e, rest)

/-- A base with its exponent, or the base alone. -/
def power (base exponent : Parser α (Expr α)) : Parser α (Expr α) := fun tokens => do
  let (b, rest) ← base tokens
  if startsWith .caret rest then
    let (e, rest) ← exponent rest.tail
    return (.binary .power b e, rest)
  else return (b, rest)

/-- A condition with its two branches, or the condition alone. -/
def conditional (condition branch : Parser α (Expr α)) : Parser α (Expr α) := fun tokens => do
  let (c, rest) ← condition tokens
  if startsWith .question rest then
    let (t, rest) ← branch rest.tail
    let (_, rest) ← expect .colon rest
    let (f, rest) ← branch rest
    return (.conditional c t f, rest)
  else return (c, rest)

mutual

/-- A whole expression, in which the given number of productions may be opened, itself among
them. -/
def expression : Nat → Parser α (Expr α)
  | 0, tokens => failHere (fun _ => .tooDeep) tokens
  | depth + 1, tokens =>
    conditional
      (levels.foldr chain (power (unary (operand depth) (expression depth)) (exponent depth)))
      (expression depth) tokens

/-- What follows the power sign. -/
def exponent : Nat → Parser α (Expr α)
  | 0, tokens => failHere (fun _ => .tooDeep) tokens
  | depth + 1, tokens =>
    power (unary (operand depth) (expression depth)) (exponent depth) tokens

/-- What follows a unary operator. -/
def operand : Nat → Parser α (Expr α)
  | 0, tokens => failHere (fun _ => .tooDeep) tokens
  | depth + 1, tokens => unary (operand depth) (expression depth) tokens

end

/-- The expression that a list of tokens makes up. -/
def ofTokens (tokens : List (Token α)) : Except (SyntaxError α) (Expr α) := do
  let (e, rest) ← expression maxDepth tokens
  match (current rest).kind with
  | .endOfText => return e
  | kind => .error ⟨(current rest).position, .trailing kind⟩

end Parser

/-- The expression that a text spells. -/
def Expr.ofText {α : Type} [Numeric α] (text : String) : Except (SyntaxError α) (Expr α) := do
  Parser.ofTokens (← Token.ofText text)

end DiscreteChoice
