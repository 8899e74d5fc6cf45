import DiscreteChoice.Proofs.Expr.ParserCompleteness

/-!
# A parser with a cursor

The grammar read by procedures that share a state: the place of the next token and the number of open
productions, which is counted up before a nested production and down behind it. The procedures call
each other as the productions mention each other, and a chain, a list of arguments and a list of
indices are loops that call themselves again. Nothing bounds the calls: a procedure stands for the
least solution of its equations, and one that never ends has no outcome.

Main results:

- Theorem `outcome_bind`: a procedure goes on from the state that the one before it has reached.
- Theorem `outcome_nested`: the number of open productions is counted down again behind a success and
  behind a failure.
-/

namespace DiscreteChoice
namespace CursorParser

open DiscreteChoice.Parser

variable {α β γ : Type}

/-- What the procedures share. -/
structure State where
  /-- The place of the next token. -/
  cursor : Nat
  /-- How many productions are open. -/
  depth : Nat
deriving Repr, DecidableEq

/-- A procedure changes the state and answers or fails. One that never ends leaves nothing. -/
abbrev Procedure (α β : Type) :=
  ExceptT (SyntaxError α) (StateT State Option) β

/-- What a procedure answers from a state, and the state that it leaves. -/
def outcome (x : Procedure α β) (s : State) : Option (Except (SyntaxError α) β × State) :=
  x.run.run s

/-- A procedure goes on from the state that the one before it has reached, unless that one failed. -/
theorem outcome_bind (x : Procedure α β) (f : β → Procedure α γ) (s : State) :
    outcome (x >>= f) s = (outcome x s).bind fun
      | (.ok value, after) => outcome (f value) after
      | (.error e, after) => some (.error e, after) := by
  change (x.run.run s).bind _ = (x.run.run s).bind _
  congr 1
  funext ⟨answer, after⟩
  cases answer <;> rfl

/-! ## Taking tokens -/

/-- The token at a place. Behind the last one it is the end of the text once more. -/
def tokenAt (tokens : List (Token α)) (place : Nat) : Token α :=
  tokens[place]?.getD ⟨.endOfText, (tokens.getLast?.map Token.position).getD 0⟩

/-- The next token. -/
def peek (tokens : List (Token α)) : Procedure α (Token α) := do
  return tokenAt tokens (← get).cursor

/-- Takes the next token. Behind the last one the cursor stays. -/
def advance (tokens : List (Token α)) : Procedure α (Token α) := do
  let token ← peek tokens
  modify fun s => if s.cursor < tokens.length then { s with cursor := s.cursor + 1 } else s
  return token

/-- Whether the next token is the given symbol. -/
def sees (tokens : List (Token α)) (s : Symbol) : Procedure α Bool := do
  return startsWith s [← peek tokens]

/-- Takes the next token when it is the given symbol. -/
def eat (tokens : List (Token α)) (s : Symbol) : Procedure α Bool := do
  if ← sees tokens s then
    let _ ← advance tokens
    return true
  else return false

/-- Takes a symbol, which has to be the next token. -/
def demand (tokens : List (Token α)) (s : Symbol) : Procedure α Unit := do
  if ← eat tokens s then return ()
  else
    let token ← peek tokens
    throw ⟨token.position, .symbolExpected s token.kind⟩

@[simp] theorem outcome_peek (tokens : List (Token α)) (s : State) :
    outcome (peek tokens) s = some (.ok (tokenAt tokens s.cursor), s) := rfl

/-- The next place of the cursor. -/
def State.next (count : Nat) (s : State) : State :=
  if s.cursor < count then { s with cursor := s.cursor + 1 } else s

@[simp] theorem outcome_advance (tokens : List (Token α)) (s : State) :
    outcome (advance tokens) s = some (.ok (tokenAt tokens s.cursor), s.next tokens.length) := rfl

@[simp] theorem outcome_sees (tokens : List (Token α)) (symbol : Symbol) (s : State) :
    outcome (sees tokens symbol) s =
      some (.ok (startsWith symbol [tokenAt tokens s.cursor]), s) := rfl

/-- A symbol is taken when it is the next token. -/
theorem outcome_eat (tokens : List (Token α)) (symbol : Symbol) (s : State) :
    outcome (eat tokens symbol) s =
      if startsWith symbol [tokenAt tokens s.cursor] then some (.ok true, s.next tokens.length)
      else some (.ok false, s) := by
  rw [eat, outcome_bind, outcome_sees, Option.bind_some]
  dsimp only
  split <;> rfl

/-! ## Productions -/

/-- The productions of the grammar and the loops in them. -/
inductive Production (α : Type) where
  /-- A production that counts as open while it is read. -/
  | nested (inner : Production α)
  | conditional
  | chain (level : Level)
  /-- The loop of a chain, behind operands that make up an expression. -/
  | joining (level : Level) (lhs : Expr α)
  | power
  | unary
  | primary
  /-- A call whose name has been taken. -/
  | callNamed (name : String) (position : Nat)
  /-- The loop of a call, behind some arguments. -/
  | arguments (function : Builtin) (position : Nat) (args : List (Expr α))
  /-- A variable whose name has been taken. -/
  | variableNamed (name : String) (position : Nat)
  /-- The loop of a variable, behind some indices. -/
  | indices (name : String) (position : Nat) (found : List Index)

/-- What the operators of a level join. -/
def Production.operandOf : Level → Production α
  | .or => .chain .and
  | .and => .chain .comparison
  | .comparison => .chain .additive
  | .additive => .chain .multiplicative
  | .multiplicative => .power

/-- A call of a function, which has to take the number of arguments. -/
def callOf (function : Builtin) (position : Nat) (args : List (Expr α)) : Procedure α (Expr α) :=
  if function.accepts args.length then return .call function args
  else throw ⟨position, .argumentCount function args.length⟩

variable [Numeric α] (tokens : List (Token α))

/-- Reads a production from the cursor on. -/
def Production.run : Production α → Procedure α (Expr α)
  | .nested inner => (do
    let before ← get
    if maxDepth ≤ before.depth then
      return .error ⟨(tokenAt tokens before.cursor).position, .tooDeep⟩
    else
      set { before with depth := before.depth + 1 }
      let answer ← (inner |>.run).run
      modify fun after => { after with depth := after.depth - 1 }
      return answer : StateT State Option (Except (SyntaxError α) (Expr α)))
  | .conditional => do
    let c ← Production.chain .or |>.run
    if ← eat tokens .question then
      let t ← Production.nested .conditional |>.run
      demand tokens .colon
      let f ← Production.nested .conditional |>.run
      return .conditional c t f
    else return c
  | .chain level => do
    let first ← Production.operandOf level |>.run
    Production.joining level first |>.run
  | .joining level lhs => do
    match operatorAt? level [← peek tokens] with
    | none => return lhs
    | some op =>
      let _ ← advance tokens
      let rhs ← Production.operandOf level |>.run
      Production.joining level (.binary op lhs rhs) |>.run
  | .power => do
    let base ← Production.unary |>.run
    if ← eat tokens .caret then
      let exponent ← Production.nested .power |>.run
      return .binary .power base exponent
    else return base
  | .unary => do
    match unaryAt? [← peek tokens] with
    | none => Production.primary |>.run
    | some op =>
      let _ ← advance tokens
      let operand ← Production.nested .unary |>.run
      return .unary op operand
  | .primary => do
    let token ← advance tokens
    match token.kind with
    | .number value => return .constant value
    | .reference name =>
      if ← sees tokens .leftParen then throw ⟨token.position, .notCallable name⟩
      else Production.variableNamed name token.position |>.run
    | .identifier name =>
      if ← sees tokens .leftParen then Production.callNamed name token.position |>.run
      else Production.variableNamed name token.position |>.run
    | .symbol .leftParen =>
      let inner ← Production.nested .conditional |>.run
      demand tokens .rightParen
      return inner
    | kind => throw ⟨token.position, .expressionExpected kind⟩
  | .callNamed name position =>
    match Builtin.ofName? name with
    | none => throw ⟨position, .unknownFunction name⟩
    | some function => do
      demand tokens .leftParen
      if ← eat tokens .rightParen then callOf function position []
      else Production.arguments function position [] |>.run
  | .arguments function position args => do
    let arg ← Production.nested .conditional |>.run
    if ← eat tokens .comma then Production.arguments function position (args ++ [arg]) |>.run
    else
      demand tokens .rightParen
      callOf function position (args ++ [arg])
  | .variableNamed name position => do
    if ← eat tokens .leftBracket then Production.indices name position [] |>.run
    else return .reference name [] position
  | .indices name position found => do
    match index (← advance tokens) with
    | .error e => throw e
    | .ok i =>
      if ← eat tokens .comma then Production.indices name position (found ++ [i]) |>.run
      else
        demand tokens .rightBracket
        return .reference name (found ++ [i]) position
partial_fixpoint

/-- The number of open productions is counted down again behind a success and behind a failure. -/
theorem outcome_nested (inner : Production α) (s : State) :
    outcome (Production.run tokens (.nested inner)) s =
      if maxDepth ≤ s.depth then
        some (.error ⟨(tokenAt tokens s.cursor).position, .tooDeep⟩, s)
      else
        (outcome (inner.run tokens) { s with depth := s.depth + 1 }).map fun
          | (answer, after) => (answer, { after with depth := after.depth - 1 }) := by
  rw [Production.run]
  change (if maxDepth ≤ s.depth then _ else _ : StateT State Option _) s = _
  split
  · rfl
  · change (outcome (inner.run tokens) { s with depth := s.depth + 1 }).bind _ = Option.map _ _
    rw [Option.map_eq_bind]
    rfl

/-- Reads an expression that makes up all tokens. -/
def parse : Procedure α (Expr α) := do
  let e ← Production.run tokens (.nested .conditional)
  let token ← peek tokens
  match token.kind with
  | .endOfText => return e
  | kind => throw ⟨token.position, .trailing kind⟩

/-- Reads the expression that a text spells, if that ends. -/
def parseText (text : String) : Option (Except (SyntaxError α) (Expr α)) :=
  match Token.ofText text with
  | .error e => some (.error e)
  | .ok tokens => (outcome (parse tokens) ⟨0, 0⟩).map Prod.fst

end CursorParser
end DiscreteChoice
