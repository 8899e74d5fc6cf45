import Mathlib
import DiscreteChoice.Expr.Parser

/-!
# The grammar of expressions

Which lists of tokens are expressions, without saying how they are read:

    conditional     →  or  |  or ? conditional : conditional
    or              →  and  |  or || and                    and so on down to  * and /
    power           →  unary  |  unary ^ power
    unary           →  primary  |  ! unary  |  - unary
    primary         →  number  |  variable  |  call  |  ( conditional )

The operators, the functions and the words of indices are spelled out here as they are in the grammar,
and not taken from the tables that the parser looks them up in.

A derivation carries how many nested conditionals, exponents and operands of unary operators may
still be opened below a point.

Main results:

- Theorem `Derives.mono`: what can be derived can be derived with more left to open.
- Theorem `Derives.ne_nil`: nothing is derived from no tokens.
- Theorem `Derives.no_end`: the end of the text is not part of an expression.
-/

namespace DiscreteChoice
namespace Parser

variable {α : Type}

/-! ## Indices -/

/-- The token spells the index. -/
inductive SpellsIndex [Numeric α] : Token α → Index → Prop
  | alternative (place : Nat) : SpellsIndex ⟨.identifier "alt", place⟩ .alternative
  | origin (place : Nat) : SpellsIndex ⟨.identifier "orig", place⟩ .origin
  | destination (place : Nat) : SpellsIndex ⟨.identifier "dest", place⟩ .destination
  | period (place : Nat) : SpellsIndex ⟨.identifier "period", place⟩ .period
  | literal {value : α} {n : Nat} (whole : Numeric.toNat? value = some n) (small : n < 2 ^ 32)
      (place : Nat) : SpellsIndex ⟨.number value, place⟩ (.literal n.toUInt32)

/-- The tokens spell the indices, with commas between them. -/
inductive IndexList [Numeric α] : List (Token α) → List Index → Prop
  | last {token : Token α} {i : Index} (spelled : SpellsIndex token i) : IndexList [token] [i]
  | more {token : Token α} {i : Index} {tokens : List (Token α)} {others : List Index}
      (spelled : SpellsIndex token i) (place : Nat) (rest : IndexList tokens others) :
      IndexList (token :: ⟨.symbol .comma, place⟩ :: tokens) (i :: others)

/-- The tokens are nothing, or one or more indices in brackets. -/
inductive Brackets [Numeric α] : List (Token α) → List Index → Prop
  | none : Brackets [] []
  | some {tokens : List (Token α)} {indices : List Index} (left right : Nat)
      (list : IndexList tokens indices) :
      Brackets (⟨.symbol .leftBracket, left⟩ :: tokens ++ [⟨.symbol .rightBracket, right⟩]) indices

/-! ## Expressions -/

/-- What a list of tokens can be derived from. -/
inductive Category where
  | conditional
  | level (level : Level)
  | power
  | unary
  | primary
  /-- The arguments of a call of a function, which stand for the call on them. -/
  | arguments (function : Builtin)

/-- What the operators of a level join. -/
def Level.operand : Level → Category
  | or => .level .and
  | and => .level .comparison
  | comparison => .level .additive
  | additive => .level .multiplicative
  | multiplicative => .power

/-- The symbol joins operands of the level by the operator. -/
inductive Joins : Level → Symbol → BinaryOp → Prop
  | or : Joins .or .orOr .or
  | and : Joins .and .andAnd .and
  | equal : Joins .comparison .equalEqual .equal
  | notEqual : Joins .comparison .bangEqual .notEqual
  | less : Joins .comparison .less .less
  | lessEqual : Joins .comparison .lessEqual .lessEqual
  | greater : Joins .comparison .greater .greater
  | greaterEqual : Joins .comparison .greaterEqual .greaterEqual
  | add : Joins .additive .plus .add
  | subtract : Joins .additive .minus .subtract
  | multiply : Joins .multiplicative .star .multiply
  | divide : Joins .multiplicative .slash .divide

/-- The name is that of the function, which can be called on so many arguments. -/
inductive Callable : String → Builtin → Nat → Prop
  | ln : Callable "ln" .ln 1
  | exp : Callable "exp" .exp 1
  | abs : Callable "abs" .abs 1
  | max {count : Nat} (pos : 0 < count) : Callable "max" .max count
  | min {count : Nat} (pos : 0 < count) : Callable "min" .min count
  | logsum {count : Nat} (pos : 0 < count) : Callable "logsum" .logsum count

/-- The symbol of a unary operator. -/
def unarySymbol : UnaryOp → Symbol
  | .not => .bang
  | .negate => .minus

/-- The tokens are a text of the category that stands for the expression, in which the given number
of nested conditionals, exponents and operands of unary operators may be opened. -/
inductive Derives [Numeric α] : Nat → Category → List (Token α) → Expr α → Prop
  | unconditional {depth : Nat} {tokens : List (Token α)} {e : Expr α}
      (inner : Derives depth (.level .or) tokens e) : Derives (depth + 1) .conditional tokens e
  | conditional {depth : Nat} {cs ts fs : List (Token α)} {c t f : Expr α} (question colon : Nat)
      (condition : Derives depth (.level .or) cs c) (ifTrue : Derives depth .conditional ts t)
      (ifFalse : Derives depth .conditional fs f) :
      Derives (depth + 1) .conditional
        (cs ++ ⟨.symbol .question, question⟩ :: (ts ++ ⟨.symbol .colon, colon⟩ :: fs))
        (.conditional c t f)
  | operand {depth : Nat} {level : Level} {tokens : List (Token α)} {e : Expr α}
      (inner : Derives depth level.operand tokens e) : Derives depth (.level level) tokens e
  | joined {depth : Nat} {level : Level} {s : Symbol} {op : BinaryOp} {ls rs : List (Token α)}
      {lhs rhs : Expr α} (place : Nat) (operator : Joins level s op)
      (left : Derives depth (.level level) ls lhs) (right : Derives depth level.operand rs rhs) :
      Derives depth (.level level) (ls ++ ⟨.symbol s, place⟩ :: rs) (.binary op lhs rhs)
  | base {depth : Nat} {tokens : List (Token α)} {e : Expr α}
      (inner : Derives depth .unary tokens e) : Derives depth .power tokens e
  | raised {depth : Nat} {bs es : List (Token α)} {b e : Expr α} (place : Nat)
      (base : Derives (depth + 1) .unary bs b) (exponent : Derives depth .power es e) :
      Derives (depth + 1) .power (bs ++ ⟨.symbol .caret, place⟩ :: es) (.binary .power b e)
  | plain {depth : Nat} {tokens : List (Token α)} {e : Expr α}
      (inner : Derives depth .primary tokens e) : Derives depth .unary tokens e
  | applied {depth : Nat} {tokens : List (Token α)} {e : Expr α} (op : UnaryOp) (place : Nat)
      (operand : Derives depth .unary tokens e) :
      Derives (depth + 1) .unary (⟨.symbol (unarySymbol op), place⟩ :: tokens) (.unary op e)
  | number {depth : Nat} (value : α) (place : Nat) :
      Derives depth .primary [⟨.number value, place⟩] (.constant value)
  | identifier {depth : Nat} {tokens : List (Token α)} {indices : List Index} (name : String)
      (place : Nat) (brackets : Brackets tokens indices) :
      Derives depth .primary (⟨.identifier name, place⟩ :: tokens) (.reference name indices place)
  | reference {depth : Nat} {tokens : List (Token α)} {indices : List Index} (name : String)
      (place : Nat) (brackets : Brackets tokens indices) :
      Derives depth .primary (⟨.reference name, place⟩ :: tokens) (.reference name indices place)
  | parentheses {depth : Nat} {tokens : List (Token α)} {e : Expr α} (left right : Nat)
      (inner : Derives depth .conditional tokens e) :
      Derives depth .primary
        (⟨.symbol .leftParen, left⟩ :: tokens ++ [⟨.symbol .rightParen, right⟩]) e
  | call {depth : Nat} {tokens : List (Token α)} {name : String} {function : Builtin}
      {args : List (Expr α)} (place left right : Nat) (callable : Callable name function args.length)
      (list : Derives depth (.arguments function) tokens (.call function args)) :
      Derives depth .primary
        (⟨.identifier name, place⟩ :: ⟨.symbol .leftParen, left⟩ :: tokens ++
          [⟨.symbol .rightParen, right⟩])
        (.call function args)
  | lastArgument {depth : Nat} {function : Builtin} {tokens : List (Token α)} {e : Expr α}
      (inner : Derives depth .conditional tokens e) :
      Derives depth (.arguments function) tokens (.call function [e])
  | argument {depth : Nat} {function : Builtin} {es tokens : List (Token α)} {e : Expr α}
      {args : List (Expr α)} (place : Nat) (first : Derives depth .conditional es e)
      (rest : Derives depth (.arguments function) tokens (.call function args)) :
      Derives depth (.arguments function) (es ++ ⟨.symbol .comma, place⟩ :: tokens)
        (.call function (e :: args))

namespace Derives

variable [Numeric α] {depth : Nat} {category : Category} {tokens : List (Token α)} {e : Expr α}

/-- What can be derived can be derived with one more left to open. -/
theorem succ (h : Derives depth category tokens e) : Derives (depth + 1) category tokens e := by
  induction h with
  | unconditional _ ih => exact .unconditional ih
  | conditional question colon _ _ _ ihc iht ihf => exact .conditional question colon ihc iht ihf
  | operand _ ih => exact .operand ih
  | joined place operator _ _ ihl ihr => exact .joined place operator ihl ihr
  | base _ ih => exact .base ih
  | raised place _ _ ihb ihe => exact .raised place ihb ihe
  | plain _ ih => exact .plain ih
  | applied op place _ ih => exact .applied op place ih
  | number value place => exact .number value place
  | identifier name place brackets => exact .identifier name place brackets
  | reference name place brackets => exact .reference name place brackets
  | parentheses left right _ ih => exact .parentheses left right ih
  | call place left right callable _ ih => exact .call place left right callable ih
  | lastArgument _ ih => exact .lastArgument ih
  | argument place _ _ ihe ih => exact .argument place ihe ih

/-- What can be derived can be derived with more left to open. -/
theorem mono {depth' : Nat} (h : Derives depth category tokens e) (hle : depth ≤ depth') :
    Derives depth' category tokens e := by
  induction hle with
  | refl => exact h
  | step _ ih => exact ih.succ

/-- Nothing is derived from no tokens. -/
theorem ne_nil (h : Derives depth category tokens e) : tokens ≠ [] := by
  induction h with
  | unconditional _ ih => exact ih
  | operand _ ih => exact ih
  | base _ ih => exact ih
  | plain _ ih => exact ih
  | lastArgument _ ih => exact ih
  | _ => simp

end Derives

/-! ## The end of the text -/

/-- Whether a token marks the end of the text. -/
def isEnd (token : Token α) : Bool :=
  match token.kind with
  | .endOfText => true
  | _ => false

@[simp] theorem isEnd_symbol (s : Symbol) (place : Nat) :
    isEnd (⟨.symbol s, place⟩ : Token α) = false := rfl

variable [Numeric α]

/-- An index is not the end of the text. -/
theorem SpellsIndex.isEnd_eq {token : Token α} {i : Index} (h : SpellsIndex token i) :
    isEnd token = false := by
  cases h <;> rfl

/-- The end of the text is not among indices. -/
theorem IndexList.no_end {tokens : List (Token α)} {indices : List Index}
    (h : IndexList tokens indices) : ∀ token ∈ tokens, isEnd token = false := by
  induction h with
  | last spelled => simp [spelled.isEnd_eq]
  | more spelled place rest ih => simpa [spelled.isEnd_eq] using ih

/-- The end of the text is not within brackets. -/
theorem Brackets.no_end {tokens : List (Token α)} {indices : List Index}
    (h : Brackets tokens indices) : ∀ token ∈ tokens, isEnd token = false := by
  cases h with
  | none => simp
  | some left right list =>
    have hlist := list.no_end
    grind [isEnd_symbol]

/-- The end of the text is not part of an expression. -/
theorem Derives.no_end {depth : Nat} {category : Category} {tokens : List (Token α)} {e : Expr α}
    (h : Derives depth category tokens e) : ∀ token ∈ tokens, isEnd token = false := by
  induction h with
  | number value place => simp [isEnd]
  | identifier name place brackets =>
    have hbrackets := brackets.no_end
    simpa [isEnd] using hbrackets
  | reference name place brackets =>
    have hbrackets := brackets.no_end
    simpa [isEnd] using hbrackets
  | call place left right callable list ih =>
    have hname (name : String) : isEnd (⟨.identifier name, place⟩ : Token α) = false := rfl
    grind [isEnd_symbol]
  | _ => grind [isEnd_symbol]

end Parser
end DiscreteChoice
