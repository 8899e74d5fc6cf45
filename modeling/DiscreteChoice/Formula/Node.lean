import DiscreteChoice.Expr.Operator
import DiscreteChoice.Expr.Builtin
import DiscreteChoice.Formula.Reference

/-!
# Bound expressions

Expressions whose variables are bound to declarations: how they are evaluated, and how the parts
without a variable are replaced by their values.

The value of a variable comes from a reader, which may fail. Evaluation goes from left to right and
stops at the first failure; the logical operators and the conditional leave out operands that do not
matter.
-/

namespace DiscreteChoice

open Numeric

/-- The result of a logical operator that the first operand settles. -/
def BinaryOp.settled? {α : Type} [Numeric α] (op : BinaryOp) (x : α) : Option α :=
  match op with
  | .and => if eq x 0 then some 0 else none
  | .or => if isNaN x then some nan else if isTrue x then some 1 else none
  | _ => none

/-- An expression whose variables are bound. -/
inductive Node (α : Type) where
  | constant (value : α)
  | read (reference : Reference)
  | unary (op : UnaryOp) (operand : Node α)
  | binary (op : BinaryOp) (lhs rhs : Node α)
  | conditional (condition ifTrue ifFalse : Node α)
  | call (function : Builtin) (args : List (Node α))
deriving Repr

namespace Node

variable {α ε : Type}

/-- The value of a node that is a constant. -/
def value? : Node α → Option α
  | constant value => some value
  | _ => none

/-- The values of a list of nodes that are all constants. -/
def values? : List (Node α) → Option (List α)
  | [] => some []
  | node :: nodes => do return (← node.value?) :: (← values? nodes)

/-! ## Variables -/

mutual

/-- The variables of a node from left to right. -/
def references : Node α → List Reference
  | constant _ => []
  | read reference => [reference]
  | unary _ operand => operand.references
  | binary _ lhs rhs => lhs.references ++ rhs.references
  | conditional c t f => c.references ++ t.references ++ f.references
  | call _ args => referencesOfAll args

/-- The variables of a list of nodes from left to right. -/
def referencesOfAll : List (Node α) → List Reference
  | [] => []
  | node :: nodes => node.references ++ referencesOfAll nodes

end

variable [Numeric α]

/-! ## Evaluation -/

mutual

/-- The value of a node, where the given reader gives the variables their values. -/
def evaluate (lookup : Reference → Except ε α) : Node α → Except ε α
  | constant value => .ok value
  | read reference => lookup reference
  | unary op operand => do
    let x ← operand.evaluate lookup
    return op.apply x
  | binary op lhs rhs => do
    let x ← lhs.evaluate lookup
    match op.settled? x with
    | some value => return value
    | none =>
      let y ← rhs.evaluate lookup
      return op.apply x y
  | conditional c t f => do
    let x ← c.evaluate lookup
    if isNaN x then return nan
    else if isTrue x then t.evaluate lookup
    else f.evaluate lookup
  | call function args => do
    let values ← evaluateAll lookup args
    return function.apply values

/-- The values of a list of nodes. -/
def evaluateAll (lookup : Reference → Except ε α) : List (Node α) → Except ε (List α)
  | [] => .ok []
  | node :: nodes => do
    let value ← node.evaluate lookup
    let values ← evaluateAll lookup nodes
    return value :: values

end

/-! ## Folding -/

mutual

/-- Replaces the parts without a variable by their values. -/
def fold : Node α → Node α
  | constant value => constant value
  | read reference => read reference
  | unary op operand =>
    match operand.fold with
    | constant x => constant (op.apply x)
    | operand => unary op operand
  | binary op lhs rhs =>
    match lhs.fold, rhs.fold with
    | constant x, constant y => constant (op.apply x y)
    | lhs, rhs => binary op lhs rhs
  | conditional c t f =>
    match c.fold with
    | constant x =>
      if isNaN x then constant nan else if isTrue x then t.fold else f.fold
    | c => conditional c t.fold f.fold
  | call function args =>
    let args := foldAll args
    match values? args with
    | some values => constant (function.apply values)
    | none => call function args

/-- Replaces the parts without a variable in every node of a list. -/
def foldAll : List (Node α) → List (Node α)
  | [] => []
  | node :: nodes => node.fold :: foldAll nodes

end

end Node
end DiscreteChoice
