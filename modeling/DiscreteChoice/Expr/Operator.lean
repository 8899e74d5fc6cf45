import DiscreteChoice.Numeric.Basic

/-!
# Operators

The unary and binary operators of expressions. Comparisons and logical operators answer one or zero,
and an undefined value when an operand is undefined.

Main results:

- Theorem `BinaryOp.apply_undefined`: outside arithmetic, an undefined operand makes the result
  undefined.
-/

namespace DiscreteChoice

/-- The operators with one operand. -/
inductive UnaryOp where
  | not
  | negate
deriving Repr, DecidableEq

/-- The operators with two operands. -/
inductive BinaryOp where
  | add
  | subtract
  | multiply
  | divide
  | power
  | equal
  | notEqual
  | less
  | lessEqual
  | greater
  | greaterEqual
  | and
  | or
deriving Repr, DecidableEq

open Numeric

variable {α : Type} [Numeric α]

namespace UnaryOp

/-- The value of an operator on its operand. -/
def apply : UnaryOp → α → α
  | negate, x => -x
  | not, x => if isNaN x then nan else ofBool (eq x 0)

end UnaryOp

namespace BinaryOp

/-- Whether an operator is one of arithmetic, whose result is a number rather than a truth value. -/
def isArithmetic : BinaryOp → Bool
  | add | subtract | multiply | divide | power => true
  | _ => false

/-- The value of an operator on its operands, both of them evaluated. -/
def apply (op : BinaryOp) (x y : α) : α :=
  match op with
  | add => x + y
  | subtract => x - y
  | multiply => x * y
  | divide => x / y
  | power => pow x y
  | equal => defined (eq x y)
  | notEqual => defined !(eq x y)
  | less => defined (lt x y)
  | lessEqual => defined (le x y)
  | greater => defined (lt y x)
  | greaterEqual => defined (le y x)
  | and => defined (isTrue x && isTrue y)
  | or => defined (isTrue x || isTrue y)
where
  /-- A truth value, when both operands are defined. -/
  defined (b : Bool) : α :=
    if isNaN x || isNaN y then nan else ofBool b

/-- Outside arithmetic, an undefined operand makes the result undefined. -/
theorem apply_undefined {op : BinaryOp} (h : op.isArithmetic = false) {x y : α}
    (hxy : (isNaN x || isNaN y) = true) : op.apply x y = nan := by
  cases op <;> simp_all [isArithmetic, apply, apply.defined]

end BinaryOp
end DiscreteChoice
