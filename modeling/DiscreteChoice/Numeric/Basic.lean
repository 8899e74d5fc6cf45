/-!
# Number types

Utilities, probabilities and expressions are computed over any type that has the operations and the
comparisons of a double. The program runs them on doubles; the theory reads the same definitions on
real numbers, or on a type with just the laws that a result needs.

Main results:

- Theorems `maximum_of_lt` and `maximum_of_not_lt`: which operand the maximum is.
- Theorem `sum_append_singleton`: sums are taken in order.
-/

namespace DiscreteChoice

/-- The operations and comparisons of a double. The comparisons are those of the numbers: an
undefined value compares as false with everything. -/
class Numeric (α : Type) extends Zero α, One α, Add α, Sub α, Mul α, Div α, Neg α where
  pow : α → α → α
  exp : α → α
  ln : α → α
  abs : α → α
  /-- An undefined value. -/
  nan : α
  isNaN : α → Bool
  /-- Whether a value is neither undefined nor infinite. -/
  isFinite : α → Bool
  eq : α → α → Bool
  lt : α → α → Bool
  le : α → α → Bool
  /-- The value nearest to `digits * 10 ^ exponent`. -/
  ofDecimal : Nat → Int → α
  /-- The natural number that a value is, if it is one. -/
  toNat? : α → Option Nat

/-- The texts of a number. -/
class NumberText (α : Type) where
  /-- The shortest digits that read back, without an exponent. -/
  plain : α → String
  /-- The shortest digits that read back, with the mark of a fraction, or with an exponent when the
  number is very small or very large. -/
  general : α → String

namespace Numeric

variable {α : Type} [Numeric α]

/-- The number that stands for a truth value. -/
def ofBool (b : Bool) : α :=
  if b then 1 else 0

@[simp] theorem ofBool_true : (ofBool true : α) = 1 := rfl

@[simp] theorem ofBool_false : (ofBool false : α) = 0 := rfl

/-- Whether a value differs from zero, as an undefined value does. -/
def isTrue (x : α) : Bool :=
  !eq x 0

/-- The larger of two values, the first of two equal ones. An undefined value gives way to the other
one. -/
def maximum (x y : α) : α :=
  if lt x y then y else if isNaN x then y else x

/-- The smaller of two values, the first of two equal ones. An undefined value gives way to the other
one. -/
def minimum (x y : α) : α :=
  if lt y x then y else if isNaN x then y else x

theorem maximum_of_lt {x y : α} (h : lt x y = true) : maximum x y = y := by
  simp [maximum, h]

theorem maximum_of_not_lt {x y : α} (h : lt x y = false) (hx : isNaN x = false) :
    maximum x y = x := by
  simp [maximum, h, hx]

/-- The maximum of a list, if it has an entry. -/
def maximum? : List α → Option α
  | [] => none
  | x :: xs => some (xs.foldl maximum x)

/-- The sum of a list, taken in order. The empty sum is negative zero, which changes no summand. -/
def sum (xs : List α) : α :=
  xs.foldl (· + ·) (-0)

@[simp] theorem sum_nil : sum ([] : List α) = -0 := rfl

/-- Sums are taken in order. -/
@[simp] theorem sum_append_singleton (xs : List α) (x : α) : sum (xs ++ [x]) = sum xs + x := by
  simp [sum]

end Numeric
end DiscreteChoice
