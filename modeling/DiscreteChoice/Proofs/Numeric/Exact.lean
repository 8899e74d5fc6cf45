import Mathlib
import DiscreteChoice.Numeric.Basic

/-!
# Exact arithmetic

The real numbers as a number type. Results about the choice models themselves, and not about rounding,
read the program on them: every operation gives the exact result.

Main results:

- Theorem `Exact.isScale_iff`: the scales of nests are those in (0, 1].
- Theorem `Exact.toReal_sum`: a sum in order is the sum.
-/

namespace DiscreteChoice

open Numeric

/-- A real number that the program computes with. -/
@[ext]
structure Exact where
  toReal : ℝ

namespace Exact

/-- Every number is defined and finite, so that zero is as good as any other for the undefined one. -/
noncomputable instance : Numeric Exact where
  zero := ⟨0⟩
  one := ⟨1⟩
  add x y := ⟨x.toReal + y.toReal⟩
  sub x y := ⟨x.toReal - y.toReal⟩
  mul x y := ⟨x.toReal * y.toReal⟩
  div x y := ⟨x.toReal / y.toReal⟩
  neg x := ⟨-x.toReal⟩
  pow x y := ⟨x.toReal ^ y.toReal⟩
  exp x := ⟨Real.exp x.toReal⟩
  ln x := ⟨Real.log x.toReal⟩
  abs x := ⟨|x.toReal|⟩
  nan := ⟨0⟩
  isNaN _ := false
  isFinite _ := true
  eq x y := decide (x.toReal = y.toReal)
  lt x y := decide (x.toReal < y.toReal)
  le x y := decide (x.toReal ≤ y.toReal)
  ofDecimal digits exponent := ⟨digits * (10 : ℝ) ^ exponent⟩
  toNat? x := if (⌊x.toReal⌋₊ : ℝ) = x.toReal then some ⌊x.toReal⌋₊ else none

variable (x y : Exact)

@[simp] theorem toReal_zero : (0 : Exact).toReal = 0 := rfl

@[simp] theorem toReal_one : (1 : Exact).toReal = 1 := rfl

@[simp] theorem toReal_add : (x + y).toReal = x.toReal + y.toReal := rfl

@[simp] theorem toReal_sub : (x - y).toReal = x.toReal - y.toReal := rfl

@[simp] theorem toReal_mul : (x * y).toReal = x.toReal * y.toReal := rfl

@[simp] theorem toReal_div : (x / y).toReal = x.toReal / y.toReal := rfl

@[simp] theorem toReal_neg : (-x).toReal = -x.toReal := rfl

@[simp] theorem toReal_exp : (exp x).toReal = Real.exp x.toReal := rfl

@[simp] theorem toReal_ln : (ln x).toReal = Real.log x.toReal := rfl

@[simp] theorem isFinite_eq : isFinite x = true := rfl

@[simp] theorem eq_iff : eq x y = true ↔ x.toReal = y.toReal := decide_eq_true_iff

@[simp] theorem lt_iff : lt x y = true ↔ x.toReal < y.toReal := decide_eq_true_iff

@[simp] theorem le_iff : le x y = true ↔ x.toReal ≤ y.toReal := decide_eq_true_iff

/-- The scales of nests are positive and at most one. -/
theorem isScale_iff : (lt 0 x && le x 1) = true ↔ 0 < x.toReal ∧ x.toReal ≤ 1 := by
  simp

/-- One is a scale. -/
theorem isScale_one : (lt (0 : Exact) 1 && le (1 : Exact) 1) = true := by
  simp

/-- A sum in order adds the entries to what it starts from. -/
theorem toReal_foldl_add (xs : List Exact) (start : Exact) :
    (xs.foldl (· + ·) start).toReal = start.toReal + (xs.map toReal).sum := by
  induction xs generalizing start with
  | nil => simp
  | cons x xs ih => simp [ih, add_assoc]

/-- A sum in order is the sum. -/
@[simp] theorem toReal_sum (xs : List Exact) : (sum xs).toReal = (xs.map toReal).sum := by
  simp [sum, toReal_foldl_add]

end Exact
end DiscreteChoice
