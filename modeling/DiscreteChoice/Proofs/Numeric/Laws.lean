import Mathlib
import DiscreteChoice.Numeric.Basic

/-!
# Laws of number types

What the results about the program assume of the numbers that it runs on: every defined value stands
for a number, possibly an infinite one, and the comparisons are those of the numbers. Two values may
stand for the same number, as the two zeros of the doubles do.

Main results:

- Theorem `LawfulNumeric.lt_zero_of_not_le`: a finite value that is not at most zero is positive.
- Theorem `LawfulNumeric.one_ne_nan`: the truth values differ from the undefined value.
-/

namespace DiscreteChoice

open Numeric

/-- A number type whose comparisons are those of the numbers that its defined values stand for. -/
class LawfulNumeric (α : Type) [Numeric α] where
  /-- The number that a defined value stands for. -/
  value : α → EReal
  isNaN_nan : isNaN (nan : α) = true
  isNaN_zero : isNaN (0 : α) = false
  isNaN_one : isNaN (1 : α) = false
  value_zero : value 0 = 0
  value_one : value 1 = 1
  isFinite_iff (x : α) : isFinite x = true ↔ isNaN x = false ∧ value x ≠ ⊤ ∧ value x ≠ ⊥
  lt_iff (x y : α) : lt x y = true ↔ isNaN x = false ∧ isNaN y = false ∧ value x < value y
  le_iff (x y : α) : le x y = true ↔ isNaN x = false ∧ isNaN y = false ∧ value x ≤ value y
  eq_iff (x y : α) : eq x y = true ↔ isNaN x = false ∧ isNaN y = false ∧ value x = value y
  /-- Parts of nothing are nothing, or undefined. -/
  not_lt_zero_div (x : α) : lt 0 (0 / x) = false

namespace LawfulNumeric

attribute [simp] isNaN_nan isNaN_zero isNaN_one value_zero value_one not_lt_zero_div

variable {α : Type} [Numeric α] [LawfulNumeric α] {x y : α}

theorem isNaN_of_isFinite (h : isFinite x = true) : isNaN x = false :=
  ((isFinite_iff x).mp h).1

/-- One is neither undefined nor infinite. -/
theorem isFinite_one : isFinite (1 : α) = true := by
  rw [isFinite_iff, value_one]
  exact ⟨isNaN_one, EReal.coe_ne_top 1, EReal.coe_ne_bot 1⟩

/-- An undefined value equals nothing. -/
theorem isNaN_of_eq (h : eq x y = true) : isNaN x = false :=
  ((eq_iff x y).mp h).1

/-- Zero is not positive. -/
@[simp] theorem not_lt_zero_zero : lt (0 : α) 0 = false := by
  rw [Bool.eq_false_iff, ne_eq, lt_iff]
  rintro ⟨-, -, h⟩
  exact lt_irrefl _ h

/-- Zero is not an undefined value. -/
theorem zero_ne_nan : (0 : α) ≠ nan := by
  intro h
  have hzero := isNaN_zero (α := α)
  rw [h, isNaN_nan] at hzero
  cases hzero

/-- One is not an undefined value. -/
theorem one_ne_nan : (1 : α) ≠ nan := by
  intro h
  have hone := isNaN_one (α := α)
  rw [h, isNaN_nan] at hone
  cases hone

/-- A finite value that is not at most zero is positive. -/
theorem lt_zero_of_not_le (hfinite : isFinite x = true) (h : le x 0 = false) :
    lt 0 x = true := by
  have hnan := isNaN_of_isFinite hfinite
  rw [lt_iff]
  refine ⟨isNaN_zero, hnan, lt_of_not_ge fun hle => ?_⟩
  have : le x 0 = true := (le_iff x 0).mpr ⟨hnan, isNaN_zero, hle⟩
  simp [h] at this

/-- One is a scale of a nest. -/
theorem isScale_one : (lt (0 : α) 1 && le (1 : α) 1) = true := by
  simp only [Bool.and_eq_true, lt_iff, le_iff]
  simp

end LawfulNumeric
end DiscreteChoice
