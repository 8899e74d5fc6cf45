import DiscreteChoice.Proofs.Numeric.Laws

/-!
# Exact arithmetic with undefined and infinite values

The real numbers, the two infinities and an undefined value as a number type. It is that of the doubles
without the rounding and with one zero only: every operation gives the exact result where there is one,
and otherwise what it gives for doubles.

Main results:

- Instance `LawfulNumeric Extended`: the comparisons are those of the numbers.
- Theorem `Extended.isInvalid_iff`: what is not a number, or a negative one.
-/

namespace DiscreteChoice

open Numeric

/-- A real number, an infinite value, or an undefined one. -/
inductive Extended where
  | real (x : ℝ)
  | infinity (negative : Bool)
  | undefined

namespace Extended

/-- The number that a value stands for. -/
noncomputable def value : Extended → EReal
  | real x => x
  | infinity false => ⊤
  | infinity true => ⊥
  | undefined => 0

/-- The sum of two values. Infinities of both signs have none. -/
def add : Extended → Extended → Extended
  | real x, real y => real (x + y)
  | real _, infinity s => infinity s
  | infinity s, real _ => infinity s
  | infinity s, infinity t => if s = t then infinity s else undefined
  | _, _ => undefined

/-- A value with the other sign. -/
def neg : Extended → Extended
  | real x => real (-x)
  | infinity s => infinity !s
  | undefined => undefined

/-- The product of two values. Zero and an infinity have none. -/
noncomputable def mul : Extended → Extended → Extended
  | real x, real y => real (x * y)
  | real x, infinity s => if x = 0 then undefined else infinity (s ^^ decide (x < 0))
  | infinity s, real y => if y = 0 then undefined else infinity (s ^^ decide (y < 0))
  | infinity s, infinity t => infinity (s ^^ t)
  | _, _ => undefined

/-- The quotient of two values. Two zeros and two infinities have none, and what is divided by zero
otherwise is infinite. -/
noncomputable def div : Extended → Extended → Extended
  | real x, real y =>
    if y ≠ 0 then real (x / y) else if x = 0 then undefined else infinity (decide (x < 0))
  | real _, infinity _ => real 0
  | infinity s, real y => infinity (s ^^ decide (y < 0))
  | _, _ => undefined

/-- A power. That of a negative number has to be whole. -/
noncomputable def pow : Extended → Extended → Extended
  | real x, real y =>
    if x < 0 ∧ (⌊y⌋ : ℝ) ≠ y then undefined
    else if x = 0 ∧ y < 0 then infinity false
    else real (x ^ y)
  | real x, infinity s =>
    if |x| = 1 then real 1 else if s ^^ decide (|x| < 1) then real 0 else infinity false
  | infinity s, real y =>
    if y = 0 then real 1 else if y < 0 then real 0
    else infinity (s && decide ((⌊y⌋ : ℝ) = y ∧ Odd ⌊y⌋))
  | infinity _, infinity s => if s then real 0 else infinity false
  | real x, undefined => if x = 1 then real 1 else undefined
  | undefined, real y => if y = 0 then real 1 else undefined
  | _, _ => undefined

/-- The exponential of a value. -/
noncomputable def exp : Extended → Extended
  | real x => real (Real.exp x)
  | infinity s => if s then real 0 else infinity false
  | undefined => undefined

/-- The logarithm of a value that is not negative. -/
noncomputable def ln : Extended → Extended
  | real x => if 0 < x then real (Real.log x) else if x = 0 then infinity true else undefined
  | infinity s => if s then undefined else infinity false
  | undefined => undefined

/-- The magnitude of a value. -/
def abs : Extended → Extended
  | real x => real |x|
  | infinity _ => infinity false
  | undefined => undefined

/-- Whether a value is undefined. -/
def isUndefined : Extended → Bool
  | undefined => true
  | _ => false

noncomputable instance : Numeric Extended where
  zero := real 0
  one := real 1
  add := add
  sub x y := add x (neg y)
  mul := mul
  div := div
  neg := neg
  pow := pow
  exp := exp
  ln := ln
  abs := abs
  nan := undefined
  isNaN := isUndefined
  isFinite
    | real _ => true
    | _ => false
  eq x y := !x.isUndefined && !y.isUndefined && decide (x.value = y.value)
  lt x y := !x.isUndefined && !y.isUndefined && decide (x.value < y.value)
  le x y := !x.isUndefined && !y.isUndefined && decide (x.value ≤ y.value)
  ofDecimal digits exponent := real (digits * ((10 : ℕ) : ℝ) ^ exponent)
  toNat?
    | real x => if (⌊x⌋₊ : ℝ) = x then some ⌊x⌋₊ else none
    | _ => none

theorem zero_def : (0 : Extended) = real 0 := rfl

theorem one_def : (1 : Extended) = real 1 := rfl

theorem ofDecimal_def (digits : ℕ) (exponent : ℤ) :
    ofDecimal digits exponent = real (digits * ((10 : ℕ) : ℝ) ^ exponent) := rfl

@[simp] theorem real_add (x y : ℝ) : real x + real y = real (x + y) := rfl

@[simp] theorem real_sub (x y : ℝ) : real x - real y = real (x - y) :=
  congrArg real (sub_eq_add_neg x y).symm

@[simp] theorem real_div (x : ℝ) {y : ℝ} (hy : y ≠ 0) : real x / real y = real (x / y) :=
  if_pos hy

@[simp] theorem abs_real (x : ℝ) : Numeric.abs (real x) = real |x| := rfl

@[simp] theorem isFinite_real (x : ℝ) : isFinite (real x) = true := rfl

@[simp] theorem isFinite_infinity (s : Bool) : isFinite (infinity s) = false := rfl

@[simp] theorem isFinite_undefined : isFinite undefined = false := rfl

/-- Real numbers are compared as such. -/
@[simp] theorem lt_real (x y : ℝ) : lt (real x) (real y) = true ↔ x < y := by
  simp [lt, isUndefined, value]

/-- Real numbers are compared as such. -/
@[simp] theorem le_real (x y : ℝ) : le (real x) (real y) = true ↔ x ≤ y := by
  simp [le, isUndefined, value]

/-- The comparisons are those of the numbers. -/
noncomputable instance : LawfulNumeric Extended where
  value := value
  isNaN_nan := rfl
  isNaN_zero := rfl
  isNaN_one := rfl
  value_zero := EReal.coe_zero
  value_one := EReal.coe_one
  isFinite_iff x := by
    rcases x with x | (_ | _) | _ <;> simp [isFinite, isNaN, isUndefined, value]
  lt_iff x y := by
    simp [lt, isNaN, and_assoc]
  le_iff x y := by
    simp [le, isNaN, and_assoc]
  eq_iff x y := by
    simp [eq, isNaN, and_assoc]
  not_lt_zero_div x := by
    rw [zero_def]
    rcases x with x | s | _
    · by_cases hx : x = 0
      · subst hx
        have hundefined : real 0 / real 0 = undefined := by
          rw [show real 0 / real 0 = div (real 0) (real 0) from rfl, div]
          simp
        rw [hundefined]
        rfl
      · rw [real_div 0 hx, zero_div, ← Bool.not_eq_true, lt_real]
        exact lt_irrefl 0
    · have hzero : real 0 / infinity s = real 0 := rfl
      rw [hzero, ← Bool.not_eq_true, lt_real]
      exact lt_irrefl 0
    · rfl

/-- The value is undefined, infinite or negative. -/
inductive IsInvalid : Extended → Prop
  | undefined : IsInvalid undefined
  | infinity (negative : Bool) : IsInvalid (infinity negative)
  | negative {x : ℝ} (isNegative : x < 0) : IsInvalid (real x)

/-- What is not a number, or a negative one, is undefined, infinite or negative. -/
theorem isInvalid_iff {p : Extended} : p.IsInvalid ↔ (!isFinite p || lt p 0) = true := by
  constructor
  · intro h
    cases h with
    | undefined => rfl
    | infinity negative => rfl
    | negative isNegative => simpa [zero_def] using isNegative
  · intro h
    cases p with
    | real x => exact .negative (by simpa [zero_def] using h)
    | infinity negative => exact .infinity negative
    | undefined => exact .undefined

/-- A value that is not undefined, infinite or negative is a real number. -/
theorem exists_real_of_not_isInvalid {p : Extended} (h : ¬ p.IsInvalid) :
    ∃ x : ℝ, 0 ≤ x ∧ p = real x := by
  cases p with
  | real x => exact ⟨x, not_lt.mp fun hx => h (.negative hx), rfl⟩
  | infinity negative => exact absurd (.infinity negative) h
  | undefined => exact absurd .undefined h

end Extended
end DiscreteChoice
