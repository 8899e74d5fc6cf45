import DiscreteChoice.Numeric.Basic

/-!
# Functions

The functions that an expression can call.

Main results:

- Theorem `Builtin.ofName?_name`: a function is found under its name.
- Theorem `Builtin.accepts_iff`: the argument counts that a function takes.
-/

namespace DiscreteChoice

/-- The functions that an expression can call. -/
inductive Builtin where
  | ln
  | exp
  | max
  | min
  | abs
  /-- The logarithm of the sum of the exponentials of the arguments. -/
  | logsum
deriving Repr, DecidableEq

namespace Builtin

/-- The name of a function in an expression. -/
def name : Builtin → String
  | ln => "ln"
  | exp => "exp"
  | max => "max"
  | min => "min"
  | abs => "abs"
  | logsum => "logsum"

/-- All functions. -/
def all : List Builtin :=
  [ln, exp, max, min, abs, logsum]

/-- The function of a name. -/
def ofName? (name : String) : Option Builtin :=
  all.find? (·.name == name)

/-- A function is found under its name. -/
@[simp] theorem ofName?_name (f : Builtin) : ofName? f.name = some f := by
  cases f <;> decide

/-- Whether a function takes exactly one argument. -/
def isUnary : Builtin → Bool
  | ln | exp | abs => true
  | _ => false

/-- Whether a function takes the given number of arguments. -/
def accepts (f : Builtin) (count : Nat) : Bool :=
  if f.isUnary then count == 1 else count != 0

/-- A function of one argument takes one, the others take one or more. -/
theorem accepts_iff (f : Builtin) (count : Nat) :
    f.accepts count = true ↔ (f.isUnary = true ∧ count = 1) ∨ (f.isUnary = false ∧ 0 < count) := by
  cases h : f.isUnary <;> simp [accepts, h, Nat.pos_iff_ne_zero]

/-- What is wrong with a number of arguments that a function does not take. -/
def arityText (f : Builtin) (count : Nat) : String :=
  if f.isUnary then s!"function '{f.name}' takes exactly 1 argument, found {count}"
  else s!"function '{f.name}' takes at least 1 argument, found {count}"

open Numeric

variable {α : Type} [Numeric α]

/-- The logarithm of the sum of the exponentials of the entries of a list, shifted by a given value
so that large entries do not overflow. -/
def shiftedLogSum (shift : α) (xs : List α) : α :=
  shift + Numeric.ln (Numeric.sum (xs.map fun x => Numeric.exp (x - shift)))

/-- The value of a function on its arguments. It is undefined on no arguments and on an undefined
one. -/
def apply (f : Builtin) (args : List α) : α :=
  match args with
  | [] => nan
  | first :: others =>
    if args.any isNaN then nan
    else
      match f with
      | ln => Numeric.ln first
      | exp => Numeric.exp first
      | abs => Numeric.abs first
      | max => others.foldl maximum first
      | min => others.foldl minimum first
      | logsum =>
        let largest := others.foldl maximum first
        if isFinite largest then shiftedLogSum largest args else largest

end Builtin
end DiscreteChoice
