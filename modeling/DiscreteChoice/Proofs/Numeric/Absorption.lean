import DiscreteChoice.Proofs.Numeric.DoubleArithmetic

/-!
# Undefined operands

An undefined value absorbs whatever it is combined with: arithmetic on an undefined operand has an
undefined result, so that a single undefined entry makes a whole sum undefined.

Main results:

- Theorem `AbsorbingNumeric.isNaN_sum`: a sum is undefined as soon as one of its entries is.
- Instance `AbsorbingNumeric Float`: doubles absorb.
-/

namespace DiscreteChoice

open Numeric

/-- A number type in which arithmetic on an undefined operand has an undefined result. -/
class AbsorbingNumeric (α : Type) [Numeric α] : Prop where
  isNaN_neg {x : α} : isNaN x = true → isNaN (-x) = true
  isNaN_add {x y : α} : isNaN x = true ∨ isNaN y = true → isNaN (x + y) = true
  isNaN_sub {x y : α} : isNaN x = true ∨ isNaN y = true → isNaN (x - y) = true
  isNaN_mul {x y : α} : isNaN x = true ∨ isNaN y = true → isNaN (x * y) = true
  isNaN_div {x y : α} : isNaN x = true ∨ isNaN y = true → isNaN (x / y) = true

namespace AbsorbingNumeric

variable {α : Type} [Numeric α] [AbsorbingNumeric α]

/-- Adding to an undefined value leaves it undefined. -/
theorem isNaN_foldl_add {start : α} (h : isNaN start = true) (xs : List α) :
    isNaN (xs.foldl (· + ·) start) = true := by
  induction xs generalizing start with
  | nil => exact h
  | cons x xs ih => exact ih (isNaN_add (.inl h))

/-- A sum is undefined as soon as one of its entries is. -/
theorem isNaN_sum {xs : List α} {x : α} (hx : x ∈ xs) (h : isNaN x = true) :
    isNaN (Numeric.sum xs) = true := by
  rcases List.append_of_mem hx with ⟨front, back, rfl⟩
  rw [Numeric.sum, List.foldl_append, List.foldl_cons]
  exact isNaN_foldl_add (isNaN_add (.inr h)) back

end AbsorbingNumeric

/-! ## Doubles -/

namespace Double

open Float.Model UnpackedFloat

/-- The only undefined form. -/
theorem eq_notANumber {u : UnpackedFloat} (h : u.isNaN = true) : u = .notANumber := by
  cases u with
  | notANumber => rfl
  | _ => cases h

theorem isNaN_ofForm_notANumber : (ofForm .notANumber).isNaN = true := by
  decide

/-- An operation on forms that is undefined as soon as an operand is makes an undefined double. -/
theorem isNaN_of_form {op : UnpackedFloat → UnpackedFloat → UnpackedFloat}
    (hleft : ∀ v, op .notANumber v = .notANumber) (hright : ∀ u, op u .notANumber = .notANumber)
    {x y : Float} (h : x.isNaN = true ∨ y.isNaN = true) :
    (ofForm (op x.toModel.unpack y.toModel.unpack)).isNaN = true := by
  have hundefined : op x.toModel.unpack y.toModel.unpack = .notANumber := by
    rcases h with hx | hy
    · rw [eq_notANumber hx, hleft]
    · rw [eq_notANumber hy, hright]
  rw [hundefined]
  exact isNaN_ofForm_notANumber

instance (library : MathLibrary) : AbsorbingNumeric (With library) where
  isNaN_neg {x} (hx : Float.isNaN x = true) := by
    have hform : -x = ofForm (Float.toModel x).unpack.neg := rfl
    rw [hform, eq_notANumber hx]
    exact isNaN_ofForm_notANumber
  isNaN_add h := isNaN_of_form (fun _ => rfl) (fun u => by cases u <;> rfl) h
  isNaN_sub h := isNaN_of_form (fun _ => rfl) (fun u => by cases u <;> rfl) h
  isNaN_mul h := isNaN_of_form (fun _ => rfl) (fun u => by cases u <;> rfl) h
  isNaN_div h := isNaN_of_form (fun _ => rfl) (fun u => by cases u <;> rfl) h

end Double

instance : AbsorbingNumeric Float :=
  inferInstanceAs (AbsorbingNumeric (Double.With .system))

end DiscreteChoice
