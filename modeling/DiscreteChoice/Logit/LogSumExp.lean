import DiscreteChoice.Numeric.Basic

/-!
# Log-sum-exp

The logarithm of a sum of exponentials, shifted by the largest entry so that large entries do not
overflow.
-/

namespace DiscreteChoice
namespace Logit

open Numeric

variable {α : Type} [Numeric α]

/-- The logarithm of the sum of the exponentials of a list. There is none for an empty list, nor when
the largest entry is not finite. -/
def logSumExp? (xs : List α) : Option α :=
  match maximum? xs with
  | none => none
  | some largest =>
    if isFinite largest then
      some (largest + ln (sum (xs.map fun x => exp (x - largest))))
    else none

@[simp] theorem logSumExp?_nil : logSumExp? ([] : List α) = none := rfl

end Logit
end DiscreteChoice
