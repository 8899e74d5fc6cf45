import DiscreteChoice.Choice.Error
import DiscreteChoice.Logit.LogSumExp
import DiscreteChoice.Utility.Vector

/-!
# The multinomial logit model

Probabilities in proportion to the exponentials of the utilities of the available alternatives.

Main results:

- Theorem `size_flatProbabilities`: there is one probability per alternative.
-/

namespace DiscreteChoice
namespace Logit

open Numeric

variable {α : Type} [Numeric α]

/-- The weight of an entry relative to the largest utility, zero for an unavailable alternative. -/
def weight (largest : α) : Option α → α
  | some u => exp (u - largest)
  | none => 0

/-- The probabilities of all alternatives, zero for the unavailable ones. -/
def flatProbabilities (v : UtilityVector α) : Except (ChoiceError α) (Array α) :=
  match maximum? v.availableUtilities with
  | none => .error (.nothingAvailable v.id)
  | some largest =>
    if isFinite largest then
      let total := v.availableUtilities.foldl (fun total u => total + exp (u - largest)) 0
      .ok (v.entries.map fun entry => weight largest entry / total)
    else .error (.nothingAvailable v.id)

/-- The logarithm of the sum of the exponentials of the available utilities. -/
def flatLogsum (v : UtilityVector α) : Except (ChoiceError α) α :=
  match logSumExp? v.availableUtilities with
  | some logsum => .ok logsum
  | none => .error (.nothingAvailable v.id)

/-- There is one probability per alternative. -/
theorem size_flatProbabilities {v : UtilityVector α} {p : Array α}
    (h : flatProbabilities v = .ok p) : p.size = v.size := by
  unfold flatProbabilities at h
  split at h
  · cases h
  · split at h
    · cases h; simp [UtilityVector.size]
    · cases h

end Logit
end DiscreteChoice
