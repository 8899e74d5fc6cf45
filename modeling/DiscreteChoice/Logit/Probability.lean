import DiscreteChoice.Logit.Flat
import DiscreteChoice.Logit.Nested

/-!
# Choice probabilities

The probabilities and the logsum of a decision. A tree with a single nest of scale one is treated as
the multinomial logit model that it stands for.

Main results:

- Theorem `probabilities_of_flat`: which model a flat tree stands for.
-/

namespace DiscreteChoice
namespace Logit

variable {α : Type} [Numeric α]

/-- The probabilities of all alternatives and the logsum. -/
def probabilities (tree : NestTree α) (v : UtilityVector α) :
    Except (ChoiceError α) (Array α × α) :=
  if tree.isFlat then do
    let p ← flatProbabilities v
    let logsum ← flatLogsum v
    return (p, logsum)
  else nestedProbabilities tree v

/-- The logsum alone. -/
def logsum (tree : NestTree α) (v : UtilityVector α) : Except (ChoiceError α) α :=
  if tree.isFlat then flatLogsum v else nestedLogsum tree v

/-- A flat tree stands for the multinomial logit model. -/
theorem probabilities_of_flat {tree : NestTree α} (flat : tree.isFlat = true)
    (v : UtilityVector α) :
    probabilities tree v = do
      let p ← flatProbabilities v
      let logsum ← flatLogsum v
      return (p, logsum) := by
  simp [probabilities, flat]

end Logit
end DiscreteChoice
