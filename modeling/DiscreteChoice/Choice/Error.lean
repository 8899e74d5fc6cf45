import DiscreteChoice.Identifier
import DiscreteChoice.Numeric.Basic

/-!
# Choice errors

Why a decision has no choice.
-/

namespace DiscreteChoice

/-- Why a decision has no choice. -/
inductive ChoiceError (α : Type) where
  | nothingAvailable (id : DecisionMakerId)
  | invalidProbability (position : Nat) (value : α)
  | zeroMass
  | lengthMismatch (expected found : Nat)
deriving Repr, DecidableEq

/-- The description of an error. -/
def ChoiceError.message {α : Type} [NumberText α] : ChoiceError α → String
  | nothingAvailable id => s!"decision maker {id.toNat} has no available alternatives"
  | invalidProbability position value =>
    s!"probability {NumberText.plain value} at position {position} is not a finite " ++
      "non-negative number"
  | zeroMass => "probabilities sum to zero, nothing to choose from"
  | lengthMismatch expected found => s!"expected {expected} probabilities, found {found}"

end DiscreteChoice
