/-!
# Output modes

What is worked out for each decision.

Main results:

- Theorem `OutputMode.ofName?_name`: a mode is found under its name.
-/

namespace DiscreteChoice

/-- What is worked out for each decision. -/
inductive OutputMode where
  | choice
  | probabilities
  | logsum
  | all
deriving Repr, DecidableEq

namespace OutputMode

/-- The name of a mode. -/
def name : OutputMode → String
  | choice => "choice"
  | probabilities => "probabilities"
  | logsum => "logsum"
  | all => "all"

/-- The mode of a name. -/
def ofName? (name : String) : Option OutputMode :=
  [choice, probabilities, logsum, all].find? (·.name == name)

/-- A mode is found under its name. -/
@[simp] theorem ofName?_name (mode : OutputMode) : ofName? mode.name = some mode := by
  cases mode <;> decide

/-- Whether a choice is drawn. -/
def hasChoice : OutputMode → Bool
  | choice | all => true
  | _ => false

/-- Whether the probabilities are given. -/
def hasProbabilities : OutputMode → Bool
  | probabilities | all => true
  | _ => false

/-- Whether the logsum is given. -/
def hasLogsum : OutputMode → Bool
  | logsum | all => true
  | _ => false

end OutputMode
end DiscreteChoice
