import DiscreteChoice.Batch
import DiscreteChoice.Format.Csv

/-!
# Result tables

The outcomes and the failures of a population as tables. An outcome is a row with the decision maker
and the columns that the mode asks for; a value that it does not have is an empty cell.

Main results:

- Theorem `length_header`: how many columns a mode has.
-/

namespace DiscreteChoice
namespace ResultTable

variable {α : Type}

/-- The header of the columns that a mode asks for. -/
def header (model : Model α) (mode : OutputMode) : List String :=
  ["decision_maker_id"] ++
    (if mode.hasChoice then ["chosen"] else []) ++
    (if mode.hasLogsum then ["logsum"] else []) ++
    (if mode.hasProbabilities then
      model.alternatives.toList.map fun alternative => "p_" ++ alternative.name
    else [])

/-- How many columns a mode has. -/
theorem length_header (model : Model α) (mode : OutputMode) :
    (header model mode).length =
      1 + (if mode.hasChoice then 1 else 0) + (if mode.hasLogsum then 1 else 0) +
        (if mode.hasProbabilities then model.size else 0) := by
  simp only [header, Model.size, List.length_append, List.length_cons, List.length_nil]
  split <;> split <;> split <;> simp

variable [NumberText α]

/-- The cells of the probabilities, empty when there are none. -/
def probabilityCells (model : Model α) (outcome : Outcome α) : List String :=
  match outcome.probabilities with
  | some probabilities => probabilities.toList.map NumberText.plain
  | none => List.replicate model.size ""

/-- The row of an outcome. -/
def row (model : Model α) (mode : OutputMode) (outcome : Outcome α) : List String :=
  [toString outcome.id.toNat] ++
    (if mode.hasChoice then [(outcome.chosen.map fun id => toString id.toNat).getD ""] else []) ++
    (if mode.hasLogsum then [(outcome.logsum.map NumberText.plain).getD ""] else []) ++
    (if mode.hasProbabilities then probabilityCells model outcome else [])

/-- The table of outcomes. -/
def write (model : Model α) (mode : OutputMode) (outcomes : List (Outcome α)) :
    Except Csv.Fault String :=
  Csv.write (header model mode :: outcomes.map (row model mode))

/-- The table of failures, which has no header when there are none. -/
def writeFailures (failures : List Failure) : Except Csv.Fault String :=
  match failures with
  | [] => Csv.write []
  | _ => Csv.write (["decision_maker_id", "model", "message"] ::
      failures.map fun failure => [toString failure.id.toNat, failure.model, failure.message])

end ResultTable
end DiscreteChoice
