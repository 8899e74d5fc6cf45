import DiscreteChoice.Choice.Mode
import DiscreteChoice.Choice.Selection
import DiscreteChoice.Draw.Stream
import DiscreteChoice.Logit.Probability
import DiscreteChoice.Utility.Evaluation

/-!
# Choosing

A model, the draws of a run and the decision makers that are traced: everything that a bound
decision needs to become an outcome. A traced decision maker is evaluated term by term, and the trace
goes along with the decision to its outcome.
-/

namespace DiscreteChoice

/-- What came of a decision. The fields that the mode does not ask for are empty. -/
structure Outcome (α : Type) where
  id : DecisionMakerId
  chosen : Option AlternativeId
  /-- The probabilities in model order. -/
  probabilities : Option (Array α)
  logsum : Option α
  trace : Option (UtilityTrace α)
deriving Repr

/-- A model with the draws of a run and the decision makers that are traced. -/
structure Chooser (α : Type) where
  model : Model α
  draws : DrawSource α
  traced : List DecisionMakerId

/-- The chooser of a model with the draws of a seed. -/
def Chooser.seeded (model : Model Float) (seed : UInt64) (traced : List DecisionMakerId) :
    Chooser Float :=
  ⟨model, DrawSource.seeded seed model.name, traced⟩

/-- A decision with its utilities, at least one of which is available. -/
structure EvaluatedDecision (α : Type) where
  chooser : Chooser α
  utilities : UtilityVector α
  trace : Option (UtilityTrace α)

variable {α : Type} [Numeric α]

namespace EvaluatedDecision

/-- The decision maker. -/
def id (decision : EvaluatedDecision α) : DecisionMakerId :=
  decision.utilities.id

/-- The probabilities in model order, and the logsum. -/
def probabilities (decision : EvaluatedDecision α) : Except (ChoiceError α) (Array α × α) :=
  Logit.probabilities decision.chooser.model.nests decision.utilities

/-- The logsum alone. -/
def logsum (decision : EvaluatedDecision α) : Except (ChoiceError α) α :=
  Logit.logsum decision.chooser.model.nests decision.utilities

/-- The id of the alternative at a position. -/
def alternativeAt (decision : EvaluatedDecision α) (probabilities position : Nat) :
    Except (ChoiceError α) AlternativeId :=
  match decision.chooser.model.ids[position]? with
  | some id => .ok id
  | none => .error (.lengthMismatch decision.chooser.model.size probabilities)

/-- The choice by the first draw of the decision maker. -/
def choose (decision : EvaluatedDecision α) (probabilities : Array α) :
    Logged (LogEntry α) (Except (ChoiceError α) AlternativeId) := do
  let selected ←
    Selection.select decision.id probabilities.toList (decision.chooser.draws decision.id 0)
  return selected.bind (decision.alternativeAt probabilities.size)

/-- The simulated choice. -/
def simulate (decision : EvaluatedDecision α) :
    Logged (LogEntry α) (Except (ChoiceError α) AlternativeId) :=
  match decision.probabilities with
  | .error e => pure (.error e)
  | .ok (probabilities, _) => decision.choose probabilities

/-- The choices by the first draws of the decision maker, as many as asked for. -/
def resample (decision : EvaluatedDecision α) (count : Nat) :
    Logged (LogEntry α) (Except (ChoiceError α) (List AlternativeId)) :=
  match decision.probabilities with
  | .error e => pure (.error e)
  | .ok (probabilities, _) => do
    let draws := (List.range count).map (decision.chooser.draws decision.id)
    let selected ← Selection.selectAll decision.id probabilities.toList draws
    return selected.bind fun positions =>
      positions.mapM (decision.alternativeAt probabilities.size)

/-- The outcome in a mode. For the logsum alone no probabilities are worked out. -/
def outcome (decision : EvaluatedDecision α) (mode : OutputMode) :
    Logged (LogEntry α) (Except (ChoiceError α) (Outcome α)) :=
  match mode with
  | .logsum =>
    pure (decision.logsum.map fun logsum =>
      ⟨decision.id, none, none, some logsum, decision.trace⟩)
  | _ =>
    match decision.probabilities with
    | .error e => pure (.error e)
    | .ok (probabilities, logsum) => do
      let result (chosen : Option AlternativeId) : Outcome α :=
        ⟨decision.id, chosen, if mode.hasProbabilities then some probabilities else none,
          if mode.hasLogsum then some logsum else none, decision.trace⟩
      if mode.hasChoice then
        let chosen ← decision.choose probabilities
        return chosen.map fun id => result (some id)
      else return .ok (result none)

end EvaluatedDecision

namespace Chooser

/-- Whether a decision maker is traced. -/
def isTraced (chooser : Chooser α) (id : DecisionMakerId) : Bool :=
  chooser.traced.contains id

/-- The utilities of a decision. Those of a traced decision maker come with their trace, which is
logged behind the warnings. -/
def measure (chooser : Chooser α) (context : Context α) :
    Logged (LogEntry α) (UtilityVector α × Option (UtilityTrace α)) := do
  if chooser.isTraced context.id then
    let (utilities, trace) ← chooser.model.tracedUtilities context
    Logged.write (.trace trace)
    return (utilities, some trace)
  else
    let utilities ← chooser.model.utilities context
    return (utilities, none)

/-- The decision with the given utilities and trace, an error when nothing is available. -/
def conclude (chooser : Chooser α) (context : Context α) (utilities : UtilityVector α)
    (trace : Option (UtilityTrace α)) : Except (ChoiceError α) (EvaluatedDecision α) :=
  if utilities.availableCount = 0 then .error (.nothingAvailable context.id)
  else .ok ⟨chooser, utilities, trace⟩

/-- Evaluates the utilities of a decision. -/
def evaluate (chooser : Chooser α) (context : Context α) :
    Logged (LogEntry α) (Except (ChoiceError α) (EvaluatedDecision α)) := do
  let (utilities, trace) ← chooser.measure context
  return chooser.conclude context utilities trace

/-- Evaluates a decision and works out what a mode asks for. -/
def run (chooser : Chooser α) (context : Context α) (mode : OutputMode) :
    Logged (LogEntry α) (Except (ChoiceError α) (Outcome α)) := do
  match ← chooser.evaluate context with
  | .error e => return .error e
  | .ok decision => decision.outcome mode

end Chooser
end DiscreteChoice
