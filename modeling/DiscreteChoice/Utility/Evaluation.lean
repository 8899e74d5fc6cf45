import DiscreteChoice.LogEntry
import DiscreteChoice.Logged
import DiscreteChoice.Model.Basic
import DiscreteChoice.Utility.Vector

/-!
# Evaluating utilities

The availability and the utility of every alternative of a decision. A missing variable makes the
value of its expression undefined, and an alternative without a defined availability or without a
finite utility is left out; what is left out for such a reason is logged. For a trace the terms are
evaluated one by one and kept, and otherwise they are only added up.

Main results:

- Theorem `Formula.value_lenient`: a missing variable makes the value undefined.
-/

namespace DiscreteChoice

variable {α : Type} [Numeric α]

/-- The value of a formula, undefined when a variable is missing, which is logged. -/
def Formula.lenient (formula : Formula α) (context : Context α) (position : Nat) :
    Logged (LogEntry α) α :=
  match formula.evaluate context position with
  | .ok value => pure value
  | .error missing => do
    Logged.write (.warning (.missingVariable missing.id missing.name formula.source))
    return Numeric.nan

/-- A missing variable makes the value undefined. -/
theorem Formula.value_lenient (formula : Formula α) (context : Context α) (position : Nat) :
    (formula.lenient context position).value =
      match formula.evaluate context position with
      | .ok value => value
      | .error _ => Numeric.nan := by
  unfold Formula.lenient
  split <;> rfl

namespace Alternative

/-- Whether an alternative can be chosen: it has no availability, or its availability is a number
other than zero. -/
def isOffered (alternative : Alternative α) (context : Context α) (position : Nat) :
    Logged (LogEntry α) Bool :=
  match alternative.availability with
  | none => pure true
  | some formula => do
    let value ← formula.lenient context position
    if Numeric.isNaN value then
      Logged.write (.warning (.undefinedAvailability alternative.name context.id))
      return false
    else return Numeric.isTrue value

/-- What one term contributes to a utility. -/
def contribution (term : UtilityTerm α) (context : Context α) (position : Nat) :
    Logged (LogEntry α) (Contribution α) := do
  let value ← term.formula.lenient context position
  return ⟨term.description, term.formula.source, value, term.coefficient, term.coefficient * value⟩

/-- What the terms of an alternative contribute to its utility, in order. -/
def contributions (alternative : Alternative α) (context : Context α) (position : Nat) :
    Logged (LogEntry α) (List (Contribution α)) :=
  Logged.forAll (contribution · context position) alternative.terms

/-- The utility of an alternative: the sum of the values of its terms, each times its coefficient, in
order. -/
def utility (alternative : Alternative α) (context : Context α) (position : Nat) :
    Logged (LogEntry α) α := do
  let amounts ← Logged.forAll
    (fun term => return term.coefficient * (← term.formula.lenient context position))
    alternative.terms
  return Numeric.sum amounts

/-- The utility of an alternative, if it is available. The terms of an alternative that cannot be
chosen are not evaluated. -/
def appraise (alternative : Alternative α) (context : Context α) (position : Nat) :
    Logged (LogEntry α) (Option α) := do
  if ← alternative.isOffered context position then
    let utility ← alternative.utility context position
    if Numeric.isFinite utility then
      return some utility
    else
      Logged.write (.warning (.excludedUtility alternative.name utility context.id))
      return none
  else return none

/-- Finds out whether an alternative is available, what its utility is and what its terms
contribute to it. The terms of an alternative that cannot be chosen are not evaluated. -/
def assess (alternative : Alternative α) (context : Context α) (position : Nat) :
    Logged (LogEntry α) (Assessment α) := do
  if ← alternative.isOffered context position then
    let terms ← alternative.contributions context position
    let utility := Numeric.sum (terms.map (·.amount))
    let isFinite := Numeric.isFinite utility
    unless isFinite do
      Logged.write (.warning (.excludedUtility alternative.name utility context.id))
    return ⟨alternative.id, alternative.name, isFinite, (some utility).filter Numeric.isFinite, terms⟩
  else return ⟨alternative.id, alternative.name, false, none, []⟩

end Alternative

namespace Model

/-- The utilities of all alternatives of a model. -/
def utilities (model : Model α) (context : Context α) :
    Logged (LogEntry α) (UtilityVector α) := do
  let utilities ← Logged.forAll (fun entry => entry.1.appraise context entry.2)
    model.alternatives.toList.zipIdx
  return ⟨context.id, utilities.toArray⟩

/-- Assesses all alternatives of a model in order. -/
def assess (model : Model α) (context : Context α) : Logged (LogEntry α) (List (Assessment α)) :=
  Logged.forAll (fun entry => entry.1.assess context entry.2) model.alternatives.toList.zipIdx

/-- The utilities of all alternatives of a model, and how they came about. -/
def tracedUtilities (model : Model α) (context : Context α) :
    Logged (LogEntry α) (UtilityVector α × UtilityTrace α) := do
  let assessments ← model.assess context
  return (⟨context.id, (assessments.map (·.utility)).toArray⟩,
    ⟨context.id, model.name, assessments⟩)

end Model
end DiscreteChoice
