import DiscreteChoice.Choice.Error
import DiscreteChoice.LogEntry
import DiscreteChoice.Logged

/-!
# Selection

The choice of a position by a draw: the first positive probability at which the sum of the
probabilities so far reaches the draw. Probabilities that do not sum to one are scaled.

Main results:

- Theorem `select_of_error`: an error does not depend on the draw.
-/

namespace DiscreteChoice
namespace Selection

open Numeric

variable {α : Type} [Numeric α]

/-- How far a sum of probabilities may be from one without being scaled. -/
def tolerance : α :=
  ofDecimal 1 (-9)

/-- Adds probabilities to a total, the first of which has the given position. Refuses one that is
negative or not finite. -/
def totalFrom (position : Nat) (total : α) : List α → Except (ChoiceError α) α
  | [] => .ok total
  | p :: ps =>
    if !isFinite p || lt p 0 then .error (.invalidProbability position p)
    else totalFrom (position + 1) (total + p) ps

/-- The sum of probabilities, which has to be positive. -/
def mass (probabilities : List α) : Except (ChoiceError α) α := do
  let total ← totalFrom 0 0 probabilities
  if le total 0 then .error .zeroMass else return total

/-- Whether probabilities of the given sum have to be scaled. -/
def needsScaling (total : α) : Bool :=
  lt tolerance (abs (total - 1))

/-- The first position at which the sum of the scaled positive probabilities reaches the draw, or
else the last positive one. The state is the position, the sum so far and the last positive position
so far. -/
def firstReaching (scale draw : α) (position : Nat) (sum : α) (last : Option Nat) :
    List α → Option Nat
  | [] => last
  | p :: ps =>
    if le p 0 then firstReaching scale draw (position + 1) sum last ps
    else
      let sum := sum + p / scale
      if le draw sum then some position
      else firstReaching scale draw (position + 1) sum (some position) ps

/-- Selects a position by a draw. That probabilities had to be scaled is logged. -/
def select (id : DecisionMakerId) (probabilities : List α) (draw : α) :
    Logged (LogEntry α) (Except (ChoiceError α) Nat) :=
  match mass probabilities with
  | .error e => pure (.error e)
  | .ok total =>
    let scale := if needsScaling total then total else 1
    let log := if needsScaling total then [.warning (.renormalizing id total)] else []
    match firstReaching scale draw 0 0 none probabilities with
    | some position => ⟨.ok position, log⟩
    | none => ⟨.error .zeroMass, log⟩

/-- An error does not depend on the draw. -/
theorem select_of_error {probabilities : List α} {e : ChoiceError α}
    (h : mass probabilities = .error e) (id : DecisionMakerId) (draw : α) :
    select id probabilities draw = pure (.error e) := by
  simp [select, h]

/-- Selects a position for every draw of a list, up to the first error. -/
def selectAll (id : DecisionMakerId) (probabilities : List α) :
    List α → Logged (LogEntry α) (Except (ChoiceError α) (List Nat))
  | [] => pure (.ok [])
  | draw :: draws => do
    match ← select id probabilities draw with
    | .error e => return .error e
    | .ok position =>
      match ← selectAll id probabilities draws with
      | .error e => return .error e
      | .ok positions => return .ok (position :: positions)

end Selection
end DiscreteChoice
