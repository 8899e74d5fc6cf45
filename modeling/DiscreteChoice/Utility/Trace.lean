import DiscreteChoice.Identifier
import DiscreteChoice.Numeric.Basic

/-!
# Utility traces

How the utilities of a decision came about: every term with its value and its contribution.
-/

namespace DiscreteChoice

/-- The part of a utility that one term makes up. -/
structure Contribution (α : Type) where
  description : Option String
  expression : String
  value : α
  coefficient : α
  /-- The factor times the value. -/
  amount : α
deriving Repr

/-- What an evaluation found out about one alternative. -/
structure Assessment (α : Type) where
  id : AlternativeId
  name : String
  /-- Whether the alternative is available. -/
  isAvailable : Bool
  /-- The utility of an available alternative. -/
  utility : Option α
  /-- The terms, none when the alternative could not be chosen anyway. -/
  terms : List (Contribution α)
deriving Repr

/-- What an evaluation found out about all alternatives of one decision, in model order. -/
structure UtilityTrace (α : Type) where
  id : DecisionMakerId
  model : String
  alternatives : List (Assessment α)
deriving Repr

namespace UtilityTrace

variable {α : Type} [NumberText α]

/-- The line about one term. -/
def termLine (c : Contribution α) : String :=
  let description := c.description.getD "-"
  let value := NumberText.plain c.value
  let coefficient := NumberText.plain c.coefficient
  let amount := NumberText.plain c.amount
  s!"    {description} `{c.expression}` value={value} coefficient={coefficient} " ++
    s!"contribution={amount}"

/-- The line about one alternative, without its terms. -/
def alternativeLine (trace : UtilityTrace α) (a : Assessment α) : String :=
  let utility := match a.utility with
    | none => "None"
    | some u => s!"Some({NumberText.general u})"
  s!"model '{trace.model}' decision maker {trace.id.toNat} alternative {a.id.toNat} ({a.name}): " ++
    s!"available={a.isAvailable} utility={utility}"

/-- The lines of a trace: each alternative, followed by its terms. -/
def lines (trace : UtilityTrace α) : List String :=
  trace.alternatives.flatMap fun a => trace.alternativeLine a :: a.terms.map termLine

end UtilityTrace
end DiscreteChoice
