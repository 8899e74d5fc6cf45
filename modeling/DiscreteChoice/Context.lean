import DiscreteChoice.Data.Attributes
import DiscreteChoice.Data.ModelData
import DiscreteChoice.Formula.Basic

/-!
# Decisions

A decision binds the attributes of one decision maker to the slots of a schema and adds the trip and
the shared data. It gives the variables of formulas their values.
-/

namespace DiscreteChoice

/-- A variable without a value for a decision maker. -/
structure MissingVariable where
  id : DecisionMakerId
  name : String
deriving Repr, DecidableEq

/-- The description of a missing variable. -/
def MissingVariable.message (missing : MissingVariable) : String :=
  s!"decision maker {missing.id.toNat} has no value for variable '{missing.name}'"

/-- Where and when a decision takes place, as far as that is known. -/
structure Trip where
  origin : Option ZoneId
  destination : Option ZoneId
  period : Option TimePeriod
deriving Repr, DecidableEq

/-- A decision maker with its trip and its attributes. -/
structure DecisionMaker (α : Type) where
  id : DecisionMakerId
  trip : Trip
  attributes : AttributeSet α

/-- A decision that is bound to a schema and to alternatives. -/
structure Context (α : Type) where
  id : DecisionMakerId
  trip : Trip
  schema : Schema α
  alternativeIds : Array AlternativeId
  /-- The zones of the alternatives that have one, by position. -/
  alternativeZones : Array (Option ZoneId)
  /-- The scalar attributes by slot. -/
  scalars : Array (Option α)
  /-- The attributes of alternatives by slot and then by position. -/
  alternatives : Array (Array (Option α))
  data : ModelData α

namespace Context

variable {α : Type}

/-- Binds a decision maker to a schema and to alternatives. An undefined attribute counts as
none. -/
def bind [Numeric α] (id : DecisionMakerId) (trip : Trip) (schema : Schema α)
    (alternativeIds : Array AlternativeId) (alternativeZones : Array (Option ZoneId))
    (source : AttributeSource α) (data : ModelData α) : Context α where
  id := id
  trip := trip
  schema := schema
  alternativeIds := alternativeIds
  alternativeZones := alternativeZones
  scalars := schema.scalarNames.toArray.map fun name =>
    (source.scalar name).filter fun value => !Numeric.isNaN value
  alternatives := schema.alternativeNames.toArray.map fun name =>
    alternativeIds.map fun alternative =>
      (source.alternative name alternative).filter fun value => !Numeric.isNaN value
  data := data

/-- The zone of an alternative, if there is an alternative and it has one. -/
def alternativeZone? (context : Context α) (position : Option Nat) : Option ZoneId :=
  position.bind fun p => context.alternativeZones[p]?.join

/-- The zone that a role stands for when the alternative at a position is evaluated. -/
def zone? (context : Context α) (position : Option Nat) : ZoneRole → Option ZoneId
  | .origin => context.trip.origin
  | .destination => (context.alternativeZone? position).or context.trip.destination

/-- The time period that a role stands for. -/
def period? (context : Context α) : PeriodRole → Option TimePeriod
  | .ofDecision => context.trip.period
  | .fixed period => some period

variable [Numeric α]

/-- The value of a reference when the alternative at a position is evaluated, if there is one. -/
def value? (context : Context α) (position : Option Nat) : Reference → Option α
  | .scalar _ slot => context.scalars[slot]?.join
  | .alternative _ slot => do
    let p ← position
    let values ← context.alternatives[slot]?
    values[p]?.join
  | .zone name role => do
    let zone ← context.zone? position role
    context.data.zones.lookup name zone
  | .matrix name row column period => do
    let origin ← context.zone? position row
    let destination ← context.zone? position column
    context.data.matrices.lookup name origin destination (context.period? period)

/-- The value of a reference when the alternative at a position is evaluated. -/
def read (context : Context α) (position : Option Nat) (reference : Reference) :
    Except MissingVariable α :=
  match context.value? position reference with
  | some value => .ok value
  | none => .error ⟨context.id, reference.name⟩

/-- The value of a declared name. A zone variable is read at the destination, and a matrix variable
from the origin to the destination in the period of the decision. -/
def getVariable (context : Context α) (name : String) (position : Option Nat) :
    Except MissingVariable α :=
  match context.schema.get? name with
  | none => .error ⟨context.id, name⟩
  | some (.constant value) => .ok value
  | some (.scalar slot) => context.read position (.scalar name slot)
  | some (.alternative slot) => context.read position (.alternative name slot)
  | some .zone => context.read position (.zone name .destination)
  | some .matrix => context.read position (.matrix name .origin .destination .ofDecision)

end Context

/-- The value of a formula for the alternative at a position. -/
def Formula.evaluate {α : Type} [Numeric α] (formula : Formula α) (context : Context α)
    (position : Nat) : Except MissingVariable α :=
  formula.root.evaluate (context.read (some position))

end DiscreteChoice
