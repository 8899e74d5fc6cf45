import DiscreteChoice.Proofs.Context.Access
import DiscreteChoice.Utility.Evaluation

/-!
# Situations

A decision looks different to each of its alternatives: an alternative has its own attributes and
may have its own zone. What it sees is its situation, and nothing else of the decision, such as the
zones and the attributes of the other alternatives, has an influence on its expressions.

Main results:

- Theorem `Context.read_eq_situation`: a variable is read off the situation.
- Theorem `Formula.evaluate_congr`: expressions have the same values in equal situations.
- Theorem `Alternative.appraise_congr`: alternatives have the same utilities in equal situations.
- Theorem `Formula.evaluate_own_zone`: the zone of an alternative takes the place of the
  destination, and the zones of the others have no influence.
-/

namespace DiscreteChoice

variable {α : Type}

/-- What an alternative sees of a decision. -/
structure Situation (α : Type) where
  id : DecisionMakerId
  origin : Option ZoneId
  /-- The zone that expressions call the destination. -/
  destination : Option ZoneId
  period : Option TimePeriod
  /-- The attributes of the decision maker by slot. -/
  scalar : Nat → Option α
  /-- The attributes of the alternative by slot. -/
  alternative : Nat → Option α
  data : ModelData α

/-! ## What is read off a situation -/

namespace Situation

/-- The zone that a role stands for. -/
def zone? (situation : Situation α) : ZoneRole → Option ZoneId
  | .origin => situation.origin
  | .destination => situation.destination

/-- The time period that a role stands for. -/
def period? (situation : Situation α) : PeriodRole → Option TimePeriod
  | .ofDecision => situation.period
  | .fixed period => some period

variable [Numeric α]

/-- The value of a reference, if there is one. -/
def value? (situation : Situation α) : Reference → Option α
  | .scalar _ slot => situation.scalar slot
  | .alternative _ slot => situation.alternative slot
  | .zone name role => (situation.zone? role).bind (situation.data.zones.lookup name)
  | .matrix name row column period =>
    (situation.zone? row).bind fun origin =>
      (situation.zone? column).bind fun destination =>
        situation.data.matrices.lookup name origin destination (situation.period? period)

/-- The value of a reference. -/
def read (situation : Situation α) (reference : Reference) : Except MissingVariable α :=
  match situation.value? reference with
  | some value => .ok value
  | none => .error ⟨situation.id, reference.name⟩

end Situation

namespace Context

variable (context : Context α) (position : Nat)

/-- What the alternative at a position sees of a decision. -/
def situation : Situation α where
  id := context.id
  origin := context.trip.origin
  destination := (context.alternativeZone? (some position)).or context.trip.destination
  period := context.trip.period
  scalar slot := context.scalars[slot]?.join
  alternative slot := context.alternatives[slot]?.bind fun values => values[position]?.join
  data := context.data

/-- A zone is that of the situation. -/
theorem zone?_eq_situation (role : ZoneRole) :
    context.zone? (some position) role = (context.situation position).zone? role := by
  cases role <;> rfl

/-- A time period is that of the situation. -/
theorem period?_eq_situation (role : PeriodRole) :
    context.period? role = (context.situation position).period? role := by
  cases role <;> rfl

variable [Numeric α]

/-- A variable has the value that it has in the situation. -/
theorem value?_eq_situation (reference : Reference) :
    context.value? (some position) reference = (context.situation position).value? reference := by
  cases reference with
  | scalar name slot => rfl
  | alternative name slot => rfl
  | zone name role =>
    simp only [value?, zone?_eq_situation, Situation.value?]
    rfl
  | matrix name row column period =>
    simp only [value?, zone?_eq_situation, period?_eq_situation context position, Situation.value?]
    rfl

/-- A variable is read off the situation. -/
theorem read_eq_situation :
    context.read (some position) = (context.situation position).read := by
  funext reference
  rw [read, Situation.read, value?_eq_situation]
  rfl

end Context

/-! ## Zones and destinations -/

namespace Context

variable {context : Context α} {position : Nat}

/-- The decision with another destination. -/
def toward (context : Context α) (destination : Option ZoneId) : Context α :=
  { context with trip := { context.trip with destination := destination } }

/-- The decision in which the alternative at a position has no zone of its own. -/
def withoutZone (context : Context α) (position : Nat) : Context α :=
  { context with alternativeZones := context.alternativeZones.modify position fun _ => none }

/-- The decision in which the alternatives have other zones. -/
def withZones (context : Context α) (zones : Array (Option ZoneId)) : Context α :=
  { context with alternativeZones := zones }

theorem alternativeZone?_withoutZone (context : Context α) (position : Nat) :
    (context.withoutZone position).alternativeZone? (some position) = none := by
  rw [alternativeZone?, withoutZone, Option.bind_some, Array.getElem?_modify, if_pos rfl]
  cases context.alternativeZones[position]? <;> rfl

/-- An alternative that has a zone sees it as the destination, whatever the destination is. -/
theorem situation_toward_of_zone {zone : ZoneId}
    (h : context.alternativeZone? (some position) = some zone) (destination : Option ZoneId) :
    (context.toward destination).situation position =
      ((context.toward (some zone)).withoutZone position).situation position := by
  have hnone := alternativeZone?_withoutZone (context.toward (some zone)) position
  have hzone : (context.toward destination).alternativeZone? (some position) = some zone := h
  rw [situation, situation, hnone, hzone]
  rfl

/-- An alternative does not see the zones of the others. -/
theorem situation_withZones {zones : Array (Option ZoneId)}
    (h : zones[position]?.join = context.alternativeZone? (some position)) :
    (context.withZones zones).situation position = context.situation position := by
  have hzone : (context.withZones zones).alternativeZone? (some position) =
      context.alternativeZone? (some position) := h
  rw [situation, situation, hzone]
  rfl

/-- What the alternative at a position sees of a bound decision: of the alternatives only its own id
and zone count, and of the attributes of alternatives only those for that id. -/
theorem situation_bind [Numeric α] (id : DecisionMakerId) (trip : Trip) (schema : Schema α)
    (ids : Array AlternativeId) (zones : Array (Option ZoneId)) (source : AttributeSource α)
    (data : ModelData α) (position : Nat) :
    (bind id trip schema ids zones source data).situation position =
      { id := id
        origin := trip.origin
        destination := zones[position]?.join.or trip.destination
        period := trip.period
        scalar := fun slot => schema.scalarNames[slot]?.bind fun name =>
          (source.scalar name).filter fun value => !Numeric.isNaN value
        alternative := fun slot => schema.alternativeNames[slot]?.bind fun name =>
          (ids[position]?.bind (source.alternative name)).filter fun value => !Numeric.isNaN value
        data := data } := by
  simp only [situation, scalars_bind, alternatives_bind]
  rfl

end Context

/-! ## Equal situations -/

variable [Numeric α] {context context' : Context α} {position position' : Nat}

namespace Formula

variable (formula : Formula α)

/-- An expression has the same value, or stops at the same variable, in equal situations. -/
theorem evaluate_congr (h : context.situation position = context'.situation position') :
    formula.evaluate context position = formula.evaluate context' position' := by
  rw [evaluate, evaluate, Context.read_eq_situation, Context.read_eq_situation, h]

theorem lenient_congr (h : context.situation position = context'.situation position') :
    formula.lenient context position = formula.lenient context' position' := by
  rw [lenient, lenient, formula.evaluate_congr h]

end Formula

namespace Alternative

variable (alternative : Alternative α)

theorem isOffered_congr (h : context.situation position = context'.situation position') :
    alternative.isOffered context position = alternative.isOffered context' position' := by
  have hid : context.id = context'.id := congrArg Situation.id h
  simp only [isOffered, Formula.lenient_congr _ h, hid]

theorem utility_congr (h : context.situation position = context'.situation position') :
    alternative.utility context position = alternative.utility context' position' := by
  simp only [utility, Formula.lenient_congr _ h]

/-- An alternative has the same utility, or none for the same reason, in equal situations. -/
theorem appraise_congr (h : context.situation position = context'.situation position') :
    alternative.appraise context position = alternative.appraise context' position' := by
  have hid : context.id = context'.id := congrArg Situation.id h
  simp only [appraise, alternative.isOffered_congr h, alternative.utility_congr h, hid]

end Alternative

/-! ## The zone of an alternative -/

/-- The zone of an alternative takes the place of the destination: its expressions have the value,
or stop at the variable, that they have or stop at in the decision with that destination in which
the alternative has no zone, whatever the destination was and if there was none. The zones of the
other alternatives have no influence, whether the alternative has a zone or not. -/
theorem Formula.evaluate_own_zone (formula : Formula α) (context : Context α) (position : Nat) :
    (∀ zone, context.alternativeZone? (some position) = some zone →
      formula.evaluate context position =
        formula.evaluate ((context.toward (some zone)).withoutZone position) position ∧
      ∀ destination, formula.evaluate (context.toward destination) position =
        formula.evaluate context position) ∧
    ∀ zones : Array (Option ZoneId),
      zones[position]?.join = context.alternativeZone? (some position) →
        formula.evaluate (context.withZones zones) position =
          formula.evaluate context position := by
  refine ⟨fun zone hzone => ?_, fun zones hzones => ?_⟩
  · have hown (destination : Option ZoneId) :
        formula.evaluate (context.toward destination) position =
          formula.evaluate ((context.toward (some zone)).withoutZone position) position :=
      formula.evaluate_congr (Context.situation_toward_of_zone hzone destination)
    have hsame : formula.evaluate context position =
        formula.evaluate ((context.toward (some zone)).withoutZone position) position :=
      hown context.trip.destination
    exact ⟨hsame, fun destination => (hown destination).trans hsame.symm⟩
  · exact formula.evaluate_congr (Context.situation_withZones hzones)

/-- The price of parking is that of zone 3 for the second alternative of the parking decision, and
the zones of the other alternative do not matter to it. -/
theorem Formula.evaluate_own_zone_parking :
    let price : Formula Float := ⟨"@parking[dest]", .read (.zone "parking" .destination)⟩
    price.evaluate ((parkingDecision.toward (some 3)).withoutZone 1) 1 = .ok 1 ∧
      price.evaluate (parkingDecision.toward none) 1 = .ok 1 ∧
      price.evaluate (parkingDecision.withZones #[some 5, some 3]) 1 = .ok 1 := by
  intro price
  have hprice : price.evaluate parkingDecision 1 = .ok 1 := by
    simp [price, Formula.evaluate, Node.evaluate, Context.read, Context.value?, Context.zone?,
      Context.alternativeZone?, parkingDecision, Context.bind]
  rcases evaluate_own_zone price parkingDecision 1 with ⟨hzone, hothers⟩
  rcases hzone 3 rfl with ⟨hown, hdestination⟩
  exact ⟨hown.symm.trans hprice, (hdestination none).trans hprice,
    (hothers #[some 5, some 3] rfl).trans hprice⟩

end DiscreteChoice
