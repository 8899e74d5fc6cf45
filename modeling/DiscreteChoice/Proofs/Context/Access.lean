import DiscreteChoice.Context
import DiscreteChoice.Proofs.Formula.Variables
import DiscreteChoice.Proofs.Numeric.DoubleOrder
import DiscreteChoice.Proofs.Schema.Declarations

/-!
# Reading variables

A variable can be read by its name, and by a compiled expression that spells it. Both ways lead to
the value that the decision maker, the alternative or the shared data has under that name, although
values are kept in slots in between.

Main results:

- Theorem `Context.isDefined_value?`: a bound decision serves no undefined value.
- Theorem `Context.getVariable_bind`: the value of a declared variable comes from its source.
- Theorem `Context.evaluate_variable_text`: both ways lead to the same value.
-/

namespace DiscreteChoice

open Numeric

variable {α : Type} [Numeric α]

/-! ## Undefined values -/

omit [Numeric α] in
/-- What is left after a filter passes it. -/
theorem passes_of_filter_eq_some {passes : α → Bool} {value? : Option α} {value : α}
    (h : value?.filter passes = some value) : passes value = true :=
  (Option.filter_eq_some_iff.mp h).2

/-- The data of zones serves no undefined value. -/
theorem ZoneData.isNaN_of_lookup {zones : ZoneData α} {field : String} {zone : ZoneId} {value : α}
    (h : zones.lookup field zone = some value) : isNaN value = false := by
  simpa using passes_of_filter_eq_some h

/-- Matrices serve no undefined value. -/
theorem SkimSet.isNaN_of_lookup {matrices : SkimSet α} {name : String} {origin destination : ZoneId}
    {period : Option TimePeriod} {value : α}
    (h : matrices.lookup name origin destination period = some value) : isNaN value = false := by
  simp only [SkimSet.lookup, SkimMatrix.get?, Option.bind_eq_bind, Option.bind_eq_some_iff] at h
  rcases h with ⟨tables, -, table, -, row, -, column, -, found, -, hvalue⟩
  split_ifs at hvalue with hnan
  rcases Option.some.inj hvalue with rfl
  simpa using hnan

/-! ## What a variable stands for -/

/-- What a declared variable stands for when the alternative at a position is evaluated, read off
the sources themselves. A zone variable is read at the zone of the alternative, or at the
destination when it has none, and a matrix variable from the origin to there. -/
def Declaration.given? (name : String) (trip : Trip) (ids : Array AlternativeId)
    (zones : Array (Option ZoneId)) (source : AttributeSource α) (data : ModelData α)
    (position : Nat) : Declaration α → Option α
  | constant value => some value
  | scalar _ => source.scalar name
  | alternative _ => ids[position]?.bind (source.alternative name)
  | zone => (zones[position]?.join.or trip.destination).bind (data.zones.lookup name)
  | matrix =>
    trip.origin.bind fun origin =>
      (zones[position]?.join.or trip.destination).bind fun destination =>
        data.matrices.lookup name origin destination trip.period

namespace Context

/-- Serves a value that is there and defined. -/
def serve (id : DecisionMakerId) (name : String) (value? : Option α) : Except MissingVariable α :=
  match value?.filter fun value => !isNaN value with
  | some value => .ok value
  | none => .error ⟨id, name⟩

/-- Undefined values need not be dropped before they are served. -/
@[simp] theorem serve_filter (id : DecisionMakerId) (name : String) (value? : Option α) :
    serve id name (value?.filter fun value => !isNaN value) = serve id name value? := by
  simp [serve, Option.filter_filter]

/-- No undefined value is served. -/
theorem isNaN_of_serve {id : DecisionMakerId} {name : String} {value? : Option α} {value : α}
    (h : serve id name value? = .ok value) : isNaN value = false := by
  rw [serve] at h
  split at h
  · rename_i found hfound
    rcases Except.ok.inj h with rfl
    simpa using passes_of_filter_eq_some hfound
  · cases h

/-- The values in the slots of a decision are defined. -/
structure HasDefinedSlots (context : Context α) : Prop where
  scalar {slot : Nat} {value : α} : context.scalars[slot]?.join = some value → isNaN value = false
  alternative {slot position : Nat} {values : Array (Option α)} {value : α} :
    context.alternatives[slot]? = some values → values[position]?.join = some value →
      isNaN value = false

/-- A decision whose slots are defined serves no undefined value. -/
theorem isNaN_of_value? {context : Context α} (h : context.HasDefinedSlots)
    {position : Option Nat} {reference : Reference} {value : α}
    (hvalue : context.value? position reference = some value) : isNaN value = false := by
  cases reference with
  | scalar name slot => exact h.scalar hvalue
  | alternative name slot =>
    simp only [value?, Option.bind_eq_bind, Option.bind_eq_some_iff] at hvalue
    rcases hvalue with ⟨p, -, values, hvalues, hvalue⟩
    exact h.alternative hvalues hvalue
  | zone name role =>
    simp only [value?, Option.bind_eq_bind, Option.bind_eq_some_iff] at hvalue
    rcases hvalue with ⟨zone, -, hvalue⟩
    exact ZoneData.isNaN_of_lookup hvalue
  | matrix name row column period =>
    simp only [value?, Option.bind_eq_bind, Option.bind_eq_some_iff] at hvalue
    rcases hvalue with ⟨origin, -, destination, -, hvalue⟩
    exact SkimSet.isNaN_of_lookup hvalue

variable (id : DecisionMakerId) (trip : Trip) (schema : Schema α) (ids : Array AlternativeId)
  (zones : Array (Option ZoneId)) (source : AttributeSource α) (data : ModelData α)

/-- The slot of a scalar attribute has its value. -/
theorem scalars_bind (slot : Nat) :
    (bind id trip schema ids zones source data).scalars[slot]?.join =
      schema.scalarNames[slot]?.bind fun name =>
        (source.scalar name).filter fun value => !isNaN value := by
  simp only [bind, Array.getElem?_map, List.getElem?_toArray]
  cases schema.scalarNames[slot]? <;> rfl

/-- The slot of an attribute of alternatives has its value for the alternative at a position. -/
theorem alternatives_bind (slot position : Nat) :
    ((bind id trip schema ids zones source data).alternatives[slot]?.bind fun values =>
        values[position]?.join) =
      schema.alternativeNames[slot]?.bind fun name =>
        (ids[position]?.bind (source.alternative name)).filter fun value => !isNaN value := by
  simp only [bind, Array.getElem?_map, List.getElem?_toArray]
  cases schema.alternativeNames[slot]? with
  | none => rfl
  | some name => cases h : ids[position]? <;> simp [h]

/-- Binding a decision drops the undefined attributes. -/
theorem hasDefinedSlots_bind :
    (bind id trip schema ids zones source data).HasDefinedSlots where
  scalar {slot value} h := by
    rw [scalars_bind, Option.bind_eq_some_iff] at h
    rcases h with ⟨name, -, h⟩
    simpa using passes_of_filter_eq_some h
  alternative {slot position values value} hvalues h := by
    have hslot : ((bind id trip schema ids zones source data).alternatives[slot]?.bind fun values =>
        values[position]?.join) = some value := by rw [hvalues, Option.bind_some, h]
    simp only [alternatives_bind, Option.bind_eq_some_iff] at hslot
    rcases hslot with ⟨name, -, h⟩
    simpa using passes_of_filter_eq_some h

variable {schema}

/-- A decision whose slots are defined serves what it finds. -/
theorem read_eq_serve {context : Context α} (h : context.HasDefinedSlots) (position : Option Nat)
    (reference : Reference) :
    context.read position reference =
      serve context.id reference.name (context.value? position reference) := by
  rw [read, serve]
  cases hvalue : context.value? position reference with
  | none => rfl
  | some value => simp [Option.filter, isNaN_of_value? h hvalue]

/-- The value of a declared variable comes from the source that it stands for. -/
theorem getVariable_bind [LawfulNumeric α] (hschema : schema.IsDeclared) {name : String}
    {declaration : Declaration α} (hname : schema.get? name = some declaration) (position : Nat) :
    (bind id trip schema ids zones source data).getVariable name (some position) =
      serve id name (declaration.given? name trip ids zones source data position) := by
  have hslots := hasDefinedSlots_bind id trip schema ids zones source data
  have hget : (bind id trip schema ids zones source data).schema.get? name = some declaration :=
    hname
  rw [getVariable, hget]
  cases declaration with
  | constant value =>
    have hvalue : isNaN value = false :=
      LawfulNumeric.isNaN_of_isFinite (hschema.isSound.constant hname)
    simp [Declaration.given?, serve, Option.filter, hvalue]
  | scalar slot =>
    have hslot := scalars_bind id trip schema ids zones source data slot
    rw [hschema.isSound.scalar hname, Option.bind_some] at hslot
    simp only [read_eq_serve hslots, value?, hslot, serve_filter, Declaration.given?]
    rfl
  | alternative slot =>
    have hslot := alternatives_bind id trip schema ids zones source data slot position
    rw [hschema.isSound.alternative hname, Option.bind_some] at hslot
    simp only [read_eq_serve hslots, value?, Option.bind_eq_bind, Option.bind_some, hslot,
      serve_filter, Declaration.given?]
    rfl
  | zone => exact read_eq_serve hslots _ _
  | matrix => exact read_eq_serve hslots _ _

end Context

/-! ## Reading by name -/

/-- A variable is read by its name. -/
theorem Declaration.evaluate_node {context : Context α} {name : String}
    {declaration : Declaration α} (hname : context.schema.get? name = some declaration)
    (position : Nat) :
    (declaration.node name).evaluate (context.read (some position)) =
      context.getVariable name (some position) := by
  rw [Context.getVariable, hname]
  cases declaration <;> simp [node, Node.evaluate]

/-- Reading a variable by its name and evaluating the expression that spells it, with or without an
at sign, agree in every bound decision and for every alternative. Both give what the source of the
variable has, and name the variable and the decision maker when that is nothing or undefined. No
undefined value is served. -/
theorem Context.evaluate_variable_text [LawfulNumeric α] {schema : Schema α}
    (hschema : schema.IsDeclared) {name : String} {declaration : Declaration α}
    (hname : schema.get? name = some declaration) (id : DecisionMakerId) (trip : Trip)
    (ids : Array AlternativeId) (zones : Array (Option ZoneId)) (source : AttributeSource α)
    (data : ModelData α) (position : Nat) :
    (∀ text ∈ [name ++ declaration.indexText, "@" ++ name ++ declaration.indexText],
      ∃ formula, Formula.compile text schema = .ok formula ∧
        formula.evaluate (bind id trip schema ids zones source data) position =
          (bind id trip schema ids zones source data).getVariable name (some position)) ∧
    (bind id trip schema ids zones source data).getVariable name (some position) =
      (match (declaration.given? name trip ids zones source data position).filter (!isNaN ·) with
        | some value => .ok value
        | none => .error ⟨id, name⟩) ∧
    ∀ value, (bind id trip schema ids zones source data).getVariable name (some position) =
      .ok value → isNaN value = false := by
  have hserve := getVariable_bind id trip ids zones source data hschema hname position
  refine ⟨fun text htext => ?_, hserve, fun value hvalue => ?_⟩
  · have hcompile := Formula.compile_variable_text (hschema.isSound.isName hname) hname
      (by simpa using htext)
    exact ⟨_, hcompile, Declaration.evaluate_node hname position⟩
  · rw [hserve] at hvalue
    exact isNaN_of_serve hvalue

/-! ## An alternative with a zone of its own -/

/-- A schema with the price of parking in a zone. -/
def parkingSchema : Schema Float :=
  ⟨[("parking", .zone)], [], []⟩

/-- A decision about a trip from zone 1 to zone 2, where the second alternative goes to zone 3, in
which parking has the price 1. -/
def parkingDecision : Context Float :=
  .bind 9 ⟨some 1, some 2, none⟩ parkingSchema #[1, 2] #[none, some 3]
    ⟨fun _ => none, fun _ _ => none⟩ ⟨.empty, ZoneData.empty.insert "parking" 3 1⟩

/-- The price of parking is the only declaration. -/
theorem isDeclared_parkingSchema : parkingSchema.IsDeclared := by
  have hdeclare : Schema.empty.declare "parking" .zone = .ok parkingSchema :=
    Schema.declare_eq_ok.mpr ⟨by decide, rfl, .zone, rfl, rfl⟩
  exact .declare .empty hdeclare

/-- The price of parking is read in the zone of the alternative. -/
theorem Context.evaluate_parking_text :
    ∃ formula, Formula.compile "@parking[dest]" parkingSchema = .ok formula ∧
      formula.evaluate parkingDecision 1 = .ok 1 := by
  have hget : parkingSchema.get? "parking" = some .zone := rfl
  rcases evaluate_variable_text isDeclared_parkingSchema hget 9
    ⟨some 1, some 2, none⟩ #[1, 2] #[none, some 3] ⟨fun _ => none, fun _ _ => none⟩
    ⟨.empty, ZoneData.empty.insert "parking" 3 1⟩ 1 with ⟨htexts, hvalue, -⟩
  rcases htexts "@parking[dest]" (by decide) with ⟨formula, hformula, hevaluate⟩
  refine ⟨formula, hformula, hevaluate.trans (hvalue.trans ?_)⟩
  simp [Declaration.given?, Option.filter]

end DiscreteChoice
