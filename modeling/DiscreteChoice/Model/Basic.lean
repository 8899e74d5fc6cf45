import DiscreteChoice.Context
import DiscreteChoice.Model.Alternative
import DiscreteChoice.Nest.Tree

/-!
# Models

A compiled model: its alternatives in order, their nesting, and the schema that its formulas were
compiled against.
-/

namespace DiscreteChoice

/-- A compiled model. -/
structure Model (α : Type) where
  name : String
  schema : Schema α
  alternatives : Array (Alternative α)
  /-- The position of every alternative by id. -/
  positions : Std.TreeMap AlternativeId Nat
  nests : NestTree α

namespace Model

variable {α : Type}

/-- How many alternatives there are. -/
def size (model : Model α) : Nat :=
  model.alternatives.size

/-- The ids of the alternatives in order. -/
def ids (model : Model α) : Array AlternativeId :=
  model.alternatives.map (·.id)

/-- The zones of the alternatives in order. -/
def zones (model : Model α) : Array (Option ZoneId) :=
  model.alternatives.map (·.zone)

/-- The position of the alternative of an id. -/
def position? (model : Model α) (id : AlternativeId) : Option Nat :=
  model.positions[id]?

/-- Numbers the alternatives of a list from the given position on. No id may occur twice. -/
def numberAlternatives (name : String) (position : Nat) (alternatives : List (Alternative α))
    (positions : Std.TreeMap AlternativeId Nat) :
    Except (CompileError α) (Std.TreeMap AlternativeId Nat) :=
  match alternatives with
  | [] => .ok positions
  | alternative :: rest =>
    if positions.contains alternative.id then
      .error (.invalidModel (.repeatedAlternative alternative.id name))
    else numberAlternatives name (position + 1) rest (positions.insert alternative.id position)

variable [Numeric α]

/-- Puts a model together from compiled alternatives. -/
def assemble (name : String) (schema : Schema α) (alternatives : List (Alternative α))
    (nests : Option (NestConfig α)) : Except (CompileError α) (Model α) :=
  if alternatives.isEmpty then .error (.invalidModel (.noAlternatives name))
  else do
    let positions ← numberAlternatives name 0 alternatives ∅
    let tree ← match nests with
      | some config => NestTree.ofConfig config positions
      | none => .ok (NestTree.flat alternatives.length)
    return ⟨name, schema, alternatives.toArray, positions, tree⟩

/-- Compiles a model: its schema, its alternatives in order, and its nesting. -/
def compile (config : ModelConfig α) : Except (CompileError α) (Model α) := do
  let schema ← Schema.ofTables config.scopes config.constants
  let alternatives ← config.alternatives.mapM fun a => Alternative.compile a schema
  assemble config.name schema alternatives config.nests

/-- Binds a decision maker to the variables and the alternatives of a model. -/
def bind (model : Model α) (person : DecisionMaker α) (data : ModelData α) : Context α :=
  Context.bind person.id person.trip model.schema model.ids model.zones person.attributes.source
    data

end Model
end DiscreteChoice
