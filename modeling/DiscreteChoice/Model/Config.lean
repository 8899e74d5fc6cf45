import DiscreteChoice.Nest.Config
import DiscreteChoice.Schema.Scope
import Std.Data.TreeMap

/-!
# Models as they are written

A model specification before its expressions are compiled.
-/

namespace DiscreteChoice

/-- The factor of a term: a number, or the name of a constant. -/
inductive Coefficient (α : Type) where
  | number (value : α)
  | named (name : String)
deriving Repr

/-- One part of the utility of an alternative. -/
structure TermConfig (α : Type) where
  description : Option String
  expression : String
  coefficient : Coefficient α
deriving Repr

/-- An alternative as it is written. -/
structure AlternativeConfig (α : Type) where
  id : AlternativeId
  name : String
  /-- A part of the utility with the factor one. -/
  utility : Option String
  terms : List (TermConfig α)
  /-- The condition under which the alternative can be chosen, always when there is none. -/
  availability : Option String
  /-- The zone that stands for the destination in the expressions of the alternative. -/
  zone : Option ZoneId
deriving Repr

/-- A model as it is written. -/
structure ModelConfig (α : Type) where
  name : String
  /-- The scope of every variable by name. -/
  scopes : Std.TreeMap String Scope
  constants : Std.TreeMap String α
  alternatives : List (AlternativeConfig α)
  /-- The root of the nesting; without one there is a single nest. -/
  nests : Option (NestConfig α)

end DiscreteChoice
