/-!
# Variable scopes

What a variable of an expression belongs to.

Main results:

- Theorem `Scope.ofName?_name`: a scope is found under its name.
-/

namespace DiscreteChoice

/-- What a variable belongs to: the decision maker, an alternative, a zone, a pair of zones, or
nothing but the model. -/
inductive Scope where
  | scalar
  | alternative
  | zone
  | matrix
  | constant
deriving Repr, DecidableEq

namespace Scope

/-- The name of a scope. -/
def name : Scope → String
  | scalar => "scalar"
  | alternative => "alternative"
  | zone => "zone"
  | matrix => "matrix"
  | constant => "constant"

/-- All scopes. -/
def all : List Scope :=
  [scalar, alternative, zone, matrix, constant]

/-- The scope of a name. -/
def ofName? (name : String) : Option Scope :=
  all.find? (·.name == name)

/-- A scope is found under its name. -/
@[simp] theorem ofName?_name (s : Scope) : ofName? s.name = some s := by
  cases s <;> decide

end Scope
end DiscreteChoice
