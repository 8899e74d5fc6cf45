import DiscreteChoice.CompileError
import DiscreteChoice.Expr.Lexer
import Std.Data.TreeMap

/-!
# Variable schemas

The variables that an expression may read. Scalar and alternative variables are numbered within
their scope in the order of declaration, so that a decision can keep their values in a row.

Main results:

- Theorem `get?_declareAs`: a declaration adds its own name and changes no other.
-/

namespace DiscreteChoice

/-- How a variable is read. -/
inductive Declaration (α : Type) where
  | scalar (slot : Nat)
  | alternative (slot : Nat)
  | zone
  | matrix
  | constant (value : α)
deriving Repr, DecidableEq

/-- The scope of a declaration. -/
def Declaration.scope {α : Type} : Declaration α → Scope
  | scalar _ => .scalar
  | alternative _ => .alternative
  | zone => .zone
  | matrix => .matrix
  | constant _ => .constant

/-- The declared variables in the order of declaration, and the names of the scalar and of the
alternative ones by slot. -/
structure Schema (α : Type) where
  declarations : List (String × Declaration α)
  scalarNames : List String
  alternativeNames : List String
deriving Repr

namespace Schema

variable {α : Type}

/-- The schema without a variable. -/
def empty : Schema α :=
  ⟨[], [], []⟩

/-- The declaration of a name. -/
def get? (schema : Schema α) (name : String) : Option (Declaration α) :=
  schema.declarations.lookup name

/-- Whether a name is declared. -/
def contains (schema : Schema α) (name : String) : Bool :=
  (schema.get? name).isSome

/-- How many names are declared. -/
def size (schema : Schema α) : Nat :=
  schema.declarations.length

@[simp] theorem get?_empty (name : String) : (empty : Schema α).get? name = none := rfl

/-- Refuses a text that is no name, and a name that is declared already. -/
def checkName (schema : Schema α) (name : String) : Except (CompileError α) Unit :=
  if !Token.isName name then .error (.invalidModel (.invalidName name))
  else if schema.contains name then .error (.duplicateVariable name)
  else .ok ()

/-- Adds a declaration of a name that is not declared yet. -/
def declareAs (schema : Schema α) (name : String) (declaration : Declaration α) : Schema α :=
  { schema with declarations := schema.declarations ++ [(name, declaration)] }

/-- A declaration adds its own name and changes no other. -/
theorem get?_declareAs (schema : Schema α) {name : String} (declaration : Declaration α)
    (fresh : schema.get? name = none) (other : String) :
    (schema.declareAs name declaration).get? other =
      if other = name then some declaration else schema.get? other := by
  obtain ⟨declarations, _, _⟩ := schema
  simp only [get?, declareAs] at fresh ⊢
  induction declarations with
  | nil =>
    by_cases h : other = name
    · simp [h]
    · simp [List.lookup_cons, beq_eq_false_iff_ne.mpr h, h]
  | cons entry entries ih =>
    obtain ⟨key, value⟩ := entry
    rw [List.lookup_cons] at fresh
    split at fresh
    · cases fresh
    · rename_i different
      rw [List.cons_append, List.lookup_cons, List.lookup_cons, ih fresh]
      by_cases h : other = name
      · subst h; simp [different]
      · simp only [h, if_false]

/-- Declares a variable that is given its values later. -/
def declare (schema : Schema α) (name : String) (scope : Scope) :
    Except (CompileError α) (Schema α) := do
  schema.checkName name
  match scope with
  | .scalar =>
    return { schema.declareAs name (.scalar schema.scalarNames.length) with
      scalarNames := schema.scalarNames ++ [name] }
  | .alternative =>
    return { schema.declareAs name (.alternative schema.alternativeNames.length) with
      alternativeNames := schema.alternativeNames ++ [name] }
  | .zone => return schema.declareAs name .zone
  | .matrix => return schema.declareAs name .matrix
  | .constant => .error (.invalidModel (.constantWithoutValue name))

/-- Declares a constant with its value. -/
def declareConstant [Numeric α] (schema : Schema α) (name : String) (value : α) :
    Except (CompileError α) (Schema α) := do
  schema.checkName name
  if Numeric.isFinite value then return schema.declareAs name (.constant value)
  else .error (.invalidModel (.nonFiniteConstant name value))

/-- The schema of the given variables and constants, each declared in the order of the names and the
variables first. -/
def ofTables [Numeric α] (scopes : Std.TreeMap String Scope) (constants : Std.TreeMap String α) :
    Except (CompileError α) (Schema α) := do
  let schema ← scopes.toList.foldlM (fun schema entry => schema.declare entry.1 entry.2) empty
  constants.toList.foldlM (fun schema entry => schema.declareConstant entry.1 entry.2) schema

end Schema
end DiscreteChoice
