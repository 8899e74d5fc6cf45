import DiscreteChoice.Formula.Basic
import DiscreteChoice.Model.Config

/-!
# Alternatives

An alternative with its compiled utility terms and its compiled availability. Its utility is the sum
of factor times value over its terms.

Main results:

- Theorem `Alternative.compile_noUtility`: an alternative needs a utility or a term.
-/

namespace DiscreteChoice

/-- A compiled part of a utility. -/
structure UtilityTerm (α : Type) where
  description : Option String
  formula : Formula α
  coefficient : α
deriving Repr

/-- A compiled alternative. -/
structure Alternative (α : Type) where
  id : AlternativeId
  name : String
  terms : List (UtilityTerm α)
  availability : Option (Formula α)
  zone : Option ZoneId
deriving Repr

variable {α : Type} [Numeric α]

/-- The number that a factor stands for. -/
def Coefficient.resolve (coefficient : Coefficient α) (schema : Schema α) :
    Except (CompileError α) α :=
  match coefficient with
  | .number value =>
    if Numeric.isFinite value then .ok value
    else .error (.invalidModel (.nonFiniteCoefficient value))
  | .named name =>
    match schema.get? name with
    | some (.constant value) => .ok value
    | some declaration => .error (.invalidModel (.coefficientScope name declaration.scope))
    | none => .error (.unknownVariable name 0)

/-- The field that a term of an alternative is called by in errors. -/
def TermConfig.field (term : TermConfig α) (index : Nat) : Field :=
  match term.description with
  | some description => .namedTerm description
  | none => .term index

/-- Compiles a term, first its expression and then its factor. -/
def TermConfig.compile (term : TermConfig α) (schema : Schema α) :
    Except (CompileError α) (UtilityTerm α) := do
  let formula ← Formula.compile term.expression schema
  let coefficient ← term.coefficient.resolve schema
  return ⟨term.description, formula, coefficient⟩

/-- Says in which field of which alternative an error was met. -/
def CompileError.within {β : Type} (alternative : String) (field : Field) :
    Except (CompileError α) β → Except (CompileError α) β
  | .ok value => .ok value
  | .error cause => .error (.inAlternative alternative field cause)

namespace Alternative

/-- The alternative with one utility formula. -/
def ofFormulas (id : AlternativeId) (name : String) (utility : Formula α)
    (availability : Option (Formula α)) : Alternative α :=
  ⟨id, name, [⟨none, utility, 1⟩], availability, none⟩

/-- Compiles the utility expression of an alternative, if it has one, to a term. -/
def compileUtility (config : AlternativeConfig α) (schema : Schema α) :
    Except (CompileError α) (List (UtilityTerm α)) :=
  match config.utility with
  | none => .ok []
  | some text => do
    let formula ← CompileError.within config.name .utility (Formula.compile text schema)
    return [⟨none, formula, 1⟩]

/-- Compiles terms of an alternative, the first of which has the given index. -/
def compileTerms (alternative : String) (schema : Schema α) :
    Nat → List (TermConfig α) → Except (CompileError α) (List (UtilityTerm α))
  | _, [] => .ok []
  | index, term :: terms => do
    let first ← CompileError.within alternative (term.field index) (term.compile schema)
    let others ← compileTerms alternative schema (index + 1) terms
    return first :: others

/-- Compiles the availability of an alternative, if it has one. -/
def compileAvailability (config : AlternativeConfig α) (schema : Schema α) :
    Except (CompileError α) (Option (Formula α)) :=
  match config.availability with
  | none => .ok none
  | some text => do
    let formula ← CompileError.within config.name .availability (Formula.compile text schema)
    return some formula

/-- Compiles an alternative: its utility, its terms in order, and its availability. -/
def compile (config : AlternativeConfig α) (schema : Schema α) :
    Except (CompileError α) (Alternative α) :=
  if config.utility.isNone && config.terms.isEmpty then
    .error (.invalidModel (.noUtility config.name))
  else do
    let utility ← compileUtility config schema
    let terms ← compileTerms config.name schema 0 config.terms
    let availability ← compileAvailability config schema
    return ⟨config.id, config.name, utility ++ terms, availability, config.zone⟩

/-- An alternative needs a utility or a term. -/
theorem compile_noUtility {config : AlternativeConfig α} (schema : Schema α)
    (hutility : config.utility = none) (hterms : config.terms = []) :
    compile config schema = .error (.invalidModel (.noUtility config.name)) := by
  simp [compile, hutility, hterms]

end Alternative
end DiscreteChoice
