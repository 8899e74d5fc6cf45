import DiscreteChoice.Expr.Parser
import DiscreteChoice.Formula.Node
import DiscreteChoice.Schema.Basic

/-!
# Formulas

Expressions compiled against a schema: every variable is bound to its declaration, with indices that
fit its scope, and the parts without a variable are replaced by their values.
-/

namespace DiscreteChoice

variable {α : Type}

/-- The zone that an index names. -/
def Index.zoneRole? : Index → Option ZoneRole
  | origin => some .origin
  | destination => some .destination
  | _ => none

/-- The time period that an index names. -/
def Index.periodRole? : Index → Option PeriodRole
  | period => some .ofDecision
  | literal n => some (.fixed n)
  | _ => none

/-- The zone that an index of a variable names. -/
def Index.zoneRole (name : String) (index : Index) : Except (SyntaxFault α) ZoneRole :=
  match index.zoneRole? with
  | some role => .ok role
  | none => .error (.zoneIndexExpected name index)

/-- The time period that an index of a variable names. -/
def Index.periodRole (name : String) (index : Index) : Except (SyntaxFault α) PeriodRole :=
  match index.periodRole? with
  | some role => .ok role
  | none => .error (.periodIndexExpected name index)

/-- Binds a variable to its declaration. The time period is checked before the zones. -/
def Declaration.bind (declaration : Declaration α) (name : String) (indices : List Index) :
    Except (SyntaxFault α) (Node α) :=
  match declaration, indices with
  | .constant value, [] => .ok (.constant value)
  | .scalar slot, [] => .ok (.read (.scalar name slot))
  | .alternative slot, [] => .ok (.read (.alternative name slot))
  | .alternative slot, [.alternative] => .ok (.read (.alternative name slot))
  | .zone, [index] => do
    let role ← index.zoneRole name
    return .read (.zone name role)
  | .matrix, [row, column] => do
    let row ← row.zoneRole name
    let column ← column.zoneRole name
    return .read (.matrix name row column .ofDecision)
  | .matrix, [row, column, time] => do
    let period ← time.periodRole name
    let row ← row.zoneRole name
    let column ← column.zoneRole name
    return .read (.matrix name row column period)
  | declaration, indices => .error (.indexMismatch declaration.scope name indices)

/-- Binds a variable that stands at a position. -/
def Schema.bind (schema : Schema α) (name : String) (indices : List Index) (position : Nat) :
    Except (CompileError α) (Node α) :=
  match schema.get? name with
  | none => .error (.unknownVariable name position)
  | some declaration =>
    match declaration.bind name indices with
    | .ok node => .ok node
    | .error fault => .error (.malformed ⟨position, fault⟩)

namespace Expr

mutual

/-- Binds all variables of an expression, the first one that does not fit being the error. -/
def bind (schema : Schema α) : Expr α → Except (CompileError α) (Node α)
  | constant value => .ok (.constant value)
  | reference name indices position => schema.bind name indices position
  | unary op operand => do
    let operand ← operand.bind schema
    return .unary op operand
  | binary op lhs rhs => do
    let lhs ← lhs.bind schema
    let rhs ← rhs.bind schema
    return .binary op lhs rhs
  | conditional c t f => do
    let c ← c.bind schema
    let t ← t.bind schema
    let f ← f.bind schema
    return .conditional c t f
  | call function args => do
    let args ← bindAll schema args
    return .call function args

/-- Binds all variables of a list of expressions. -/
def bindAll (schema : Schema α) : List (Expr α) → Except (CompileError α) (List (Node α))
  | [] => .ok []
  | e :: es => do
    let node ← e.bind schema
    let nodes ← bindAll schema es
    return node :: nodes

end

end Expr

/-- A compiled expression and the text that it was compiled from. -/
structure Formula (α : Type) where
  source : String
  root : Node α
deriving Repr

namespace Formula

/-- The formula that is always of the given value. -/
def constant [NumberText α] (value : α) : Formula α :=
  ⟨NumberText.plain value, .constant value⟩

/-- The value of a formula that depends on no variable. -/
def value? (formula : Formula α) : Option α :=
  formula.root.value?

/-- The variables of a formula, each name once, in the order of first appearance. -/
def references (formula : Formula α) : List Reference :=
  Reference.distinct formula.root.references

variable [Numeric α]

/-- The formula of an expression whose variables are declared in a schema. -/
def ofExpr (source : String) (e : Expr α) (schema : Schema α) :
    Except (CompileError α) (Formula α) := do
  let node ← e.bind schema
  return ⟨source, node.fold⟩

/-- Compiles the text of an expression against a schema. -/
def compile (text : String) (schema : Schema α) : Except (CompileError α) (Formula α) :=
  match Expr.ofText text with
  | .error error => .error (.malformed error)
  | .ok e => ofExpr text e schema

end Formula
end DiscreteChoice
