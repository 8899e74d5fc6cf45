import DiscreteChoice.Expr.Operator
import DiscreteChoice.Expr.Builtin

/-!
# Expression trees

An expression as it is written: names are not yet bound to declarations, and every variable keeps
the position where it stands.
-/

namespace DiscreteChoice

/-- An index inside the brackets of a variable, such as the two of `time[orig, dest]`. -/
inductive Index where
  | alternative
  | origin
  | destination
  | period
  | literal (n : UInt32)
deriving Repr, DecidableEq

namespace Index

/-- The spelling of an index. -/
def text : Index → String
  | alternative => "alt"
  | origin => "orig"
  | destination => "dest"
  | period => "period"
  | literal n => toString n.toNat

/-- The index that a word stands for. -/
def ofKeyword? (word : String) : Option Index :=
  [alternative, origin, destination, period].find? (·.text == word)

end Index

/-- An expression as it is written. -/
inductive Expr (α : Type) where
  | constant (value : α)
  | reference (name : String) (indices : List Index) (position : Nat)
  | unary (op : UnaryOp) (operand : Expr α)
  | binary (op : BinaryOp) (lhs rhs : Expr α)
  | conditional (condition ifTrue ifFalse : Expr α)
  | call (function : Builtin) (args : List (Expr α))
deriving Repr

end DiscreteChoice
