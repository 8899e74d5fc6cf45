import DiscreteChoice.Context
import DiscreteChoice.Proofs.Outcome

/-!
# Evaluating expressions as they are written

The value of an expression tree, worked out from left to right without binding its variables first
and without replacing any part of it. A reader gives each variable with its indices a value or
refuses it.

Main results:

- Theorem `Expr.evaluate_bind`: a bound expression has the value of the expression as it is written.
- Theorem `Expr.Exchanged.evaluate_eq`: an operand counts by its value alone, be it a literal, a
  constant or a variable.
-/

namespace DiscreteChoice

open Numeric

variable {α ε : Type} [Numeric α]

namespace Expr

mutual

/-- The value of an expression, where the given reader gives the variables their values. -/
def evaluate (read : String → List Index → Except ε α) : Expr α → Except ε α
  | constant value => .ok value
  | reference name indices _ => read name indices
  | unary op operand => do
    let x ← operand.evaluate read
    return op.apply x
  | binary op lhs rhs => do
    let x ← lhs.evaluate read
    match op.settled? x with
    | some value => return value
    | none =>
      let y ← rhs.evaluate read
      return op.apply x y
  | conditional c t f => do
    let x ← c.evaluate read
    if isNaN x then return nan
    else if isTrue x then t.evaluate read
    else f.evaluate read
  | call function args => do
    let values ← evaluateAll read args
    return function.apply values

/-- The values of a list of expressions. -/
def evaluateAll (read : String → List Index → Except ε α) :
    List (Expr α) → Except ε (List α)
  | [] => .ok []
  | e :: es => do
    let value ← e.evaluate read
    let values ← evaluateAll read es
    return value :: values

end

/-- A list of expressions is evaluated piece by piece. -/
theorem evaluateAll_append (read : String → List Index → Except ε α) (es fs : List (Expr α)) :
    evaluateAll read (es ++ fs) = do
      let values ← evaluateAll read es
      let others ← evaluateAll read fs
      return values ++ others := by
  induction es with
  | nil => cases h : evaluateAll read fs <;> simp [evaluateAll, h]
  | cons e es ih =>
    rw [List.cons_append, evaluateAll, evaluateAll, ih]
    simp only [bind_assoc, pure_bind, List.cons_append]

/-! ## Exchanging operands -/

/-- The second expression is the first one with an operand, at any depth, exchanged for one of the
same value. -/
inductive Exchanged (read : String → List Index → Except ε α) : Expr α → Expr α → Prop
  | here {e e' : Expr α} (same : e.evaluate read = e'.evaluate read) : Exchanged read e e'
  | operand (op : UnaryOp) {e e' : Expr α} (inner : Exchanged read e e') :
      Exchanged read (unary op e) (unary op e')
  | left (op : BinaryOp) {e e' : Expr α} (rhs : Expr α) (inner : Exchanged read e e') :
      Exchanged read (binary op e rhs) (binary op e' rhs)
  | right (op : BinaryOp) (lhs : Expr α) {e e' : Expr α} (inner : Exchanged read e e') :
      Exchanged read (binary op lhs e) (binary op lhs e')
  | condition {e e' : Expr α} (t f : Expr α) (inner : Exchanged read e e') :
      Exchanged read (conditional e t f) (conditional e' t f)
  | ifTrue (c : Expr α) {e e' : Expr α} (f : Expr α) (inner : Exchanged read e e') :
      Exchanged read (conditional c e f) (conditional c e' f)
  | ifFalse (c t : Expr α) {e e' : Expr α} (inner : Exchanged read e e') :
      Exchanged read (conditional c t e) (conditional c t e')
  | argument (function : Builtin) (before after : List (Expr α)) {e e' : Expr α}
      (inner : Exchanged read e e') :
      Exchanged read (call function (before ++ e :: after)) (call function (before ++ e' :: after))

/-- An operand counts by its value alone. -/
theorem Exchanged.evaluate_eq {read : String → List Index → Except ε α} {e e' : Expr α}
    (h : Exchanged read e e') : e.evaluate read = e'.evaluate read := by
  induction h with
  | here same => exact same
  | operand op _ ih => simp only [evaluate, ih]
  | left op rhs _ ih => simp only [evaluate, ih]
  | right op lhs _ ih => simp only [evaluate, ih]
  | condition t f _ ih => simp only [evaluate, ih]
  | ifTrue c f _ ih => simp only [evaluate, ih]
  | ifFalse c t _ ih => simp only [evaluate, ih]
  | argument function before after _ ih =>
    simp only [evaluate, evaluateAll_append, evaluateAll, ih]

end Expr

/-! ## Reading variables by name -/

/-- The value of a variable as an expression names it, when the alternative at a position is
evaluated: that of a constant is declared, that of any other variable comes from the decision. -/
def Context.named (context : Context α) (schema : Schema α) (position : Nat) (name : String)
    (indices : List Index) : Except MissingVariable α :=
  match schema.get? name with
  | none => .error ⟨context.id, name⟩
  | some declaration =>
    match (declaration.bind name indices : Except (SyntaxFault α) (Node α)) with
    | .ok node => node.evaluate (context.read (some position))
    | .error _ => .error ⟨context.id, name⟩

/-- A bound variable is read as the expression names it. -/
theorem Context.named_of_bind {schema : Schema α} {name : String} {indices : List Index}
    {place : Nat} {node : Node α} (h : schema.bind name indices place = .ok node)
    (context : Context α) (position : Nat) :
    context.named schema position name indices = node.evaluate (context.read (some position)) := by
  unfold Schema.bind at h
  unfold Context.named
  cases hget : schema.get? name with
  | none => simp [hget] at h
  | some declaration =>
    cases hbind : (declaration.bind name indices : Except (SyntaxFault α) (Node α)) with
    | error fault => simp [hget, hbind] at h
    | ok bound =>
      simp only [hget, hbind, Except.ok.injEq] at h
      simp only [hbind, h]

namespace Expr

mutual

/-- A bound expression has the value of the expression as it is written. -/
theorem evaluate_bind {schema : Schema α} (context : Context α) (position : Nat) :
    ∀ (e : Expr α) {node : Node α}, e.bind schema = .ok node →
      e.evaluate (context.named schema position) = node.evaluate (context.read (some position))
  | constant value, node, h => by
    simp only [Expr.bind, Except.ok.injEq] at h
    simp [← h, Expr.evaluate, Node.evaluate]
  | reference name indices place, node, h => by
    simp only [Expr.bind] at h
    rw [Expr.evaluate, Context.named_of_bind h]
  | unary op operand, node, h => by
    simp only [Expr.bind, bind_eq_ok, pure_eq_ok, Except.ok.injEq] at h
    rcases h with ⟨x, hx, rfl⟩
    simp only [Expr.evaluate, Node.evaluate, evaluate_bind context position operand hx]
  | binary op lhs rhs, node, h => by
    simp only [Expr.bind, bind_eq_ok, pure_eq_ok, Except.ok.injEq] at h
    rcases h with ⟨x, hx, y, hy, rfl⟩
    rw [Expr.evaluate, evaluate_bind context position lhs hx, evaluate_bind context position rhs hy]
    rfl
  | conditional c t f, node, h => by
    simp only [Expr.bind, bind_eq_ok, pure_eq_ok, Except.ok.injEq] at h
    rcases h with ⟨x, hx, y, hy, z, hz, rfl⟩
    simp only [Expr.evaluate, Node.evaluate, evaluate_bind context position c hx,
      evaluate_bind context position t hy, evaluate_bind context position f hz]
  | call function args, node, h => by
    simp only [Expr.bind, bind_eq_ok, pure_eq_ok, Except.ok.injEq] at h
    rcases h with ⟨nodes, hnodes, rfl⟩
    simp only [Expr.evaluate, Node.evaluate, evaluateAll_bindAll context position args hnodes]

/-- Bound expressions have the values of the expressions as they are written. -/
theorem evaluateAll_bindAll {schema : Schema α} (context : Context α) (position : Nat) :
    ∀ (es : List (Expr α)) {nodes : List (Node α)}, bindAll schema es = .ok nodes →
      evaluateAll (context.named schema position) es =
        Node.evaluateAll (context.read (some position)) nodes
  | [], nodes, h => by
    simp only [bindAll, Except.ok.injEq] at h
    simp [← h, Expr.evaluateAll, Node.evaluateAll]
  | e :: es, nodes, h => by
    simp only [bindAll, bind_eq_ok, pure_eq_ok, Except.ok.injEq] at h
    rcases h with ⟨x, hx, xs, hxs, rfl⟩
    simp only [Expr.evaluateAll, Node.evaluateAll, evaluate_bind context position e hx,
      evaluateAll_bindAll context position es hxs]

end

end Expr
end DiscreteChoice
