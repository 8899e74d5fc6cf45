import DiscreteChoice.Proofs.Expr.Evaluation
import DiscreteChoice.Proofs.Numeric.DoubleOrder

/-!
# Constant folding

Compiling an expression works out the parts without a variable once and for all. A logical operator
between two such parts is applied to both values, while the evaluation of a decision leaves out the
second one where the first settles the result. The two ways differ when the second value is
undefined, and nowhere else.

Main results:

- Theorem `Node.evaluate_fold`: folding keeps the value of an expression in which no logical
  operator clashes.
- Theorem `Formula.compile_faithful_iff`: an expression is free of clashes exactly when folding
  keeps the value of each of its parts in every decision; then its formula has the value of the
  expression as it is written, however its operands are spelled.
- Theorem `Formula.compile_zero_and_undefined`: the shortest expression whose value is changed.
-/

namespace DiscreteChoice

open Numeric

/-- Whether an operator settles on its first operand and leaves out a second one that is
undefined. -/
def BinaryOp.clashes {α : Type} [Numeric α] (op : BinaryOp) (x y : α) : Bool :=
  !isNaN x && (op.settled? x).isSome && isNaN y

section Operators

variable {α : Type} [Numeric α] [LawfulNumeric α] {op : BinaryOp} {x y value : α}

/-- Without a clash, the result that the first operand settles is that of both operands. -/
theorem BinaryOp.apply_of_settled (hsettled : op.settled? x = some value)
    (hclash : op.clashes x y = false) : op.apply x y = value := by
  cases hx : isNaN x with
  | true =>
    cases op <;> simp [settled?, hx] at hsettled
    case and =>
      -- an undefined operand is not zero, so that it does not settle a conjunction
      have := LawfulNumeric.isNaN_of_eq hsettled.1
      simp [hx] at this
    case or => simp [apply, apply.defined, hx, hsettled]
  | false =>
    have hy : isNaN y = false := by simpa [clashes, hx, hsettled] using hclash
    cases op <;> simp [settled?, hx] at hsettled
    case and =>
      rcases hsettled with ⟨hzero, rfl⟩
      simp [apply, apply.defined, hx, hy, Numeric.isTrue, hzero]
    case or => simp [apply, apply.defined, hx, hy, hsettled.1, hsettled.2]

/-- In a clash the first operand settles on a truth value, and both operands make the result
undefined. -/
theorem BinaryOp.apply_ne_of_clashes (hclash : op.clashes x y = true) :
    ∃ value, op.settled? x = some value ∧ op.apply x y ≠ value := by
  obtain ⟨⟨hx, hsome⟩, hy⟩ : (isNaN x = false ∧ (op.settled? x).isSome = true) ∧ isNaN y = true := by
    simpa [clashes] using hclash
  have hundefined : (isNaN x || isNaN y) = true := by simp [hy]
  cases op <;> simp [settled?, hx] at hsome
  case and =>
    refine ⟨0, by simp [settled?, hsome], ?_⟩
    rw [apply_undefined rfl hundefined]
    exact LawfulNumeric.zero_ne_nan.symm
  case or =>
    refine ⟨1, by simp [settled?, hx, hsome], ?_⟩
    rw [apply_undefined rfl hundefined]
    exact LawfulNumeric.one_ne_nan.symm

end Operators

namespace Node

variable {α ε : Type}

/-! ## Parts -/

mutual

/-- A node with everything in it. -/
def parts : Node α → List (Node α)
  | constant value => [constant value]
  | read reference => [read reference]
  | unary op operand => unary op operand :: operand.parts
  | binary op lhs rhs => binary op lhs rhs :: (lhs.parts ++ rhs.parts)
  | conditional c t f => conditional c t f :: (c.parts ++ t.parts ++ f.parts)
  | call function args => call function args :: partsOfAll args

/-- The parts of the nodes of a list. -/
def partsOfAll : List (Node α) → List (Node α)
  | [] => []
  | node :: nodes => node.parts ++ partsOfAll nodes

end

/-- A node is a part of itself. -/
theorem mem_parts (node : Node α) : node ∈ node.parts := by
  cases node <;> simp [parts]

/-- A node with a value is the constant of it. -/
theorem eq_constant_of_value? {node : Node α} {x : α} (h : node.value? = some x) :
    node = constant x := by
  cases node <;> simp_all [value?]

variable [Numeric α]

/-- Nodes that are constants have the values of these. -/
theorem evaluateAll_of_values? (lookup : Reference → Except ε α) {nodes : List (Node α)}
    {values : List α} (h : values? nodes = some values) :
    evaluateAll lookup nodes = .ok values := by
  induction nodes generalizing values with
  | nil => simpa [values?, evaluateAll] using h
  | cons node nodes ih =>
    simp only [values?, Option.bind_eq_bind, Option.bind_eq_some_iff, Option.pure_def,
      Option.some.injEq] at h
    rcases h with ⟨x, hx, xs, hxs, rfl⟩
    simp [eq_constant_of_value? hx, evaluateAll, evaluate, ih hxs]

/-! ## Clashes -/

mutual

/-- Whether no logical operator between parts without a variable clashes. -/
def isFaithful : Node α → Bool
  | constant _ => true
  | read _ => true
  | unary _ operand => operand.isFaithful
  | binary op lhs rhs =>
    lhs.isFaithful && rhs.isFaithful &&
      match lhs.fold.value?, rhs.fold.value? with
      | some x, some y => !op.clashes x y
      | _, _ => true
  | conditional c t f => c.isFaithful && t.isFaithful && f.isFaithful
  | call _ args => areFaithful args

/-- Whether no logical operator clashes in the nodes of a list. -/
def areFaithful : List (Node α) → Bool
  | [] => true
  | node :: nodes => node.isFaithful && areFaithful nodes

end

/-- The fold of an operator between operands that are not both constants keeps the operator. -/
theorem fold_binary (op : BinaryOp) (lhs rhs : Node α) :
    (binary op lhs rhs).fold =
      match lhs.fold.value?, rhs.fold.value? with
      | some x, some y => constant (op.apply x y)
      | _, _ => binary op lhs.fold rhs.fold := by
  rw [fold]
  cases lhs.fold <;> cases rhs.fold <;> rfl

/-! ## Folding keeps values -/

mutual

/-- Folding keeps the value of a node without a clash, whatever the variables are. -/
theorem evaluate_fold [LawfulNumeric α] (lookup : Reference → Except ε α) :
    ∀ node : Node α, node.isFaithful = true → node.fold.evaluate lookup = node.evaluate lookup
  | constant value, _ => by simp [fold]
  | read reference, _ => by simp [fold]
  | unary op operand, h => by
    have ih := evaluate_fold lookup operand (by simpa [isFaithful] using h)
    rw [fold, evaluate, ← ih]
    split
    · rename_i x hx
      simp [hx, evaluate]
    · simp [evaluate]
  | binary op lhs rhs, h => by
    simp only [isFaithful, Bool.and_eq_true] at h
    rcases h with ⟨⟨hlhs, hrhs⟩, hclash⟩
    have ihl := evaluate_fold lookup lhs hlhs
    have ihr := evaluate_fold lookup rhs hrhs
    rw [fold_binary, evaluate, ← ihl, ← ihr]
    split
    · rename_i x y hx hy
      simp only [hx, hy, Bool.not_eq_true'] at hclash
      rw [eq_constant_of_value? hx, eq_constant_of_value? hy]
      simp only [evaluate, ok_bind, pure_eq_ok]
      cases hsettled : op.settled? x with
      | none => rfl
      | some value => simp [BinaryOp.apply_of_settled hsettled hclash]
    · rw [evaluate]
  | conditional c t f, h => by
    simp only [isFaithful, Bool.and_eq_true] at h
    rcases h with ⟨⟨hc, ht⟩, hf⟩
    have ihc := evaluate_fold lookup c hc
    have iht := evaluate_fold lookup t ht
    have ihf := evaluate_fold lookup f hf
    rw [fold, evaluate, ← ihc, ← iht, ← ihf]
    split
    · rename_i x hx
      simp only [hx, evaluate, ok_bind]
      split
      · rfl
      · split <;> rfl
    · rw [evaluate]
  | call function args, h => by
    have ih := evaluateAll_foldAll lookup args (by simpa [isFaithful] using h)
    rw [fold, evaluate, ← ih]
    cases hvalues : values? (foldAll args) with
    | some values => simp [evaluateAll_of_values? lookup hvalues, evaluate]
    | none => simp [evaluate]

/-- Folding keeps the values of nodes without a clash. -/
theorem evaluateAll_foldAll [LawfulNumeric α] (lookup : Reference → Except ε α) :
    ∀ nodes : List (Node α), areFaithful nodes = true →
      evaluateAll lookup (foldAll nodes) = evaluateAll lookup nodes
  | [], _ => by simp [foldAll]
  | node :: nodes, h => by
    simp only [areFaithful, Bool.and_eq_true] at h
    rw [foldAll, evaluateAll, evaluateAll, evaluate_fold lookup node h.1,
      evaluateAll_foldAll lookup nodes h.2]

end

/-! ## A clash changes a value -/

/-- Where an operator clashes, folding changes the value unless it changes that of an operand. -/
theorem evaluate_fold_ne [LawfulNumeric α] (lookup : Reference → Except ε α) {op : BinaryOp} {lhs rhs : Node α}
    {x y : α} (hx : lhs.fold.value? = some x) (hy : rhs.fold.value? = some y)
    (hclash : op.clashes x y = true) (hlhs : lhs.fold.evaluate lookup = lhs.evaluate lookup) :
    (binary op lhs rhs).fold.evaluate lookup ≠ (binary op lhs rhs).evaluate lookup := by
  rcases BinaryOp.apply_ne_of_clashes hclash with ⟨value, hsettled, hne⟩
  have hvalue : lhs.evaluate lookup = .ok x := by
    rw [← hlhs, eq_constant_of_value? hx, evaluate]
  rw [fold_binary, hx, hy]
  simp [evaluate, hvalue, hsettled, hne]

mutual

/-- A node is free of clashes when folding keeps the values of all of its parts. -/
theorem isFaithful_of_parts [LawfulNumeric α] (lookup : Reference → Except ε α) :
    ∀ node : Node α, (∀ part ∈ node.parts, part.fold.evaluate lookup = part.evaluate lookup) →
      node.isFaithful = true
  | constant value, _ => rfl
  | read reference, _ => rfl
  | unary op operand, h => by
    rw [isFaithful]
    exact isFaithful_of_parts lookup operand fun part hpart => h part (by simp [parts, hpart])
  | binary op lhs rhs, h => by
    have hlhs := isFaithful_of_parts lookup lhs fun part hpart => h part (by simp [parts, hpart])
    have hrhs := isFaithful_of_parts lookup rhs fun part hpart => h part (by simp [parts, hpart])
    simp only [isFaithful, hlhs, hrhs, Bool.and_self, Bool.true_and]
    split
    · rename_i x y hx hy
      rw [Bool.not_eq_true', ← Bool.not_eq_true]
      intro hclash
      exact evaluate_fold_ne lookup hx hy hclash (h lhs (by simp [parts, mem_parts]))
        (h _ (mem_parts _))
    · rfl
  | conditional c t f, h => by
    have hc := isFaithful_of_parts lookup c fun part hpart => h part (by simp [parts, hpart])
    have ht := isFaithful_of_parts lookup t fun part hpart => h part (by simp [parts, hpart])
    have hf := isFaithful_of_parts lookup f fun part hpart => h part (by simp [parts, hpart])
    simp [isFaithful, hc, ht, hf]
  | call function args, h => by
    rw [isFaithful]
    exact areFaithful_of_parts lookup args fun part hpart => h part (by simp [parts, hpart])

/-- Nodes are free of clashes when folding keeps the values of all of their parts. -/
theorem areFaithful_of_parts [LawfulNumeric α] (lookup : Reference → Except ε α) :
    ∀ nodes : List (Node α),
      (∀ part ∈ partsOfAll nodes, part.fold.evaluate lookup = part.evaluate lookup) →
      areFaithful nodes = true
  | [], _ => rfl
  | node :: nodes, h => by
    have hnode := isFaithful_of_parts lookup node fun part hpart =>
      h part (by simp [partsOfAll, hpart])
    have hnodes := areFaithful_of_parts lookup nodes fun part hpart =>
      h part (by simp [partsOfAll, hpart])
    simp [areFaithful, hnode, hnodes]

end

mutual

/-- The parts of a node without a clash have none. -/
theorem isFaithful_of_mem_parts {part : Node α} :
    ∀ node : Node α, node.isFaithful = true → part ∈ node.parts → part.isFaithful = true
  | constant value, h, hpart => by
    rw [List.mem_singleton.mp hpart, isFaithful]
  | read reference, h, hpart => by
    rw [List.mem_singleton.mp hpart, isFaithful]
  | unary op operand, h, hpart => by
    rcases List.mem_cons.mp hpart with rfl | hpart
    · exact h
    · exact isFaithful_of_mem_parts operand (by simpa [isFaithful] using h) hpart
  | binary op lhs rhs, h, hpart => by
    rcases List.mem_cons.mp hpart with rfl | hpart
    · exact h
    · simp only [isFaithful, Bool.and_eq_true] at h
      rcases List.mem_append.mp hpart with hpart | hpart
      · exact isFaithful_of_mem_parts lhs h.1.1 hpart
      · exact isFaithful_of_mem_parts rhs h.1.2 hpart
  | conditional c t f, h, hpart => by
    rcases List.mem_cons.mp hpart with rfl | hpart
    · exact h
    · simp only [isFaithful, Bool.and_eq_true] at h
      rcases List.mem_append.mp hpart with hpart | hpart
      · rcases List.mem_append.mp hpart with hpart | hpart
        · exact isFaithful_of_mem_parts c h.1.1 hpart
        · exact isFaithful_of_mem_parts t h.1.2 hpart
      · exact isFaithful_of_mem_parts f h.2 hpart
  | call function args, h, hpart => by
    rcases List.mem_cons.mp hpart with rfl | hpart
    · exact h
    · exact isFaithful_of_mem_partsOfAll args (by simpa [isFaithful] using h) hpart

/-- The parts of nodes without a clash have none. -/
theorem isFaithful_of_mem_partsOfAll {part : Node α} :
    ∀ nodes : List (Node α), areFaithful nodes = true → part ∈ partsOfAll nodes →
      part.isFaithful = true
  | [], _, hpart => by simp [partsOfAll] at hpart
  | node :: nodes, h, hpart => by
    simp only [areFaithful, Bool.and_eq_true] at h
    rcases List.mem_append.mp hpart with hpart | hpart
    · exact isFaithful_of_mem_parts node h.1 hpart
    · exact isFaithful_of_mem_partsOfAll nodes h.2 hpart

end

end Node

/-! ## Compiled expressions -/

namespace Formula

variable {α : Type} [Numeric α]

/-- A text compiles when it can be read and its variables can be bound, and its formula is the fold
of the bound expression. -/
theorem compile_eq_ok {text : String} {schema : Schema α} {formula : Formula α} :
    compile text schema = .ok formula ↔
      ∃ e node, Expr.ofText text = .ok e ∧ e.bind schema = .ok node ∧
        formula = ⟨text, node.fold⟩ := by
  unfold compile ofExpr
  cases hparse : (Expr.ofText text : Except (SyntaxError α) (Expr α)) with
  | error error => simp
  | ok e =>
    simp only [bind_eq_ok, pure_eq_ok, Except.ok.injEq, exists_and_left, exists_eq_left']
    constructor
    · rintro ⟨node, hbind, rfl⟩
      exact ⟨node, hbind, rfl⟩
    · rintro ⟨node, hbind, rfl⟩
      exact ⟨node, hbind, rfl⟩

/-- An expression is free of clashes exactly when folding keeps the value of each of its parts in
every decision. Its formula then has the value of the expression as it is written, and so has that of
any other expression without a clash in which operands are exchanged for others of the same value,
such as a literal for a constant or for a variable. -/
theorem compile_faithful_iff [LawfulNumeric α] {text : String} {schema : Schema α}
    {formula : Formula α} (h : compile text schema = .ok formula) :
    ∃ e node, Expr.ofText text = .ok e ∧ e.bind schema = .ok node ∧
      (node.isFaithful = true ↔
        ∀ part ∈ node.parts, ∀ (context : Context α) (position : Nat),
          part.fold.evaluate (context.read (some position)) =
            part.evaluate (context.read (some position))) ∧
      (node.isFaithful = true → ∀ (context : Context α) (position : Nat),
        formula.evaluate context position = e.evaluate (context.named schema position) ∧
        ∀ text' formula' e' node', compile text' schema = .ok formula' →
          Expr.ofText text' = .ok e' → e'.bind schema = .ok node' → node'.isFaithful = true →
          Expr.Exchanged (context.named schema position) e e' →
          formula'.evaluate context position = formula.evaluate context position) := by
  rcases compile_eq_ok.mp h with ⟨e, node, hparse, hbind, rfl⟩
  have hvalue {e : Expr α} {node : Node α} (hbind : e.bind schema = .ok node)
      (hfaithful : node.isFaithful = true) (text : String) (context : Context α)
      (position : Nat) :
      (⟨text, node.fold⟩ : Formula α).evaluate context position =
        e.evaluate (context.named schema position) := by
    rw [Formula.evaluate, Node.evaluate_fold _ node hfaithful,
      Expr.evaluate_bind context position e hbind]
  refine ⟨e, node, hparse, hbind, ⟨?_, ?_⟩, ?_⟩
  · intro hfaithful part hpart context position
    exact Node.evaluate_fold _ part (Node.isFaithful_of_mem_parts node hfaithful hpart)
  · intro hparts
    -- any decision shows a clash, since the operands of a clash read no variable
    let context : Context α := ⟨0, ⟨none, none, none⟩, schema, #[], #[], #[], #[], .empty⟩
    exact Node.isFaithful_of_parts (context.read (some 0)) node
      fun part hpart => hparts part hpart context 0
  · intro hfaithful context position
    refine ⟨hvalue hbind hfaithful text context position, ?_⟩
    intro text' formula' e' node' hcompile' hparse' hbind' hfaithful' hexchanged
    rcases compile_eq_ok.mp hcompile' with ⟨_, _, hparse'', hbind'', rfl⟩
    rcases Except.ok.inj (hparse'.symm.trans hparse'') with rfl
    rcases Except.ok.inj (hbind'.symm.trans hbind'') with rfl
    rw [hvalue hbind' hfaithful', hvalue hbind hfaithful, hexchanged.evaluate_eq]

/-! ## A variable in front, and a literal in its place -/

open DiscreteChoice.Parser in
/-- A text is read by taking its tokens apart, however deep they nest. -/
theorem ofText_of_tokens {text : String} {tokens : List (Token α)} {e : Expr α} (place : Nat)
    (htokens : Token.ofText text = .ok tokens)
    (hparse : ∀ depth, expression (depth + 1) tokens = .ok (e, [⟨.endOfText, place⟩])) :
    Expr.ofText text = .ok e := by
  rw [Expr.ofText, htokens]
  simp only [ok_bind, Parser.ofTokens, maxDepth, hparse 255, current, pure_eq_ok]

/-- The tokens of a conjunction with `0/0`. -/
def guardTokens (guard : TokenKind Float) : List (Token Float) :=
  [⟨guard, 0⟩, ⟨.symbol .andAnd, 2⟩, ⟨.number 0, 5⟩, ⟨.symbol .slash, 6⟩, ⟨.number 0, 7⟩,
    ⟨.endOfText, 8⟩]

/-- A conjunction with `0/0`. -/
def guarded (guard : Expr Float) : Expr Float :=
  .binary .and guard (.binary .divide (.constant 0) (.constant 0))

open DiscreteChoice.Parser in
theorem ofText_variable : Expr.ofText "x && 0/0" = .ok (guarded (.reference "x" [] 0)) := by
  have tokens : Token.ofText "x && 0/0" = .ok (guardTokens (.identifier "x")) := by
    with_unfolding_all rfl
  refine ofText_of_tokens 8 tokens fun depth => ?_
  simp [guardTokens, guarded, expression, conditional, levels, chain, power, unary, unaryAt?,
    primary, variableNamed, indices, current, startsWith, chainFrom, operatorAt?, Level.operator?]

open DiscreteChoice.Parser in
theorem ofText_zero : Expr.ofText "0 && 0/0" = .ok (guarded (.constant 0)) := by
  have tokens : Token.ofText "0 && 0/0" = .ok (guardTokens (.number 0)) := by
    with_unfolding_all rfl
  refine ofText_of_tokens 8 tokens fun depth => ?_
  simp [guardTokens, guarded, expression, conditional, levels, chain, power, unary, unaryAt?,
    primary, current, startsWith, chainFrom, operatorAt?, Level.operator?]

/-- Behind a variable, the undefined part is left out in a decision where the variable is zero. -/
theorem compile_variable_and_undefined :
    ∃ formula e, compile "x && 0/0" ⟨[("x", .scalar 0)], ["x"], []⟩ = .ok formula ∧
      Expr.ofText "x && 0/0" = .ok e ∧
      ∀ (context : Context Float) (position : Nat), formula.evaluate context position =
        e.evaluate (context.named ⟨[("x", .scalar 0)], ["x"], []⟩ position) := by
  have compiled : compile "x && 0/0" ⟨[("x", .scalar 0)], ["x"], []⟩ =
      .ok ⟨"x && 0/0", .binary .and (.read (.scalar "x" 0)) (.constant (nan : Float))⟩ :=
    compile_eq_ok.mpr ⟨_, _, ofText_variable, rfl, rfl⟩
  rcases compile_faithful_iff compiled with ⟨e, node, hparse, hbind, -, hvalue⟩
  have hfaithful : node.isFaithful = true := by
    rcases Except.ok.inj (ofText_variable.symm.trans hparse) with rfl
    rcases Except.ok.inj hbind with rfl
    rfl
  exact ⟨_, e, compiled, hparse, fun context position => (hvalue hfaithful context position).1⟩

/-- Behind a literal zero, the undefined part makes the formula undefined in every decision, while
the expression as it is written is zero. -/
theorem compile_zero_and_undefined :
    ∃ formula e, compile "0 && 0/0" .empty = .ok formula ∧ Expr.ofText "0 && 0/0" = .ok e ∧
      ∀ (context : Context Float) (position : Nat),
        formula.evaluate context position = .ok nan ∧
        e.evaluate (context.named .empty position) = .ok 0 :=
  ⟨⟨"0 && 0/0", .constant nan⟩, _, compile_eq_ok.mpr ⟨_, _, ofText_zero, rfl, rfl⟩, ofText_zero,
    fun _ _ => ⟨rfl, rfl⟩⟩

end Formula
end DiscreteChoice
