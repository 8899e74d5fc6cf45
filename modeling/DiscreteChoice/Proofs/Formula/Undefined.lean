import DiscreteChoice.Proofs.Numeric.Absorption
import DiscreteChoice.Proofs.Outcome
import DiscreteChoice.Utility.Evaluation

/-!
# Undefined variables

An evaluation stops at the first variable that is missing, and its result is undefined then. The same
result comes out when every missing variable has an undefined value and nothing stops: an undefined
operand makes the value of every node undefined whose value depends on it, and what the logical
operators and the conditional leave out is left out by both. Powers are the exception, since an undefined
value to the power of zero is a number.

Main results:

- Theorem `BinaryOp.isNaN_apply`: outside powers an undefined operand makes the result undefined.
- Theorem `Node.evaluate_agrees`: an evaluation agrees with the one in which nothing is missing.
- Theorem `Formula.lenient_agrees`: what a formula with a missing variable comes to.
-/

namespace DiscreteChoice

open Numeric LawfulNumeric AbsorbingNumeric

variable {α : Type} [Numeric α]

/-! ## Undefined operands -/

/-- Comparing with an undefined value fails. -/
theorem LawfulNumeric.eq_of_isNaN [LawfulNumeric α] {x : α} (hx : isNaN x = true) (y : α) : eq x y = false := by
  rw [Bool.eq_false_iff, ne_eq, eq_iff, hx]
  simp

/-- An operator on an undefined operand has an undefined result. -/
theorem UnaryOp.isNaN_apply [LawfulNumeric α] [AbsorbingNumeric α] (op : UnaryOp) {x : α}
    (hx : isNaN x = true) : isNaN (op.apply x) = true := by
  cases op with
  | negate => exact isNaN_neg hx
  | not => rw [apply, if_pos hx, isNaN_nan]

namespace BinaryOp

/-- Outside powers an undefined operand makes the result undefined. -/
theorem isNaN_apply [LawfulNumeric α] [AbsorbingNumeric α] {op : BinaryOp} (hpower : op ≠ .power)
    {x y : α} (hxy : isNaN x = true ∨ isNaN y = true) : isNaN (op.apply x y) = true := by
  cases harithmetic : op.isArithmetic with
  | false => rw [apply_undefined harithmetic (by simpa using hxy), isNaN_nan]
  | true =>
    cases op with
    | add => exact isNaN_add hxy
    | subtract => exact isNaN_sub hxy
    | multiply => exact isNaN_mul hxy
    | divide => exact isNaN_div hxy
    | power => exact absurd rfl hpower
    | _ => cases harithmetic

/-- What an undefined first operand settles is undefined. -/
theorem isNaN_of_settled? [LawfulNumeric α] {op : BinaryOp} {x value : α} (hx : isNaN x = true)
    (h : op.settled? x = some value) : isNaN value = true := by
  cases op with
  | and =>
    rw [settled?, eq_of_isNaN hx] at h
    cases h
  | or =>
    rw [settled?, if_pos hx] at h
    rw [← Option.some.inj h, isNaN_nan]
  | _ => cases h

end BinaryOp

/-- A function of an undefined argument is undefined. -/
theorem Builtin.isNaN_apply [LawfulNumeric α] (f : Builtin) {args : List α} (h : args.any isNaN = true) :
    isNaN (f.apply args) = true := by
  cases args with
  | nil => cases h
  | cons first others =>
    have hundefined : f.apply (first :: others) = nan := if_pos h
    rw [hundefined, isNaN_nan]

/-! ## Evaluating everything -/

/-- The reader that gives an undefined value to what is missing. -/
def Reference.filled {ε : Type} (lookup : Reference → Except ε α) (reference : Reference) :
    Except ε α :=
  match lookup reference with
  | .ok value => .ok value
  | .error _ => .ok nan

/-- A result agrees with what a computation that may stop comes to: it is the same, or it is undefined
when the computation stops. -/
def AgreesWith {ε β : Type} (isUndefined : β → Bool) (stopping : Except ε β) (result : β) : Prop :=
  match stopping with
  | .ok value => result = value
  | .error _ => isUndefined result = true

omit [Numeric α] in
/-- What is computed from a result agrees with what is computed from that of a computation that may stop,
if an undefined result makes it undefined. -/
theorem AgreesWith.bind {ε β γ : Type} {isUndefined : β → Bool} {isUndefined' : γ → Bool}
    {stopping : Except ε β} {result : β} {next : β → Except ε γ} {final : γ}
    (h : AgreesWith isUndefined stopping result) (hnext : AgreesWith isUndefined' (next result) final)
    (hundefined : isUndefined result = true → isUndefined' final = true) :
    AgreesWith isUndefined' (stopping >>= next) final := by
  cases stopping with
  | ok value =>
    obtain rfl : result = value := h
    exact hnext
  | error e => exact hundefined h

namespace Node

mutual

/-- Whether no power is taken in a node. -/
def powerFree : Node α → Bool
  | constant _ => true
  | read _ => true
  | unary _ operand => operand.powerFree
  | binary op lhs rhs => op != .power && lhs.powerFree && rhs.powerFree
  | conditional c t f => c.powerFree && t.powerFree && f.powerFree
  | call _ args => powerFreeAll args

/-- Whether no power is taken in a list of nodes. -/
def powerFreeAll : List (Node α) → Bool
  | [] => true
  | node :: nodes => node.powerFree && powerFreeAll nodes

end

variable {ε : Type} {lookup : Reference → Except ε α}

mutual

/-- An evaluation agrees with the one in which what is missing is undefined, where no power is taken. -/
theorem evaluate_agrees [LawfulNumeric α] [AbsorbingNumeric α] : (node : Node α) →
    node.powerFree = true → ∃ result, node.evaluate (Reference.filled lookup) = .ok result ∧
      AgreesWith isNaN (node.evaluate lookup) result
  | constant value, _ => ⟨value, rfl, rfl⟩
  | read reference, _ => by
    rw [evaluate, evaluate, Reference.filled]
    cases lookup reference with
    | ok value => exact ⟨value, rfl, rfl⟩
    | error e => exact ⟨nan, rfl, isNaN_nan⟩
  | unary op operand, hfree => by
    rcases evaluate_agrees operand hfree with ⟨x, hx, hagrees⟩
    refine ⟨op.apply x, by rw [evaluate, hx]; rfl, ?_⟩
    exact hagrees.bind rfl op.isNaN_apply
  | binary op lhs rhs, hfree => by
    simp only [powerFree, Bool.and_eq_true, bne_iff_ne] at hfree
    rcases hfree with ⟨⟨hpower, hlhs⟩, hrhs⟩
    rcases evaluate_agrees lhs hlhs with ⟨x, hx, hleft⟩
    rcases evaluate_agrees rhs hrhs with ⟨y, hy, hright⟩
    cases hsettled : op.settled? x with
    | some value =>
      refine ⟨value, by simp [evaluate, hx, hsettled], hleft.bind ?_ ?_⟩
      · rw [hsettled]
        rfl
      · exact fun hundefined => op.isNaN_of_settled? hundefined hsettled
    | none =>
      refine ⟨op.apply x y, by simp [evaluate, hx, hy, hsettled], hleft.bind ?_ ?_⟩
      · rw [hsettled]
        exact hright.bind rfl fun hundefined => op.isNaN_apply hpower (.inr hundefined)
      · exact fun hundefined => op.isNaN_apply hpower (.inl hundefined)
  | conditional c t f, hfree => by
    simp only [powerFree, Bool.and_eq_true] at hfree
    rcases hfree with ⟨⟨hc, ht⟩, hf⟩
    rcases evaluate_agrees c hc with ⟨x, hx, hcondition⟩
    rcases evaluate_agrees t ht with ⟨y, hy, htrue⟩
    rcases evaluate_agrees f hf with ⟨z, hz, hfalse⟩
    refine ⟨if isNaN x then nan else if isTrue x then y else z, ?_, hcondition.bind ?_ ?_⟩
    · rw [evaluate, hx, ok_bind]
      split_ifs
      · rfl
      · exact hy
      · exact hz
    · split_ifs
      · rfl
      · exact htrue
      · exact hfalse
    · intro hundefined
      rw [if_pos hundefined, isNaN_nan]
  | call function args, hfree => by
    rcases evaluateAll_agrees args hfree with ⟨values, hvalues, hagrees⟩
    refine ⟨function.apply values, by rw [evaluate, hvalues]; rfl, ?_⟩
    exact hagrees.bind rfl function.isNaN_apply

/-- The evaluation of a list agrees with the one in which what is missing is undefined. -/
theorem evaluateAll_agrees [LawfulNumeric α] [AbsorbingNumeric α] : (nodes : List (Node α)) →
    powerFreeAll nodes = true →
      ∃ results, evaluateAll (Reference.filled lookup) nodes = .ok results ∧
        AgreesWith (·.any isNaN) (evaluateAll lookup nodes) results
  | [], _ => ⟨[], rfl, rfl⟩
  | node :: nodes, hfree => by
    simp only [powerFreeAll, Bool.and_eq_true] at hfree
    rcases evaluate_agrees node hfree.1 with ⟨x, hx, hfirst⟩
    rcases evaluateAll_agrees nodes hfree.2 with ⟨xs, hxs, hothers⟩
    refine ⟨x :: xs, by rw [evaluateAll, hx, hxs]; rfl, hfirst.bind (hothers.bind rfl ?_) ?_⟩
    · intro hundefined
      rw [List.any_cons, hundefined, Bool.or_true]
    · intro hundefined
      rw [List.any_cons, hundefined, Bool.true_or]

end

end Node

/-! ## Formulas -/

/-- Two values are the same, or both are undefined. -/
def Numeric.Same (x y : α) : Prop :=
  x = y ∨ isNaN x = true ∧ isNaN y = true

namespace Formula

/-- The value of a formula in which no power is taken is the one that it has when every missing variable
has an undefined value and nothing stops. Whether or not powers are taken, the value is undefined when a
missing variable stops the evaluation. -/
theorem lenient_agrees [LawfulNumeric α] [AbsorbingNumeric α] (formula : Formula α)
    (context : Context α) (position : Nat) :
    (formula.root.powerFree = true →
      ∃ value, formula.root.evaluate (Reference.filled (context.read (some position))) = .ok value ∧
        Numeric.Same (formula.lenient context position).value value) ∧
    ∀ missing, formula.evaluate context position = .error missing →
      isNaN (formula.lenient context position).value = true := by
  rw [value_lenient]
  constructor
  · intro hfree
    have hroot : ∃ value,
        formula.root.evaluate (Reference.filled (context.read (some position))) = .ok value ∧
          AgreesWith isNaN (formula.root.evaluate (context.read (some position))) value :=
      formula.root.evaluate_agrees hfree
    rcases hroot with ⟨value, hvalue, hagrees⟩
    refine ⟨value, hvalue, ?_⟩
    rw [evaluate]
    cases hstop : formula.root.evaluate (context.read (some position)) with
    | ok found =>
      rw [hstop] at hagrees
      exact .inl (Eq.symm hagrees)
    | error missing =>
      rw [hstop] at hagrees
      exact .inr ⟨isNaN_nan, hagrees⟩
  · intro missing hmissing
    rw [hmissing]
    exact isNaN_nan

/-- A toll that is only charged where there is a fee. -/
def tollUnlessFree : Formula Float :=
  ⟨"@fee < 1 ? 0 : @toll", .conditional
    (.binary .less (.read (.scalar "fee" 0)) (.constant 1)) (.constant 0) (.read (.scalar "toll" 1))⟩

/-- A decision about which the toll is known and the fee is not. -/
def tollDecision : Context Float where
  id := 7
  trip := ⟨none, none, none⟩
  schema := ⟨[("fee", .scalar 0), ("toll", .scalar 1)], ["fee", "toll"], []⟩
  alternativeIds := #[1]
  alternativeZones := #[none]
  scalars := #[none, some 3]
  alternatives := #[]
  data := .empty

/-- Without the fee the toll is undefined, as it is for an undefined fee. -/
theorem tollUnlessFree_agrees :
    tollUnlessFree.root.powerFree = true ∧
      tollUnlessFree.evaluate tollDecision 0 = .error ⟨7, "fee"⟩ ∧
      (∃ value, tollUnlessFree.root.evaluate (Reference.filled (tollDecision.read (some 0))) =
          .ok value ∧ Numeric.Same (tollUnlessFree.lenient tollDecision 0).value value) ∧
      isNaN (tollUnlessFree.lenient tollDecision 0).value = true := by
  have hmissing : tollUnlessFree.evaluate tollDecision 0 = .error ⟨7, "fee"⟩ := rfl
  rcases lenient_agrees tollUnlessFree tollDecision 0 with ⟨hfree, hstop⟩
  exact ⟨rfl, hmissing, hfree rfl, hstop _ hmissing⟩

end Formula
end DiscreteChoice
