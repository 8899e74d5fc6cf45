import DiscreteChoice.Proofs.Expr.ParserSoundness

/-!
# Where the parser fails

A reader that is given what is left of the tokens of a text, with the end of the text among them,
either leaves a rest of them that still has the end, or fails at one of the tokens of the text. No
reader takes the end and goes on, so that an error never stands behind it.

Main results:

- Theorem `StaysWithin.bind`: readers that stay within a text do so one behind the other.
- Theorem `expression_exponent_operand_isConfined`: the readers of nested productions stay within the
  text.
- Theorem `exists_token_of_error`: an error of the parser is at one of the tokens.
-/

namespace DiscreteChoice
namespace Parser

variable {α β γ : Type} {all tokens : List (Token α)}

/-! ## Staying within a text -/

/-- The tokens are what is left of all tokens of a text, with its end among them. -/
structure IsRest (all tokens : List (Token α)) : Prop where
  isSuffix : tokens <:+ all
  hasEnd : ∃ token ∈ tokens, isEnd token = true

/-- The outcome of a reader stays within a text: a rest of the tokens is left, or the error is at one
of them. -/
def StaysWithin (all : List (Token α)) : Except (SyntaxError α) (β × List (Token α)) → Prop
  | .ok (_, rest) => IsRest all rest
  | .error e => ∃ token ∈ all, token.position = e.position

/-- From any rest of the tokens of a text, a reader stays within it. -/
def IsConfined (all : List (Token α)) (parser : Parser α β) : Prop :=
  ∀ ⦃tokens : List (Token α)⦄, IsRest all tokens → StaysWithin all (parser tokens)

namespace IsRest

/-- A rest has a token at the front. -/
theorem current_mem (h : IsRest all tokens) : current tokens ∈ all := by
  rcases h.hasEnd with ⟨token, htoken, -⟩
  cases tokens with
  | nil => cases htoken
  | cons first rest => exact h.isSuffix.subset List.mem_cons_self

/-- Behind a token that is not the end of the text there is a rest. -/
theorem tail (h : IsRest all tokens) (hfirst : isEnd (current tokens) = false) :
    IsRest all tokens.tail := by
  cases tokens with
  | nil => exact h
  | cons first rest =>
    refine ⟨(List.suffix_cons first rest).trans h.isSuffix, ?_⟩
    rcases h.hasEnd with ⟨token, htoken, hend⟩
    rcases List.mem_cons.mp htoken with rfl | htoken
    · have hnot : isEnd token = false := hfirst
      rw [hnot] at hend
      cases hend
    · exact ⟨token, htoken, hend⟩

/-- Behind a symbol there is a rest. -/
theorem tail_of_startsWith {s : Symbol} (h : IsRest all tokens) (hs : startsWith s tokens = true) :
    IsRest all tokens.tail := by
  apply h.tail
  rcases startsWith_iff.mp hs with ⟨place, rest, rfl⟩
  rfl

end IsRest

/-- Readers that stay within a text do so one behind the other. -/
theorem StaysWithin.bind {x : Except (SyntaxError α) (β × List (Token α))}
    {f : β × List (Token α) → Except (SyntaxError α) (γ × List (Token α))} (hx : StaysWithin all x)
    (hf : ∀ value rest, IsRest all rest → StaysWithin all (f (value, rest))) :
    StaysWithin all (x >>= f) := by
  cases x with
  | error e => exact hx
  | ok result => exact hf result.1 result.2 hx

/-- A reader that fails at the front stays within the text. -/
theorem failHere_isConfined (fault : TokenKind α → SyntaxFault α) :
    IsConfined all (failHere (β := β) fault) :=
  fun _ h => ⟨_, h.current_mem, rfl⟩

/-- The reader of a required symbol stays within the text. -/
theorem expect_isConfined (s : Symbol) : IsConfined all (expect s) := by
  intro tokens h
  unfold expect
  split
  · rename_i hs
    exact h.tail_of_startsWith hs
  · exact failHere_isConfined _ h

/-! ## Chains -/

/-- An operator at the front is not the end of the text. -/
theorem isEnd_of_operatorAt? {level : Level} {op : BinaryOp}
    (h : operatorAt? level tokens = some op) : isEnd (current tokens) = false := by
  rcases operatorAt?_eq_some.mp h with ⟨s, place, rest, -, rfl⟩
  rfl

/-- What follows a first operand is read within the text, whatever the number of steps. -/
theorem chainFrom_isConfined {level : Level} {operand : Parser α (Expr α)}
    (hoperand : IsConfined all operand) (steps : Nat) (lhs : Expr α) :
    IsConfined all (chainFrom level operand steps lhs) := by
  induction steps generalizing lhs with
  | zero => exact fun tokens h => h
  | succ steps ih =>
    intro tokens h
    rw [chainFrom]
    split
    · exact h
    · rename_i op hop
      refine (hoperand (h.tail (isEnd_of_operatorAt? hop))).bind fun rhs rest hrest => ?_
      exact ih _ hrest

/-- A chain is read within the text. -/
theorem chain_isConfined {operand : Parser α (Expr α)} (hoperand : IsConfined all operand)
    (level : Level) : IsConfined all (chain level operand) :=
  fun _ h => (hoperand h).bind fun first _ hrest => chainFrom_isConfined hoperand _ first hrest

/-! ## Calls, powers and conditions -/

/-- Arguments are read within the text, whatever the number of steps. -/
theorem argumentsFrom_isConfined {argument : Parser α (Expr α)} (hargument : IsConfined all argument)
    (steps : Nat) : IsConfined all (argumentsFrom argument steps) := by
  induction steps with
  | zero => exact failHere_isConfined _
  | succ steps ih =>
    intro tokens h
    rw [argumentsFrom]
    refine (hargument h).bind fun first rest hrest => ?_
    dsimp only
    split
    · rename_i hcomma
      exact (ih (hrest.tail_of_startsWith hcomma)).bind fun _ _ hleft => hleft
    · exact (expect_isConfined _ hrest).bind fun _ _ hleft => hleft

/-- The arguments of a call are read within the text. -/
theorem arguments_isConfined {argument : Parser α (Expr α)} (hargument : IsConfined all argument) :
    IsConfined all (arguments argument) := by
  intro tokens h
  refine (expect_isConfined _ h).bind fun _ rest hrest => ?_
  dsimp only
  split
  · rename_i hclose
    exact hrest.tail_of_startsWith hclose
  · exact argumentsFrom_isConfined hargument _ hrest

/-- A call is read within the text that its name stands in. -/
theorem callNamed_isConfined {argument : Parser α (Expr α)} (hargument : IsConfined all argument)
    (name : String) {token : Token α} (htoken : token ∈ all) :
    IsConfined all (callNamed argument name token.position) := by
  intro tokens h
  unfold callNamed
  split
  · exact ⟨token, htoken, rfl⟩
  · refine (arguments_isConfined hargument h).bind fun args rest hrest => ?_
    dsimp only
    split
    · exact hrest
    · exact ⟨token, htoken, rfl⟩

/-- A power is read within the text. -/
theorem power_isConfined {base exponent : Parser α (Expr α)} (hbase : IsConfined all base)
    (hexponent : IsConfined all exponent) : IsConfined all (power base exponent) := by
  intro tokens h
  refine (hbase h).bind fun b rest hrest => ?_
  dsimp only
  split
  · rename_i hcaret
    exact (hexponent (hrest.tail_of_startsWith hcaret)).bind fun _ _ hleft => hleft
  · exact hrest

/-- An expression with a condition, or without one, is read within the text. -/
theorem conditional_isConfined {condition branch : Parser α (Expr α)}
    (hcondition : IsConfined all condition) (hbranch : IsConfined all branch) :
    IsConfined all (conditional condition branch) := by
  intro tokens h
  refine (hcondition h).bind fun c rest hrest => ?_
  dsimp only
  split
  · rename_i hquestion
    refine (hbranch (hrest.tail_of_startsWith hquestion)).bind fun t rest hrest => ?_
    refine (expect_isConfined _ hrest).bind fun _ rest hrest => ?_
    exact (hbranch hrest).bind fun _ _ hleft => hleft
  · exact hrest

variable [Numeric α]

/-! ## Variables -/

/-- A token that is no index is refused where it stands. -/
theorem position_of_index_eq_error {token : Token α} {e : SyntaxError α}
    (h : index token = .error e) : e.position = token.position := by
  unfold index at h
  split at h
  · split at h
    · cases h
    · rw [← Except.error.inj h]
  · split at h
    · split at h
      · cases h
      · rw [← Except.error.inj h]
    · rw [← Except.error.inj h]
  · rw [← Except.error.inj h]

/-- An index is not the end of the text. -/
theorem isEnd_of_index_eq_ok {token : Token α} {i : Index} (h : index token = .ok i) :
    isEnd token = false :=
  (index_eq_ok.mp h).isEnd_eq

/-- A list of indices is read within the text. -/
theorem indicesFrom_isConfined (steps : Nat) : IsConfined all (indicesFrom steps) := by
  induction steps with
  | zero => exact failHere_isConfined _
  | succ steps ih =>
    intro tokens h
    rw [indicesFrom]
    cases hfirst : index (current tokens) with
    | error e => exact ⟨_, h.current_mem, (position_of_index_eq_error hfirst).symm⟩
    | ok first =>
      have hrest := h.tail (isEnd_of_index_eq_ok hfirst)
      rw [ok_bind]
      dsimp only
      split
      · rename_i hcomma
        exact (ih (hrest.tail_of_startsWith hcomma)).bind fun _ _ hleft => hleft
      · exact (expect_isConfined _ hrest).bind fun _ _ hleft => hleft

/-- The indices of a variable are read within the text. -/
theorem indices_isConfined : IsConfined all (indices (α := α)) := by
  intro tokens h
  unfold indices
  split
  · rename_i hopen
    exact indicesFrom_isConfined _ (h.tail_of_startsWith hopen)
  · exact h

/-- A variable is read within the text. -/
theorem variableNamed_isConfined (name : String) (position : Nat) :
    IsConfined all (variableNamed (α := α) name position) :=
  fun _ h => (indices_isConfined h).bind fun _ _ hrest => hrest

/-! ## Productions -/

/-- A primary expression is read within the text. -/
theorem primary_isConfined {inner : Parser α (Expr α)} (hinner : IsConfined all inner) :
    IsConfined all (primary inner) := by
  intro tokens h
  have hmem := h.current_mem
  rcases tokens with _ | ⟨⟨kind, place⟩, rest⟩
  · exact ⟨_, hmem, rfl⟩
  cases kind with
  | number value => exact h.tail rfl
  | identifier name =>
    have hrest : IsRest all rest := h.tail rfl
    rw [primary_identifier]
    split
    · exact callNamed_isConfined hinner name hmem hrest
    · exact variableNamed_isConfined name place hrest
  | reference name =>
    have hrest : IsRest all rest := h.tail rfl
    rw [primary_reference]
    split
    · exact ⟨_, hmem, rfl⟩
    · exact variableNamed_isConfined name place hrest
  | symbol s =>
    have hrest : IsRest all rest := h.tail rfl
    by_cases hs : s = .leftParen
    · subst hs
      rw [primary_leftParen]
      refine (hinner hrest).bind fun e left hleft => ?_
      exact (expect_isConfined _ hleft).bind fun _ _ hlast => hlast
    · have hrefused : primary inner (⟨.symbol s, place⟩ :: rest) =
          .error ⟨place, .expressionExpected (.symbol s)⟩ := by
        simp [primary, current, hs]
      rw [hrefused]
      exact ⟨_, hmem, rfl⟩
  | endOfText => exact ⟨_, hmem, rfl⟩

/-- A unary expression is read within the text. -/
theorem unary_isConfined {operand inner : Parser α (Expr α)} (hoperand : IsConfined all operand)
    (hinner : IsConfined all inner) : IsConfined all (unary operand inner) := by
  intro tokens h
  unfold unary
  split
  · exact primary_isConfined hinner h
  · rename_i op hop
    rcases unaryAt?_eq_some.mp hop with ⟨place, rest, rfl⟩
    exact (hoperand (h.tail rfl)).bind fun _ _ hrest => hrest

/-- The readers of nested productions stay within the text, however many of them may be opened. -/
theorem expression_exponent_operand_isConfined (all : List (Token α)) (depth : Nat) :
    IsConfined all (expression depth) ∧ IsConfined all (exponent depth) ∧
      IsConfined all (operand depth) := by
  induction depth with
  | zero =>
    refine ⟨?_, ?_, ?_⟩ <;> intro tokens h
    · rw [expression]
      exact failHere_isConfined _ h
    · rw [exponent]
      exact failHere_isConfined _ h
    · rw [operand]
      exact failHere_isConfined _ h
  | succ depth ih =>
    rcases ih with ⟨hexpression, hexponent, hoperand⟩
    have hunary := unary_isConfined hoperand hexpression
    have hpower := power_isConfined hunary hexponent
    refine ⟨?_, ?_, ?_⟩ <;> intro tokens h
    · rw [expression]
      refine conditional_isConfined ?_ hexpression h
      exact chain_isConfined (chain_isConfined (chain_isConfined (chain_isConfined
        (chain_isConfined hpower _) _) _) _) _
    · rw [exponent]
      exact hpower h
    · rw [operand]
      exact hunary h

/-- An error of the parser is at one of the tokens of a text with an end. -/
theorem exists_token_of_error {e : SyntaxError α} (hend : ∃ token ∈ tokens, isEnd token = true)
    (h : ofTokens tokens = .error e) : ∃ token ∈ tokens, token.position = e.position := by
  have hwhole : IsRest tokens tokens := ⟨List.suffix_rfl, hend⟩
  have hread := (expression_exponent_operand_isConfined tokens maxDepth).1 hwhole
  unfold ofTokens at h
  cases hexpression : expression maxDepth tokens with
  | error cause =>
    rw [hexpression] at h hread
    rw [error_bind] at h
    rw [← Except.error.inj h]
    exact hread
  | ok result =>
    rcases result with ⟨read, rest⟩
    rw [hexpression] at h hread
    rw [ok_bind] at h
    dsimp only at h
    split at h
    · cases h
    · rw [← Except.error.inj h]
      exact ⟨_, IsRest.current_mem hread, rfl⟩

end Parser
end DiscreteChoice
