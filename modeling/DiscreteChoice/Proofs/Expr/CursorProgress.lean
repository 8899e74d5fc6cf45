import DiscreteChoice.Proofs.Expr.CursorReading
import DiscreteChoice.Proofs.Expr.Scanning

/-!
# The parser with a cursor makes progress

From every state every procedure ends, with the number of open productions as it was, whether it
answers or fails. The cursor stays within the tokens, it has moved on when a production was read, and
a loop has moved on before it starts again. From the first token on the procedures answer what the
readers answer, so that the parser ends on every text.

Main results:

- Theorem `reader_shortens`: a production that was read has taken a token.
- Theorem `Turns.lt_cursor`: a loop that starts again goes on from a later place.
- Theorem `parseText_eq`: the parser ends on every text.
- Theorem `run_progresses`: all procedures end, keep the depth and move on.
-/

namespace DiscreteChoice
namespace CursorParser

open DiscreteChoice.Parser

variable {α : Type} [Numeric α] {tokens : List (Token α)} {s : State} {depth : Nat}

/-! ## Productions take tokens -/

/-- The whole productions. A loop, a call and a variable go on behind tokens that have been taken for
them. -/
def Production.isWhole : Production α → Bool
  | .nested inner => inner.isWhole
  | .conditional | .chain _ | .power | .unary | .primary => true
  | _ => false

/-- A reader that succeeds has taken a token. -/
def Shortens (parser : Parser α (Expr α)) : Prop :=
  ∀ ⦃tokens rest : List (Token α)⦄ ⦃e : Expr α⦄,
    parser tokens = .ok (e, rest) → rest.length < tokens.length

/-- What is read from the grammar is not empty. -/
theorem shortens_of_reads {parser : Parser α (Expr α)} {category : Category}
    (h : Reads parser (Derives depth category)) : Shortens parser := by
  intro tokens rest e hread
  rcases h hread with ⟨words, rfl, hderives⟩
  have := List.length_pos_of_ne_nil hderives.ne_nil
  rw [List.length_append]
  omega

/-- The chain of a level is read from the grammar. -/
theorem level_reads (level : Level) (depth : Nat) :
    Reads (α := α) ((Category.level level).parser depth) (Derives depth (.level level)) := by
  rw [Category.parser_level]
  exact chain_reads (Category.operand_reads level depth)

/-- A production that was read has taken a token. -/
theorem reader_shortens {production : Production α} (hwhole : production.isWhole = true) :
    Shortens (production.reader depth) := by
  rcases expression_exponent_operand_reads (α := α) depth with ⟨hexpression, -, hoperand⟩
  induction production generalizing depth with
  | nested inner ih =>
    cases depth with
    | zero =>
      intro tokens rest e hread
      cases hread
    | succ depth =>
      rcases expression_exponent_operand_reads (α := α) depth with ⟨hexpression, -, hoperand⟩
      exact ih hwhole hexpression hoperand
  | conditional =>
    exact shortens_of_reads (conditional_reads (level_reads .or depth) hexpression)
  | chain level => exact shortens_of_reads (level_reads level depth)
  | power => exact shortens_of_reads (Category.operand_reads .multiplicative depth)
  | unary => exact shortens_of_reads (unary_reads hoperand hexpression)
  | primary => exact shortens_of_reads (primary_reads hexpression)
  | _ => cases hwhole

/-- From every state a production is read to an end. The number of open productions is the same again,
the cursor has not moved back nor out of the tokens, and it has moved on when a whole production was
read. -/
theorem exists_outcome_run (h : EndsText tokens) (production : Production α) (s : State) :
    ∃ answer after, outcome (production.run tokens) s = some (answer, after) ∧
      Kept tokens s after ∧
      (production.isWhole = true → ∀ e, answer = .ok e → s.cursor < after.cursor) := by
  rcases run_follows h production s rfl with ⟨answer, after, hout, hkept, hread⟩
  refine ⟨answer, after, hout, hkept, ?_⟩
  rintro hwhole e rfl
  have hshorter := reader_shortens hwhole hread
  rw [length_front, length_front] at hshorter
  omega

/-! ## Loops -/

/-- A loop starts again in another state: behind an operator with its operand, or behind an argument or
an index with a comma. -/
inductive Turns (tokens : List (Token α)) : Production α → State → Production α → State → Prop
  | joining {level : Level} {lhs rhs : Expr α} {op : BinaryOp} {s after : State}
      (operator : operatorAt? level [tokenAt tokens s.cursor] = some op)
      (operand : outcome (Production.run tokens (.operandOf level)) (s.next tokens.length) =
        some (.ok rhs, after)) :
      Turns tokens (.joining level lhs) s (.joining level (.binary op lhs rhs)) after
  | arguments {function : Builtin} {position : Nat} {args : List (Expr α)} {arg : Expr α}
      {s after : State}
      (argument : outcome (Production.run tokens (.nested .conditional)) s = some (.ok arg, after))
      (comma : startsWith .comma [tokenAt tokens after.cursor] = true) :
      Turns tokens (.arguments function position args) s
        (.arguments function position (args ++ [arg])) (after.next tokens.length)
  | indices {name : String} {position : Nat} {found : List Index} {i : Index} {s after : State}
      (spelled : index (tokenAt tokens s.cursor) = .ok i) (taken : after = s.next tokens.length)
      (comma : startsWith .comma [tokenAt tokens after.cursor] = true) :
      Turns tokens (.indices name position found) s (.indices name position (found ++ [i]))
        (after.next tokens.length)

variable {production again : Production α} {after : State}

/-- The loop that starts again answers for the one that it goes on with. -/
theorem Turns.outcome_eq (h : Turns tokens production s again after) :
    outcome (production.run tokens) s = outcome (again.run tokens) after := by
  cases h with
  | joining operator operand =>
    rw [Production.run, outcome_bind, outcome_peek, Option.bind_some]
    dsimp only
    rw [operator]
    dsimp only
    rw [outcome_bind, outcome_advance, Option.bind_some]
    dsimp only
    rw [outcome_bind, operand, Option.bind_some]
  | arguments argument comma =>
    rw [Production.run, outcome_bind, argument, Option.bind_some]
    dsimp only
    rw [outcome_bind, outcome_eat, if_pos comma, Option.bind_some]
    rfl
  | indices spelled taken comma =>
    subst taken
    rw [Production.run, outcome_bind, outcome_advance, Option.bind_some]
    dsimp only
    rw [spelled]
    dsimp only
    rw [outcome_bind, outcome_eat, if_pos comma, Option.bind_some]
    rfl

omit [Numeric α] in
/-- A token that is not the end of the text moves the cursor on. -/
theorem EndsText.lt_next (h : EndsText tokens) (hgoes : isEnd (tokenAt tokens s.cursor) = false) :
    s.cursor < (s.next tokens.length).cursor := by
  have := (h.front_next hgoes).2
  omega

omit [Numeric α] in
/-- A symbol is not the end of the text. -/
theorem isEnd_of_startsWith {symbol : Symbol} {token : Token α}
    (h : startsWith symbol [token] = true) : isEnd token = false := by
  rcases startsWith_iff.mp h with ⟨place, rest, heq⟩
  cases heq
  rfl

/-- A loop has taken a token before it starts again. -/
theorem Turns.lt_cursor (hends : EndsText tokens) (h : Turns tokens production s again after) :
    s.cursor < after.cursor := by
  cases h with
  | @joining level _ rhs _ _ _ operator operand =>
    have hsymbol : isEnd (tokenAt tokens s.cursor) = false := by
      rcases operatorAt?_eq_some.mp operator with ⟨symbol, place, rest, -, heq⟩
      rw [(List.cons.inj heq).1]
      rfl
    have hoperator := hends.lt_next hsymbol
    rcases exists_outcome_run hends (.operandOf level) (s.next tokens.length) with
      ⟨answer, last, hout, hkept, -⟩
    cases operand.symm.trans hout
    have := hkept.forward
    omega
  | @arguments _ _ _ arg _ last argument comma =>
    have hcomma := hends.lt_next (isEnd_of_startsWith comma)
    rcases exists_outcome_run hends (.nested .conditional) s with ⟨answer, after, hout, hkept, -⟩
    cases argument.symm.trans hout
    have := hkept.forward
    omega
  | indices spelled taken comma =>
    have hindex := hends.lt_next (index_eq_ok.mp spelled).isEnd_eq
    have hcomma := hends.lt_next (isEnd_of_startsWith comma)
    rw [← taken] at hindex
    omega

/-! ## Texts -/

/-- From the first token on the procedures answer what the readers answer. -/
theorem exists_outcome_parse (h : EndsText tokens) :
    ∃ after, outcome (parse tokens) ⟨0, 0⟩ = some (ofTokens tokens, after) := by
  have hfront : State.front ⟨0, 0⟩ tokens = tokens := by
    rw [State.front, Nat.zero_min, List.drop_zero]
  rcases run_follows h (.nested .conditional) ⟨0, 0⟩ rfl with ⟨answer, after, hout, -, hread⟩
  rw [hfront, (Production.reader_nested _).1] at hread
  refine ⟨after, ?_⟩
  rw [parse, outcome_bind, hout, Option.bind_some, ofTokens]
  change _ = some ((expression maxDepth tokens).bind _, after)
  rw [show expression maxDepth tokens = _ from hread]
  cases answer with
  | error e => rfl
  | ok e =>
    dsimp only [Except.map, Except.bind]
    rw [outcome_bind, outcome_peek, Option.bind_some, h.current_front]
    dsimp only
    cases (tokenAt tokens after.cursor).kind <;> rfl

/-- Every text is parsed to an end, with the answer of the readers. -/
theorem parseText_eq (text : String) :
    parseText text = some (Expr.ofText text : Except (SyntaxError α) (Expr α)) := by
  rw [parseText, Expr.ofText]
  cases htokens : Token.ofText (α := α) text with
  | error e => rfl
  | ok tokens =>
    rcases Token.exists_words_of_ofText htokens with ⟨words, -, hwords⟩
    rcases exists_outcome_parse ⟨_, _, hwords⟩ with ⟨after, hout⟩
    dsimp only
    rw [hout]
    rfl

/-- On tokens in front of the end of the text every production ends from every state. It leaves the
number of open productions as it was, the cursor does not go back nor leave the tokens, and a whole
production that was read has moved it on. A loop that starts again goes on from a later place, and the
parser ends on every text. -/
theorem run_progresses (body : List (Token α)) (place : Nat) :
    let tokens := body ++ [⟨.endOfText, place⟩]
    (∀ (production : Production α) (s : State), ∃ answer after,
      outcome (production.run tokens) s = some (answer, after) ∧
        after.depth = s.depth ∧ s.cursor ≤ after.cursor ∧
        after.cursor ≤ max s.cursor tokens.length ∧
        (production.isWhole = true → ∀ e, answer = .ok e → s.cursor < after.cursor)) ∧
    (∀ (production again : Production α) (s after : State), Turns tokens production s again after →
      s.cursor < after.cursor ∧
        outcome (production.run tokens) s = outcome (again.run tokens) after) ∧
    ∀ text : String,
      parseText text = some (Expr.ofText text : Except (SyntaxError α) (Expr α)) := by
  intro tokens
  have hends : EndsText tokens := ⟨body, place, rfl⟩
  refine ⟨fun production s => ?_, fun production again s after h => ⟨h.lt_cursor hends, h.outcome_eq⟩,
    parseText_eq⟩
  rcases exists_outcome_run hends production s with ⟨answer, after, hout, hkept, hmoves⟩
  exact ⟨answer, after, hout, hkept.depth_eq, hkept.forward, hkept.within, hmoves⟩

end CursorParser
end DiscreteChoice
