import DiscreteChoice.Proofs.Expr.ParserSoundness

/-!
# What is in the grammar is read by the parser

A text of a category is read as what it is derived as, whatever follows, as long as the token behind
it does not go on with it. How far a token goes on is its strength: an opening bracket goes on with a
name, the power sign with a base, an operator with the operands of its level and of the tighter ones.

Main results:

- Theorem `Derives.complete`: every text of a category is read as what it is derived as.
- Theorem `Derives.unique`: a text is derived as one expression only, however much may be opened.
- Theorem `ofTokens_eq_ok_iff`: the parser reads exactly the expressions, each as the only tree that
  it has.
-/

namespace DiscreteChoice
namespace Parser

variable {α : Type}

/-! ## Strengths -/

/-- How far a symbol goes on with what stands before it. -/
def symbolStrength : Symbol → Nat
  | .leftParen | .leftBracket => 8
  | .caret => 7
  | .star | .slash => 6
  | .plus | .minus => 5
  | .equalEqual | .bangEqual | .less | .lessEqual | .greater | .greaterEqual => 4
  | .andAnd => 3
  | .orOr => 2
  | .question => 1
  | _ => 0

/-- How far the token at the front goes on with what stands before it. -/
def strength (tokens : List (Token α)) : Nat :=
  match (current tokens).kind with
  | .symbol s => symbolStrength s
  | _ => 0

/-- The strength of the operators of a level. -/
def Level.rank : Level → Nat
  | or => 2
  | and => 3
  | comparison => 4
  | additive => 5
  | multiplicative => 6

/-- A text of the category stands alone before every token of a smaller strength. -/
def Category.rank : Category → Nat
  | conditional => 1
  | level l => l.rank
  | power => 7
  | unary => 8
  | primary => 8
  | arguments _ => 1

/-- Operands of a level stand alone before an operator of the level. -/
theorem Level.rank_lt_operand (l : Level) : l.rank < l.operand.rank := by
  cases l <;> decide

/-- Every operator of a level has the strength of the level. -/
theorem Joins.strength_eq {l : Level} {s : Symbol} {op : BinaryOp} (h : Joins l s op) :
    symbolStrength s = l.rank := by
  cases h <;> rfl

@[simp] theorem strength_symbol (s : Symbol) (place : Nat) (rest : List (Token α)) :
    strength (⟨.symbol s, place⟩ :: rest) = symbolStrength s := rfl

/-- A symbol is not at the front when the strengths differ. -/
theorem startsWith_of_strength_ne {s : Symbol} {tokens : List (Token α)}
    (h : strength tokens ≠ symbolStrength s) : startsWith s tokens = false := by
  rw [Bool.eq_false_iff]
  intro hstart
  rcases startsWith_iff.mp hstart with ⟨place, rest, rfl⟩
  exact h rfl

/-- No operator of a level is at the front when the strengths differ. -/
theorem operatorAt?_of_strength_ne {l : Level} {tokens : List (Token α)}
    (h : strength tokens ≠ l.rank) : operatorAt? l tokens = none := by
  rw [Option.eq_none_iff_forall_ne_some]
  intro op hop
  rcases operatorAt?_eq_some.mp hop with ⟨s, place, rest, hs, rfl⟩
  exact h hs.strength_eq

/-! ## The end of the text -/

/-- No token stands before the end of the text when the end is at the front. -/
theorem takeWhile_of_isEnd {tokens : List (Token α)} (h : isEnd (current tokens) = true) :
    tokens.takeWhile (fun token => !isEnd token) = [] := by
  cases tokens with
  | nil => rfl
  | cons token tokens =>
    have htoken : isEnd token = true := h
    simp [htoken]

/-- The end of the text is at the front when the tokens before it are dropped. -/
theorem isEnd_dropWhile (tokens : List (Token α)) :
    isEnd (current (tokens.dropWhile fun token => !isEnd token)) = true := by
  induction tokens with
  | nil => rfl
  | cons token tokens ih =>
    cases h : isEnd token with
    | true => simp [current, h]
    | false => simpa [h] using ih

/-- The end of the text goes on with nothing. -/
theorem strength_of_isEnd {tokens : List (Token α)} (h : isEnd (current tokens) = true) :
    strength tokens = 0 := by
  simp only [isEnd] at h
  split at h
  · rename_i hkind
    simp [strength, hkind]
  · simp at h

/-! ## Chains -/

/-- A chain stands alone before a token that is no operator of its level. -/
theorem chainFrom_of_strength_ne {l : Level} {operand : Parser α (Expr α)} (steps : Nat)
    (e : Expr α) {tokens : List (Token α)} (h : strength tokens ≠ l.rank) :
    chainFrom l operand steps e tokens = .ok (e, tokens) := by
  cases steps with
  | zero => rfl
  | succ steps => simp [chainFrom, operatorAt?_of_strength_ne h]

/-- As many steps as there are tokens suffice for a chain, and more steps change nothing. -/
theorem chainFrom_steps {l : Level} {operand : Parser α (Expr α)}
    (hoperand : ∀ ⦃tokens rest e⦄, operand tokens = .ok (e, rest) → rest.length ≤ tokens.length)
    (n m : Nat) : ∀ {tokens : List (Token α)} (e : Expr α), tokens.length ≤ n →
      tokens.length ≤ m → chainFrom l operand n e tokens = chainFrom l operand m e tokens := by
  induction n generalizing m with
  | zero =>
    intro tokens e hn hm
    obtain rfl : tokens = [] := List.eq_nil_of_length_eq_zero (by omega)
    cases m with
    | zero => rfl
    | succ m => rfl
  | succ n ih =>
    intro tokens e hn hm
    cases m with
    | zero =>
      obtain rfl : tokens = [] := List.eq_nil_of_length_eq_zero (by omega)
      rfl
    | succ m =>
      rw [chainFrom, chainFrom]
      cases hop : operatorAt? l tokens with
      | none => rfl
      | some op =>
        simp only
        cases hread : operand tokens.tail with
        | error error => rfl
        | ok result =>
          rcases result with ⟨rhs, rest⟩
          have hlength := hoperand hread
          rcases operatorAt?_eq_some.mp hop with ⟨s, place, after, -, rfl⟩
          simp only [List.tail_cons, List.length_cons] at hlength hn hm
          have hn' : rest.length ≤ n := by omega
          have hm' : rest.length ≤ m := by omega
          exact ih m _ hn' hm'

variable [Numeric α]

/-! ## Variables -/

/-- Indices are read up to the closing bracket behind them. -/
theorem IndexList.indicesFrom_eq {words : List (Token α)} {indices : List Index}
    (h : IndexList words indices) : ∀ (steps place : Nat) (rest : List (Token α)),
      words.length ≤ steps →
      indicesFrom steps (words ++ ⟨.symbol .rightBracket, place⟩ :: rest) = .ok (indices, rest) := by
  induction h with
  | last spelled =>
    intro steps place rest hsteps
    rcases Nat.exists_eq_add_of_le' hsteps with ⟨steps, rfl⟩
    simp [indicesFrom_cons, index_eq_ok.mpr spelled]
  | more spelled comma _ ih =>
    intro steps place rest hsteps
    rcases Nat.exists_eq_add_of_le' (Nat.one_le_of_lt hsteps) with ⟨steps, rfl⟩
    simp only [List.length_cons] at hsteps
    have hothers := ih steps place rest (by omega)
    simp [indicesFrom_cons, index_eq_ok.mpr spelled, hothers]

/-- What stands behind a name is read, unless a bracket follows. -/
theorem Brackets.indices_eq {words : List (Token α)} {indices : List Index}
    (h : Brackets words indices) {rest : List (Token α)}
    (hrest : strength rest < Category.primary.rank) :
    Parser.indices (words ++ rest) = .ok (indices, rest) := by
  cases h with
  | none =>
    have hbracket := startsWith_of_strength_ne (s := .leftBracket) (Nat.ne_of_lt hrest)
    simp [Parser.indices, hbracket]
  | @some tokens _ left right list =>
    have hlist := list.indicesFrom_eq (tokens.length + (rest.length + 1) + 1) right rest (by omega)
    simp [Parser.indices, hlist]

/-- No parenthesis stands behind a name that is no call. -/
theorem Brackets.startsWith_leftParen {words : List (Token α)} {indices : List Index}
    (h : Brackets words indices) {rest : List (Token α)}
    (hrest : strength rest < Category.primary.rank) :
    startsWith .leftParen (words ++ rest) = false := by
  cases h with
  | none => exact startsWith_of_strength_ne (Nat.ne_of_lt hrest)
  | some left right list => rfl

/-! ## Categories -/

/-- The reader of a category, where the given number of productions may be opened. -/
def Category.parser : Category → Nat → Parser α (Expr α)
  | conditional, depth => expression depth
  | level l, depth =>
    (levels.dropWhile (· ≠ l)).foldr chain
      (Parser.power (Parser.unary (operand depth) (expression depth)) (exponent depth))
  | power, depth => Parser.power (Parser.unary (operand depth) (expression depth)) (exponent depth)
  | unary, depth => Parser.unary (operand depth) (expression depth)
  | primary, depth => Parser.primary (expression depth)
  | arguments function, depth => fun tokens => do
    let (args, rest) ← argumentsFrom (expression depth) tokens.length tokens
    return (.call function args, rest)

/-- The reader of a level chains what its operators join. -/
theorem Category.parser_level (l : Level) (depth : Nat) :
    (Category.level l).parser depth =
      chain l (l.operand.parser depth : Parser α (Expr α)) := by
  cases l <;> rfl

/-- What the reader of an operand takes is an operand. -/
theorem Category.operand_reads (l : Level) (depth : Nat) :
    Reads (α := α) (l.operand.parser depth) (Derives depth l.operand) := by
  rcases expression_exponent_operand_reads (α := α) depth with ⟨hexpression, hexponent, hoperand⟩
  have hpower := power_reads (unary_reads hoperand hexpression) hexponent
  have hmultiplicative : Reads _ (Derives (α := α) depth Level.additive.operand) :=
    chain_reads hpower
  have hadditive : Reads _ (Derives (α := α) depth Level.comparison.operand) :=
    chain_reads hmultiplicative
  have hcomparison : Reads _ (Derives (α := α) depth Level.and.operand) := chain_reads hadditive
  have hand : Reads _ (Derives (α := α) depth Level.or.operand) := chain_reads hcomparison
  cases l with
  | or => exact hand
  | and => exact hcomparison
  | comparison => exact hadditive
  | additive => exact hmultiplicative
  | multiplicative => exact hpower

/-- What it takes for a text of a category to be read as the expression. A text of a level only begins
a chain, which goes on behind it; arguments are read with the parenthesis that closes them. -/
def Complete (depth : Nat) : Category → List (Token α) → Expr α → Prop
  | .level l, words, e => ∀ rest, strength rest < l.operand.rank →
    chain l (l.operand.parser depth) (words ++ rest) =
      chainFrom l (l.operand.parser depth) rest.length e rest
  | .arguments function, words, e => ∀ args, e = .call function args → ∀ steps place rest,
    words.length ≤ steps →
    argumentsFrom (expression depth) steps (words ++ ⟨.symbol .rightParen, place⟩ :: rest) =
      .ok (args, rest)
  | category, words, e => ∀ rest, strength rest < category.rank →
    category.parser depth (words ++ rest) = .ok (e, rest)

/-- A chain stands alone before a token of a smaller strength. -/
theorem Complete.level_eq {depth : Nat} {l : Level} {words : List (Token α)} {e : Expr α}
    (h : Complete depth (.level l) words e) {rest : List (Token α)}
    (hrest : strength rest < l.rank) :
    (Category.level l).parser depth (words ++ rest) = .ok (e, rest) := by
  rw [Category.parser_level, h rest (Nat.lt_trans hrest l.rank_lt_operand)]
  exact chainFrom_of_strength_ne _ _ (Nat.ne_of_lt hrest)

/-- An operand stands alone before an operator of its level. -/
theorem Complete.operand_eq {depth : Nat} {l : Level} {words : List (Token α)} {e : Expr α}
    (h : Complete depth l.operand words e) {rest : List (Token α)}
    (hrest : strength rest < l.operand.rank) :
    l.operand.parser depth (words ++ rest) = .ok (e, rest) := by
  cases l with
  | multiplicative => exact h rest hrest
  | _ => exact h.level_eq hrest

/-- No unary operator is at the front of a primary expression. -/
theorem Derives.unaryAt?_eq_none {depth : Nat} {words : List (Token α)} {e : Expr α}
    (h : Derives depth .primary words e) (rest : List (Token α)) :
    unaryAt? (words ++ rest) = none := by
  cases h <;> rfl

/-- The closing parenthesis is not at the front of an expression. -/
theorem Derives.startsWith_rightParen {depth : Nat} {category : Category}
    {words : List (Token α)} {e : Expr α} (h : Derives depth category words e) :
    ∀ rest, startsWith .rightParen (words ++ rest) = false := by
  induction h with
  | unconditional _ ih => exact ih
  | conditional question colon _ _ _ ihc => exact fun rest => by simpa using ihc _
  | operand _ ih => exact ih
  | joined place operator _ _ ihl => exact fun rest => by simpa using ihl _
  | base _ ih => exact ih
  | raised place _ _ ihb => exact fun rest => by simpa using ihb _
  | plain _ ih => exact ih
  | applied op place _ _ => cases op <;> exact fun rest => rfl
  | lastArgument _ ih => exact ih
  | argument place _ _ ihe => exact fun rest => by simpa using ihe _
  | _ => exact fun rest => rfl

/-- An expression is read with one production less left to open in its parts. -/
theorem expression_succ (depth : Nat) :
    (expression (depth + 1) : Parser α (Expr α)) =
      Parser.conditional ((Category.level .or).parser depth) (expression depth) := by
  funext tokens
  rw [expression]
  rfl

/-! ## One production at a time -/

namespace Complete

variable {depth : Nat} {words : List (Token α)} {e : Expr α}

/-- Without a question mark behind it, a condition is the whole expression. -/
theorem unconditional (h : Complete depth (.level .or) words e) :
    Complete (depth + 1) .conditional words e := by
  intro rest hrest
  have hquestion := startsWith_of_strength_ne (s := .question) (Nat.ne_of_lt hrest)
  have hinner := h.level_eq (Nat.lt_trans hrest (by decide))
  rw [Category.parser, expression_succ]
  simp [Parser.conditional, hinner, hquestion]

/-- A condition is read up to the question mark, and each branch up to what closes it. -/
theorem conditional {cs ts fs : List (Token α)} {c t f : Expr α} (question colon : Nat)
    (hc : Complete depth (.level .or) cs c) (ht : Complete depth .conditional ts t)
    (hf : Complete depth .conditional fs f) :
    Complete (depth + 1) .conditional
      (cs ++ ⟨.symbol .question, question⟩ :: (ts ++ ⟨.symbol .colon, colon⟩ :: fs))
      (.conditional c t f) := by
  intro rest hrest
  have hcondition : (Category.level .or).parser depth (cs ++ ⟨.symbol .question, question⟩ ::
      (ts ++ ⟨.symbol .colon, colon⟩ :: (fs ++ rest))) =
        .ok (c, ⟨.symbol .question, question⟩ ::
          (ts ++ ⟨.symbol .colon, colon⟩ :: (fs ++ rest))) :=
    hc.level_eq (by simp [symbolStrength, Level.rank])
  have hifTrue : expression depth (ts ++ ⟨.symbol .colon, colon⟩ :: (fs ++ rest)) =
      .ok (t, ⟨.symbol .colon, colon⟩ :: (fs ++ rest)) :=
    ht _ (by simp [symbolStrength, Category.rank])
  have hifFalse : expression depth (fs ++ rest) = .ok (f, rest) := hf rest hrest
  rw [Category.parser, expression_succ]
  simp [Parser.conditional, hcondition, hifTrue, hifFalse]

/-- An operand begins a chain. -/
theorem operand {l : Level} (h : Complete depth l.operand words e) :
    Complete depth (.level l) words e := by
  intro rest hrest
  simp [chain, h.operand_eq hrest]

/-- A chain goes on with an operator of its level and the operand behind it. -/
theorem joined {l : Level} {s : Symbol} {op : BinaryOp} {ls rs : List (Token α)} {lhs rhs : Expr α}
    (place : Nat) (operator : Joins l s op) (hleft : Complete depth (.level l) ls lhs)
    (hright : Complete depth l.operand rs rhs) :
    Complete depth (.level l) (ls ++ ⟨.symbol s, place⟩ :: rs) (.binary op lhs rhs) := by
  intro rest hrest
  have hstrength : symbolStrength s < l.operand.rank := by
    rw [operator.strength_eq]
    exact l.rank_lt_operand
  have hfirst := hleft (⟨.symbol s, place⟩ :: (rs ++ rest)) hstrength
  have hnext := hright.operand_eq hrest
  have hop : operatorAt? l (⟨.symbol s, place⟩ :: (rs ++ rest)) = some op :=
    operatorAt?_eq_some.mpr ⟨s, place, _, operator, rfl⟩
  rw [List.append_assoc, List.cons_append, hfirst, List.length_cons, chainFrom, hop]
  simp only [List.tail_cons, hnext, ok_bind]
  exact chainFrom_steps (fun _ _ _ hread => (Category.operand_reads l depth).length_le hread)
    _ _ _ (by simp) (by simp)

/-- Without a power sign behind it, a base is the whole power. -/
theorem base (h : Complete depth .unary words e) : Complete depth .power words e := by
  intro rest hrest
  have hcaret := startsWith_of_strength_ne (s := .caret) (Nat.ne_of_lt hrest)
  have hbase : Parser.unary (Parser.operand depth) (expression depth) (words ++ rest) =
      .ok (e, rest) := h rest (Nat.lt_trans hrest (by decide))
  simp [Category.parser, Parser.power, hbase, hcaret]

/-- A base is read up to the power sign, and the exponent behind it. -/
theorem raised {bs es : List (Token α)} {b : Expr α} (place : Nat)
    (hb : Complete (depth + 1) .unary bs b) (he : Complete depth .power es e) :
    Complete (depth + 1) .power (bs ++ ⟨.symbol .caret, place⟩ :: es) (.binary .power b e) := by
  intro rest hrest
  have hbase : Parser.unary (Parser.operand (depth + 1)) (expression (depth + 1))
      (bs ++ ⟨.symbol .caret, place⟩ :: (es ++ rest)) =
        .ok (b, ⟨.symbol .caret, place⟩ :: (es ++ rest)) :=
    hb _ (by simp [symbolStrength, Category.rank])
  have hexponent : Parser.exponent (depth + 1) (es ++ rest) = .ok (e, rest) := by
    rw [Parser.exponent]
    exact he rest hrest
  simp [Category.parser, Parser.power, hbase, hexponent]

/-- A primary expression has no operator in front of it. -/
theorem plain (inner : Derives depth .primary words e) (h : Complete depth .primary words e) :
    Complete depth .unary words e := by
  intro rest hrest
  have hprimary : Parser.primary (expression depth) (words ++ rest) = .ok (e, rest) := h rest hrest
  simp [Category.parser, Parser.unary, inner.unaryAt?_eq_none, hprimary]

/-- A unary operator is read with the operand behind it. -/
theorem applied (op : UnaryOp) (place : Nat) (h : Complete depth .unary words e) :
    Complete (depth + 1) .unary (⟨.symbol (unarySymbol op), place⟩ :: words) (.unary op e) := by
  intro rest hrest
  have hop : unaryAt? (⟨.symbol (unarySymbol op), place⟩ :: (words ++ rest)) = some op :=
    unaryAt?_eq_some.mpr ⟨place, _, rfl⟩
  have hoperand : Parser.operand (depth + 1) (words ++ rest) = .ok (e, rest) := by
    rw [Parser.operand]
    exact h rest hrest
  simp [Category.parser, Parser.unary, hop, hoperand]

/-- A name is read with its indices when no parenthesis follows. -/
theorem identifier {indices : List Index} (name : String) (place : Nat)
    (brackets : Brackets words indices) :
    Complete depth .primary (⟨.identifier name, place⟩ :: words) (.reference name indices place) := by
  intro rest hrest
  have hcall : startsWith .leftParen (words ++ rest) = false := brackets.startsWith_leftParen hrest
  simp [Category.parser, primary_identifier, hcall, variableNamed, brackets.indices_eq hrest]

/-- A marked name is read with its indices. -/
theorem reference {indices : List Index} (name : String) (place : Nat)
    (brackets : Brackets words indices) :
    Complete depth .primary (⟨.reference name, place⟩ :: words) (.reference name indices place) := by
  intro rest hrest
  have hcall : startsWith .leftParen (words ++ rest) = false := brackets.startsWith_leftParen hrest
  simp [Category.parser, primary_reference, hcall, variableNamed, brackets.indices_eq hrest]

/-- An expression in parentheses is read up to the closing one. -/
theorem parentheses (left right : Nat) (h : Complete depth .conditional words e) :
    Complete depth .primary
      (⟨.symbol .leftParen, left⟩ :: words ++ [⟨.symbol .rightParen, right⟩]) e := by
  intro rest hrest
  have hinner : expression depth (words ++ ⟨.symbol .rightParen, right⟩ :: rest) =
      .ok (e, ⟨.symbol .rightParen, right⟩ :: rest) :=
    h _ (by simp [symbolStrength, Category.rank])
  simp [Category.parser, primary_leftParen, hinner]

/-- A call is read with its arguments, of which there are some. -/
theorem call {name : String} {function : Builtin} {args : List (Expr α)} (place left right : Nat)
    (callable : Callable name function args.length)
    (list : Derives depth (.arguments function) words (.call function args))
    (h : Complete depth (.arguments function) words (.call function args)) :
    Complete depth .primary
      (⟨.identifier name, place⟩ :: ⟨.symbol .leftParen, left⟩ :: words ++
        [⟨.symbol .rightParen, right⟩])
      (.call function args) := by
  intro rest hrest
  rcases callable_iff.mp callable with ⟨known, accepted⟩
  have hstart := list.startsWith_rightParen (⟨.symbol .rightParen, right⟩ :: rest)
  have hargs := h args rfl (words.length + (rest.length + 1)) right rest (by omega)
  simp [Category.parser, primary_identifier, callNamed, known, Parser.arguments, hstart, hargs,
    accepted]

/-- The last argument is read up to the closing parenthesis. -/
theorem lastArgument {function : Builtin} (inner : Derives depth .conditional words e)
    (h : Complete depth .conditional words e) :
    Complete depth (.arguments function) words (.call function [e]) := by
  intro args hargs steps right rest hsteps
  obtain rfl : [e] = args := by simpa using hargs
  have hpositive := List.length_pos_iff.mpr inner.ne_nil
  rcases Nat.exists_eq_add_of_le' (Nat.le_trans hpositive hsteps) with ⟨steps, rfl⟩
  have hinner : expression depth (words ++ ⟨.symbol .rightParen, right⟩ :: rest) =
      .ok (e, ⟨.symbol .rightParen, right⟩ :: rest) :=
    h _ (by simp [symbolStrength, Category.rank])
  simp [argumentsFrom, hinner]

/-- An argument is read up to its comma, and the others behind it. -/
theorem argument {function : Builtin} {es : List (Token α)} {args : List (Expr α)} (place : Nat)
    (hfirst : Complete depth .conditional es e)
    (hothers : Complete depth (.arguments function) words (.call function args)) :
    Complete depth (.arguments function) (es ++ ⟨.symbol .comma, place⟩ :: words)
      (.call function (e :: args)) := by
  intro all hall steps right rest hsteps
  obtain rfl : e :: args = all := by simpa using hall
  simp only [List.length_append, List.length_cons] at hsteps
  rcases Nat.exists_eq_add_of_le' (Nat.le_trans (Nat.succ_pos _) hsteps) with ⟨steps, rfl⟩
  have hread : expression depth (es ++ ⟨.symbol .comma, place⟩ ::
      (words ++ ⟨.symbol .rightParen, right⟩ :: rest)) =
        .ok (e, ⟨.symbol .comma, place⟩ :: (words ++ ⟨.symbol .rightParen, right⟩ :: rest)) :=
    hfirst _ (by simp [symbolStrength, Category.rank])
  have hmore := hothers args rfl steps right rest (by omega)
  simp [argumentsFrom, hread, hmore]

end Complete

/-- Every text of a category is read as what it is derived as. -/
theorem Derives.complete {depth : Nat} {category : Category} {words : List (Token α)} {e : Expr α}
    (h : Derives depth category words e) : Complete depth category words e := by
  induction h with
  | unconditional _ ih => exact ih.unconditional
  | conditional question colon _ _ _ ihc iht ihf => exact .conditional question colon ihc iht ihf
  | operand _ ih => exact ih.operand
  | joined place operator _ _ ihl ihr => exact .joined place operator ihl ihr
  | base _ ih => exact ih.base
  | raised place _ _ ihb ihe => exact .raised place ihb ihe
  | plain inner ih => exact .plain inner ih
  | applied op place _ ih => exact .applied op place ih
  | number value place => exact fun rest hrest => rfl
  | identifier name place brackets => exact .identifier name place brackets
  | reference name place brackets => exact .reference name place brackets
  | parentheses left right _ ih => exact .parentheses left right ih
  | call place left right callable list ih => exact .call place left right callable list ih
  | lastArgument inner ih => exact .lastArgument inner ih
  | argument place _ _ ihe ih => exact .argument place ihe ih

/-! ## Whole lists of tokens -/

/-- An expression is read from a list of tokens when it is read from the front and the text ends
behind it. -/
theorem ofTokens_eq_ok {tokens : List (Token α)} {e : Expr α} :
    ofTokens tokens = .ok e ↔
      ∃ rest, expression maxDepth tokens = .ok (e, rest) ∧ isEnd (current rest) = true := by
  simp only [ofTokens, bind_eq_ok]
  constructor
  · rintro ⟨⟨found, rest⟩, hread, h⟩
    refine ⟨rest, ?_⟩
    simp only at h
    split at h
    · rename_i hend
      obtain rfl : found = e := by simpa using h
      exact ⟨hread, by simp [isEnd, hend]⟩
    · simp at h
  · rintro ⟨rest, hread, hend⟩
    refine ⟨(e, rest), hread, ?_⟩
    simp only [isEnd] at hend
    split at hend
    · rename_i hkind
      simp [hkind]
    · simp at hend

/-- A text is derived as one expression only, however much may be opened. -/
theorem Derives.unique {depth depth' : Nat} {words : List (Token α)} {e e' : Expr α}
    (h : Derives depth .conditional words e) (h' : Derives depth' .conditional words e') :
    e' = e := by
  have hread : expression (max depth depth') (words ++ []) = .ok (e, []) :=
    (h.mono (Nat.le_max_left depth depth')).complete [] Nat.zero_lt_one
  have hread' : expression (max depth depth') (words ++ []) = .ok (e', []) :=
    (h'.mono (Nat.le_max_right depth depth')).complete [] Nat.zero_lt_one
  rw [hread] at hread'
  simpa using hread'.symm

/-- The parser reads exactly the expressions of the grammar. A list of tokens is read as an expression
when the tokens before the end of the text are derived as it, nowhere under more than 256 nested
productions, and then no other expression is derived from them. -/
theorem ofTokens_eq_ok_iff (tokens : List (Token α)) (e : Expr α) :
    ofTokens tokens = .ok e ↔
      Derives 256 .conditional (tokens.takeWhile fun token => !isEnd token) e ∧
        ∀ depth e', Derives depth .conditional (tokens.takeWhile fun token => !isEnd token) e' →
          e' = e := by
  rw [ofTokens_eq_ok]
  constructor
  · rintro ⟨rest, hread, hend⟩
    rcases expression_reads maxDepth hread with ⟨words, rfl, hderives⟩
    have hwords : (words ++ rest).takeWhile (fun token => !isEnd token) = words := by
      rw [List.takeWhile_append_of_pos (by simpa using hderives.no_end), takeWhile_of_isEnd hend,
        List.append_nil]
    rw [hwords]
    exact ⟨hderives, fun depth e' h' => hderives.unique h'⟩
  · rintro ⟨hderives, -⟩
    have hend := isEnd_dropWhile tokens
    have hstrength := strength_of_isEnd hend
    have hread : expression maxDepth (tokens.takeWhile (fun token => !isEnd token) ++
        tokens.dropWhile fun token => !isEnd token) =
          .ok (e, tokens.dropWhile fun token => !isEnd token) :=
      hderives.complete _ (by rw [hstrength]; exact Nat.zero_lt_one)
    rw [List.takeWhile_append_dropWhile] at hread
    exact ⟨_, hread, hend⟩

end Parser
end DiscreteChoice
