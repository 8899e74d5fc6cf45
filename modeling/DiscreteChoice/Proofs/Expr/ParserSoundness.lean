import DiscreteChoice.Proofs.Expr.Grammar
import DiscreteChoice.Proofs.Outcome

/-!
# What the parser reads is in the grammar

Every reader of a production takes tokens from the front that the production derives, and leaves the
others as they are.

Main results:

- Theorem `expression_reads`: what is read as an expression is derived as one, with as many
  productions left to open.
- Theorem `Reads.length_le`: no reader leaves more than it was given.
-/

namespace DiscreteChoice
namespace Parser

variable {α β : Type}

/-- A reader takes tokens from the front that stand for its result. -/
def Reads (parser : Parser α β) (derives : List (Token α) → β → Prop) : Prop :=
  ∀ ⦃tokens rest : List (Token α)⦄ ⦃value : β⦄, parser tokens = .ok (value, rest) →
    ∃ words, tokens = words ++ rest ∧ derives words value

/-- No reader leaves more than it was given. -/
theorem Reads.length_le {parser : Parser α β} {derives : List (Token α) → β → Prop}
    (h : Reads parser derives) {tokens rest : List (Token α)} {value : β}
    (hread : parser tokens = .ok (value, rest)) : rest.length ≤ tokens.length := by
  rcases h hread with ⟨words, rfl, -⟩
  simp

/-! ## The token at the front -/

/-- A symbol is at the front when the tokens start with it. -/
theorem startsWith_iff {s : Symbol} {tokens : List (Token α)} :
    startsWith s tokens = true ↔ ∃ place rest, tokens = ⟨.symbol s, place⟩ :: rest := by
  constructor
  · intro h
    rcases tokens with _ | ⟨⟨kind, place⟩, rest⟩
    · simp [startsWith, current] at h
    · cases kind <;> simp_all [startsWith, current]
  · rintro ⟨place, rest, rfl⟩
    simp [startsWith, current]

/-- A required symbol is taken from the front. -/
theorem expect_eq_ok {s : Symbol} {tokens rest : List (Token α)} {value : Unit} :
    expect s tokens = .ok (value, rest) ↔ ∃ place, tokens = ⟨.symbol s, place⟩ :: rest := by
  constructor
  · intro h
    unfold expect at h
    split at h
    · rename_i hstart
      rcases startsWith_iff.mp hstart with ⟨place, others, rfl⟩
      simp only [List.tail_cons, Except.ok.injEq, Prod.mk.injEq, true_and] at h
      exact ⟨place, by rw [h]⟩
    · simp [failHere] at h
  · rintro ⟨place, rfl⟩
    simp [expect, startsWith, current]

@[simp] theorem startsWith_cons (s found : Symbol) (place : Nat) (rest : List (Token α)) :
    startsWith s (⟨.symbol found, place⟩ :: rest) = (found == s) := rfl

@[simp] theorem expect_cons (s : Symbol) (place : Nat) (rest : List (Token α)) :
    expect s (⟨.symbol s, place⟩ :: rest) = .ok ((), rest) :=
  expect_eq_ok.mpr ⟨place, rfl⟩

/-- The parser looks up the operators that join the operands of a level. -/
theorem operator?_eq_some {level : Level} {s : Symbol} {op : BinaryOp} :
    level.operator? s = some op ↔ Joins level s op := by
  constructor
  · intro h
    cases level <;> cases s <;> cases h <;> constructor
  · intro h
    cases h <;> rfl

/-- An operator of a level at the front is one of its symbols. -/
theorem operatorAt?_eq_some {level : Level} {tokens : List (Token α)} {op : BinaryOp} :
    operatorAt? level tokens = some op ↔
      ∃ s place rest, Joins level s op ∧ tokens = ⟨.symbol s, place⟩ :: rest := by
  constructor
  · intro h
    rcases tokens with _ | ⟨⟨kind, place⟩, rest⟩
    · simp [operatorAt?, current] at h
    · cases kind with
      | symbol s => exact ⟨s, place, rest, operator?_eq_some.mp h, rfl⟩
      | _ => simp [operatorAt?, current] at h
  · rintro ⟨s, place, rest, h, rfl⟩
    exact operator?_eq_some.mpr h

/-- The parser looks up the functions that can be called, and counts their arguments. -/
theorem callable_iff {name : String} {function : Builtin} {count : Nat} :
    Callable name function count ↔
      Builtin.ofName? name = some function ∧ function.accepts count = true := by
  rw [Builtin.accepts_iff]
  constructor
  · rintro (_ | _ | _ | pos | pos | pos)
    · exact ⟨by decide, .inl ⟨rfl, rfl⟩⟩
    · exact ⟨by decide, .inl ⟨rfl, rfl⟩⟩
    · exact ⟨by decide, .inl ⟨rfl, rfl⟩⟩
    · exact ⟨by decide, .inr ⟨rfl, pos⟩⟩
    · exact ⟨by decide, .inr ⟨rfl, pos⟩⟩
    · exact ⟨by decide, .inr ⟨rfl, pos⟩⟩
  · rintro ⟨hname, hcount⟩
    have hname : function.name = name := by simpa using List.find?_some hname
    subst hname
    rcases hcount with ⟨hone, rfl⟩ | ⟨hmany, pos⟩
    · cases function with
      | ln => exact .ln
      | exp => exact .exp
      | abs => exact .abs
      | _ => cases hone
    · cases function with
      | max => exact .max pos
      | min => exact .min pos
      | logsum => exact .logsum pos
      | _ => cases hmany

/-- A unary operator at the front is its symbol. -/
theorem unaryAt?_eq_some {tokens : List (Token α)} {op : UnaryOp} :
    unaryAt? tokens = some op ↔
      ∃ place rest, tokens = ⟨.symbol (unarySymbol op), place⟩ :: rest := by
  constructor
  · intro h
    rcases tokens with _ | ⟨⟨kind, place⟩, rest⟩
    · simp [unaryAt?, current] at h
    · cases kind with
      | symbol s => cases s <;> simp_all [unaryAt?, current] <;> subst h <;> rfl
      | _ => simp [unaryAt?, current] at h
  · rintro ⟨place, rest, rfl⟩
    cases op <;> rfl

variable [Numeric α]

/-! ## Variables -/

/-- A token is read as the index that it spells. -/
theorem index_eq_ok {token : Token α} {i : Index} :
    index token = .ok i ↔ SpellsIndex token i := by
  constructor
  · intro h
    rcases token with ⟨kind, place⟩
    cases kind with
    | identifier word =>
      simp only [index] at h
      split at h
      · rename_i found hfound
        rcases Except.ok.inj h with rfl
        have hmem := List.mem_of_find?_eq_some hfound
        have hword : found.text = word := by simpa using List.find?_some hfound
        subst hword
        simp only [List.mem_cons, List.not_mem_nil, or_false] at hmem
        rcases hmem with rfl | rfl | rfl | rfl
        · exact .alternative place
        · exact .origin place
        · exact .destination place
        · exact .period place
      · simp at h
    | number value =>
      simp only [index] at h
      split at h
      · rename_i n hn
        split at h
        · rename_i hsmall
          rcases Except.ok.inj h with rfl
          exact .literal hn hsmall place
        · simp at h
      · simp at h
    | _ => simp [index] at h
  · intro h
    cases h with
    | literal whole small place =>
      simp only [index, whole]
      exact if_pos small
    | _ => rfl

/-- A list of indices starts with an index. -/
theorem indicesFrom_cons (steps : Nat) (token : Token α) (tokens : List (Token α)) :
    indicesFrom (steps + 1) (token :: tokens) = do
      let first ← index token
      if startsWith .comma tokens then
        let (others, rest) ← indicesFrom steps tokens.tail
        return (first :: others, rest)
      else
        let (_, rest) ← expect .rightBracket tokens
        return ([first], rest) := rfl

/-- A list of indices is read up to the closing bracket. -/
theorem indicesFrom_reads (steps : Nat) :
    Reads (α := α) (indicesFrom steps) fun words indices =>
      ∃ list right, words = list ++ [⟨.symbol .rightBracket, right⟩] ∧ IndexList list indices := by
  induction steps with
  | zero =>
    intro tokens rest indices h
    simp [indicesFrom, failHere] at h
  | succ steps ih =>
    intro tokens rest indices h
    rcases tokens with _ | ⟨token, tokens⟩
    · simp [indicesFrom, current, index] at h
    rw [indicesFrom_cons, bind_eq_ok] at h
    rcases h with ⟨first, hfirst, h⟩
    have hspelled := index_eq_ok.mp hfirst
    by_cases hcomma : startsWith .comma tokens = true
    · rcases startsWith_iff.mp hcomma with ⟨place, after, rfl⟩
      simp only [if_pos hcomma, List.tail_cons, bind_eq_ok] at h
      rcases h with ⟨⟨others, left⟩, hothers, h⟩
      simp only [pure_eq_ok, Except.ok.injEq, Prod.mk.injEq] at h
      rcases h with ⟨rfl, rfl⟩
      rcases ih hothers with ⟨_, rfl, list, right, rfl, hlist⟩
      exact ⟨(token :: ⟨.symbol .comma, place⟩ :: list) ++ [⟨.symbol .rightBracket, right⟩],
        by simp, _, right, rfl, .more hspelled place hlist⟩
    · simp only [if_neg hcomma, bind_eq_ok] at h
      rcases h with ⟨⟨value, left⟩, hclose, h⟩
      simp only [pure_eq_ok, Except.ok.injEq, Prod.mk.injEq] at h
      rcases h with ⟨rfl, rfl⟩
      rcases expect_eq_ok.mp hclose with ⟨right, rfl⟩
      exact ⟨[token] ++ [⟨.symbol .rightBracket, right⟩], by simp, _, right, rfl, .last hspelled⟩

/-- What is read behind the name of a variable is nothing or indices in brackets. -/
theorem indices_reads : Reads (α := α) indices Brackets := by
  intro tokens rest value h
  unfold indices at h
  split at h
  · rename_i hstart
    rcases startsWith_iff.mp hstart with ⟨left, after, rfl⟩
    rcases indicesFrom_reads _ h with ⟨_, hafter, list, right, rfl, hlist⟩
    rw [List.tail_cons] at hafter
    exact ⟨_, by simp [hafter], .some left right hlist⟩
  · simp only [Except.ok.injEq, Prod.mk.injEq] at h
    rcases h with ⟨rfl, rfl⟩
    exact ⟨[], rfl, .none⟩

/-! ## Productions -/

variable {depth : Nat}

/-- Arguments are read up to the closing parenthesis. -/
theorem argumentsFrom_reads {argument : Parser α (Expr α)}
    (hargument : Reads argument (Derives depth .conditional)) (function : Builtin) (steps : Nat) :
    Reads (argumentsFrom argument steps) fun words args =>
      ∃ list right, words = list ++ [⟨.symbol .rightParen, right⟩] ∧
        Derives depth (.arguments function) list (.call function args) := by
  induction steps with
  | zero =>
    intro tokens rest args h
    simp [argumentsFrom, failHere] at h
  | succ steps ih =>
    intro tokens rest args h
    simp only [argumentsFrom, bind_eq_ok] at h
    rcases h with ⟨⟨first, after⟩, hfirst, h⟩
    rcases hargument hfirst with ⟨words, rfl, hderives⟩
    simp only at h
    split at h
    · rename_i hcomma
      rcases startsWith_iff.mp hcomma with ⟨place, after, rfl⟩
      simp only [List.tail_cons, bind_eq_ok] at h
      rcases h with ⟨⟨others, left⟩, hothers, h⟩
      simp only [pure_eq_ok, Except.ok.injEq, Prod.mk.injEq] at h
      rcases h with ⟨rfl, rfl⟩
      rcases ih hothers with ⟨_, rfl, list, right, rfl, hlist⟩
      exact ⟨(words ++ ⟨.symbol .comma, place⟩ :: list) ++ [⟨.symbol .rightParen, right⟩],
        by simp, _, right, rfl, .argument place hderives hlist⟩
    · simp only [bind_eq_ok] at h
      rcases h with ⟨⟨value, left⟩, hclose, h⟩
      simp only [pure_eq_ok, Except.ok.injEq, Prod.mk.injEq] at h
      rcases h with ⟨rfl, rfl⟩
      rcases expect_eq_ok.mp hclose with ⟨right, rfl⟩
      exact ⟨words ++ [⟨.symbol .rightParen, right⟩], by simp, _, right, rfl,
        .lastArgument hderives⟩

/-- What is read as a call behind its name is a list of arguments in parentheses, of a number that
the function takes. -/
theorem callNamed_reads {argument : Parser α (Expr α)}
    (hargument : Reads argument (Derives depth .conditional)) (name : String) (place : Nat) :
    Reads (callNamed argument name place) fun words e =>
      Derives depth .primary (⟨.identifier name, place⟩ :: words) e := by
  intro tokens rest e h
  unfold callNamed at h
  split at h
  · simp at h
  · rename_i function hknown
    simp only [bind_eq_ok] at h
    rcases h with ⟨⟨args, left⟩, hargs, h⟩
    simp only [arguments, bind_eq_ok] at hargs
    rcases hargs with ⟨⟨value, after⟩, hopen, hargs⟩
    rcases expect_eq_ok.mp hopen with ⟨leftParen, rfl⟩
    simp only at h hargs
    split at h
    · rename_i haccepts
      simp only [pure_eq_ok, Except.ok.injEq, Prod.mk.injEq] at h
      rcases h with ⟨rfl, rfl⟩
      split at hargs
      · -- no function takes an empty list of arguments
        simp only [pure_eq_ok, Except.ok.injEq, Prod.mk.injEq] at hargs
        rcases hargs with ⟨rfl, -⟩
        cases function <;> simp [Builtin.accepts, Builtin.isUnary] at haccepts
      · rcases argumentsFrom_reads hargument function _ hargs with ⟨_, rfl, list, right, rfl, hlist⟩
        exact ⟨_, by simp, .call place leftParen right (callable_iff.mpr ⟨hknown, haccepts⟩) hlist⟩
    · simp at h

/-- A name at the front is that of a call when a parenthesis follows. -/
theorem primary_identifier (inner : Parser α (Expr α)) (name : String) (place : Nat)
    (tokens : List (Token α)) :
    primary inner (⟨.identifier name, place⟩ :: tokens) =
      if startsWith .leftParen tokens then callNamed inner name place tokens
      else variableNamed name place tokens := rfl

/-- A marked variable cannot be called. -/
theorem primary_reference (inner : Parser α (Expr α)) (name : String) (place : Nat)
    (tokens : List (Token α)) :
    primary inner (⟨.reference name, place⟩ :: tokens) =
      if startsWith .leftParen tokens then .error ⟨place, .notCallable name⟩
      else variableNamed name place tokens := rfl

/-- An expression in parentheses goes up to the closing one. -/
theorem primary_leftParen (inner : Parser α (Expr α)) (place : Nat) (tokens : List (Token α)) :
    primary inner (⟨.symbol .leftParen, place⟩ :: tokens) = do
      let (e, rest) ← inner tokens
      let (_, rest) ← expect .rightParen rest
      return (e, rest) := rfl

/-- What is read as a primary expression is one. -/
theorem primary_reads {inner : Parser α (Expr α)}
    (hinner : Reads inner (Derives depth .conditional)) :
    Reads (primary inner) (Derives depth .primary) := by
  intro tokens rest e h
  rcases tokens with _ | ⟨⟨kind, place⟩, tokens⟩
  · simp [primary, current] at h
  have hvariable {name : String} (h : variableNamed name place tokens = .ok (e, rest)) :
      ∃ words indices, tokens = words ++ rest ∧ Brackets words indices ∧
        e = .reference name indices place := by
    simp only [variableNamed, bind_eq_ok] at h
    rcases h with ⟨⟨indices, left⟩, hindices, h⟩
    simp only [pure_eq_ok, Except.ok.injEq, Prod.mk.injEq] at h
    rcases h with ⟨rfl, rfl⟩
    rcases indices_reads hindices with ⟨words, rfl, hbrackets⟩
    exact ⟨words, indices, rfl, hbrackets, rfl⟩
  cases kind with
  | number value =>
    simp only [primary, current, List.tail_cons, Except.ok.injEq, Prod.mk.injEq] at h
    rcases h with ⟨rfl, rfl⟩
    exact ⟨_, rfl, .number value place⟩
  | identifier name =>
    rw [primary_identifier] at h
    split at h
    · rcases callNamed_reads hinner name place h with ⟨words, rfl, hderives⟩
      exact ⟨_, by simp, hderives⟩
    · rcases hvariable h with ⟨words, indices, rfl, hbrackets, rfl⟩
      exact ⟨_, by simp, .identifier name place hbrackets⟩
  | reference name =>
    rw [primary_reference] at h
    split at h
    · simp at h
    · rcases hvariable h with ⟨words, indices, rfl, hbrackets, rfl⟩
      exact ⟨_, by simp, .reference name place hbrackets⟩
  | symbol s =>
    by_cases hs : s = .leftParen
    · subst hs
      simp only [primary_leftParen, bind_eq_ok] at h
      rcases h with ⟨⟨found, after⟩, hfound, ⟨value, left⟩, hclose, h⟩
      simp only [pure_eq_ok, Except.ok.injEq, Prod.mk.injEq] at h
      rcases h with ⟨rfl, rfl⟩
      rcases hinner hfound with ⟨words, rfl, hderives⟩
      rcases expect_eq_ok.mp hclose with ⟨right, rfl⟩
      exact ⟨_, by simp, .parentheses place right hderives⟩
    · simp [primary, current, hs] at h
  | endOfText => simp [primary, current] at h

/-- What is read as a unary expression is one. Its operand has one production less left to open. -/
theorem unary_reads {operand inner : Parser α (Expr α)}
    (hoperand : Reads operand fun words e => ∃ d, depth = d + 1 ∧ Derives d .unary words e)
    (hinner : Reads inner (Derives depth .conditional)) :
    Reads (unary operand inner) (Derives depth .unary) := by
  intro tokens rest e h
  unfold unary at h
  split at h
  · rcases primary_reads hinner h with ⟨words, rfl, hderives⟩
    exact ⟨words, rfl, .plain hderives⟩
  · rename_i op hop
    rcases unaryAt?_eq_some.mp hop with ⟨place, after, rfl⟩
    simp only [List.tail_cons, bind_eq_ok] at h
    rcases h with ⟨⟨found, left⟩, hfound, h⟩
    simp only [pure_eq_ok, Except.ok.injEq, Prod.mk.injEq] at h
    rcases h with ⟨rfl, rfl⟩
    rcases hoperand hfound with ⟨words, rfl, d, rfl, hderives⟩
    exact ⟨_, by simp, .applied op place hderives⟩

/-- What is read as a power is one. Its exponent has one production less left to open. -/
theorem power_reads {base exponent : Parser α (Expr α)}
    (hbase : Reads base (Derives depth .unary))
    (hexponent : Reads exponent fun words e => ∃ d, depth = d + 1 ∧ Derives d .power words e) :
    Reads (power base exponent) (Derives depth .power) := by
  intro tokens rest e h
  simp only [power, bind_eq_ok] at h
  rcases h with ⟨⟨b, after⟩, hb, h⟩
  rcases hbase hb with ⟨words, rfl, hwords⟩
  simp only at h
  split at h
  · rename_i hcaret
    rcases startsWith_iff.mp hcaret with ⟨place, after, rfl⟩
    simp only [List.tail_cons, bind_eq_ok] at h
    rcases h with ⟨⟨found, left⟩, hfound, h⟩
    simp only [pure_eq_ok, Except.ok.injEq, Prod.mk.injEq] at h
    rcases h with ⟨rfl, rfl⟩
    rcases hexponent hfound with ⟨others, rfl, d, rfl, hothers⟩
    exact ⟨words ++ ⟨.symbol .caret, place⟩ :: others, by simp, .raised place hwords hothers⟩
  · simp only [pure_eq_ok, Except.ok.injEq, Prod.mk.injEq] at h
    rcases h with ⟨rfl, rfl⟩
    exact ⟨words, rfl, .base hwords⟩

/-- What follows a first operand makes it a longer chain, whatever the number of steps. -/
theorem chainFrom_reads {level : Level} {operand : Parser α (Expr α)}
    (hoperand : Reads operand (Derives depth level.operand)) (steps : Nat) :
    ∀ {words : List (Token α)} {lhs : Expr α}, Derives depth (.level level) words lhs →
      ∀ {tokens rest : List (Token α)} {e : Expr α},
        chainFrom level operand steps lhs tokens = .ok (e, rest) →
        ∃ others, tokens = others ++ rest ∧ Derives depth (.level level) (words ++ others) e := by
  induction steps with
  | zero =>
    intro words lhs hlhs tokens rest e h
    simp only [chainFrom, Except.ok.injEq, Prod.mk.injEq] at h
    rcases h with ⟨rfl, rfl⟩
    exact ⟨[], rfl, by simpa using hlhs⟩
  | succ steps ih =>
    intro words lhs hlhs tokens rest e h
    rw [chainFrom] at h
    split at h
    · simp only [Except.ok.injEq, Prod.mk.injEq] at h
      rcases h with ⟨rfl, rfl⟩
      exact ⟨[], rfl, by simpa using hlhs⟩
    · rename_i op hop
      rcases operatorAt?_eq_some.mp hop with ⟨s, place, after, hs, rfl⟩
      simp only [List.tail_cons, bind_eq_ok] at h
      rcases h with ⟨⟨rhs, left⟩, hrhs, h⟩
      rcases hoperand hrhs with ⟨operandWords, rfl, hright⟩
      rcases ih (.joined place hs hlhs hright) h with ⟨others, rfl, hothers⟩
      exact ⟨⟨.symbol s, place⟩ :: operandWords ++ others, by simp, by simpa using hothers⟩

/-- What is read as a chain is one. -/
theorem chain_reads {level : Level} {operand : Parser α (Expr α)}
    (hoperand : Reads operand (Derives depth level.operand)) :
    Reads (chain level operand) (Derives depth (.level level)) := by
  intro tokens rest e h
  simp only [chain, bind_eq_ok] at h
  rcases h with ⟨⟨first, after⟩, hfirst, h⟩
  rcases hoperand hfirst with ⟨words, rfl, hwords⟩
  rcases chainFrom_reads hoperand _ (.operand hwords) h with ⟨others, rfl, hothers⟩
  exact ⟨words ++ others, by simp, hothers⟩

/-- What is read as an expression with a condition, or without one, is one. -/
theorem conditional_reads {condition branch : Parser α (Expr α)}
    (hcondition : Reads condition (Derives depth (.level .or)))
    (hbranch : Reads branch (Derives depth .conditional)) :
    Reads (conditional condition branch) (Derives (depth + 1) .conditional) := by
  intro tokens rest e h
  simp only [conditional, bind_eq_ok] at h
  rcases h with ⟨⟨c, after⟩, hc, h⟩
  rcases hcondition hc with ⟨cs, rfl, hcs⟩
  simp only at h
  split at h
  · rename_i hquestion
    rcases startsWith_iff.mp hquestion with ⟨question, after, rfl⟩
    simp only [List.tail_cons, bind_eq_ok] at h
    rcases h with ⟨⟨t, after⟩, ht, ⟨value, left⟩, hcolon, ⟨f, last⟩, hf, h⟩
    simp only [pure_eq_ok, Except.ok.injEq, Prod.mk.injEq] at h
    rcases h with ⟨rfl, rfl⟩
    rcases hbranch ht with ⟨ts, rfl, hts⟩
    rcases expect_eq_ok.mp hcolon with ⟨colon, rfl⟩
    rcases hbranch hf with ⟨fs, rfl, hfs⟩
    exact ⟨cs ++ ⟨.symbol .question, question⟩ :: (ts ++ ⟨.symbol .colon, colon⟩ :: fs), by simp,
      .conditional question colon hcs hts hfs⟩
  · simp only [pure_eq_ok, Except.ok.injEq, Prod.mk.injEq] at h
    rcases h with ⟨rfl, rfl⟩
    exact ⟨cs, rfl, .unconditional hcs⟩

/-- What is read where a production opens is in the grammar, with one production less left to open
below it. -/
theorem expression_exponent_operand_reads (depth : Nat) :
    Reads (α := α) (expression depth) (Derives depth .conditional) ∧
    Reads (α := α) (exponent depth) (fun words e => ∃ d, depth = d + 1 ∧ Derives d .power words e) ∧
    Reads (α := α) (operand depth)
      (fun words e => ∃ d, depth = d + 1 ∧ Derives d .unary words e) := by
  induction depth with
  | zero =>
    refine ⟨?_, ?_, ?_⟩ <;> intro tokens rest e h
    · simp [expression, failHere] at h
    · simp [exponent, failHere] at h
    · simp [operand, failHere] at h
  | succ depth ih =>
    rcases ih with ⟨hexpression, hexponent, hoperand⟩
    have hunary := unary_reads hoperand hexpression
    have hpower := power_reads hunary hexponent
    refine ⟨?_, ?_, ?_⟩ <;> intro tokens rest e h
    · rw [expression] at h
      have hlevels : Reads (levels.foldr chain (power (unary (operand depth) (expression depth))
          (exponent depth))) (Derives (α := α) depth (.level .or)) :=
        chain_reads (chain_reads (chain_reads (chain_reads (chain_reads hpower))))
      exact conditional_reads hlevels hexpression h
    · rw [exponent] at h
      rcases hpower h with ⟨words, rfl, hwords⟩
      exact ⟨words, rfl, depth, rfl, hwords⟩
    · rw [operand] at h
      rcases hunary h with ⟨words, rfl, hwords⟩
      exact ⟨words, rfl, depth, rfl, hwords⟩

/-- What is read as an expression is derived as one, with as many productions left to open. -/
theorem expression_reads (depth : Nat) :
    Reads (α := α) (expression depth) (Derives depth .conditional) :=
  (expression_exponent_operand_reads depth).1

end Parser
end DiscreteChoice
