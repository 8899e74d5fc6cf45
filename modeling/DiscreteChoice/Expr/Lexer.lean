import DiscreteChoice.Decimal.Scan
import DiscreteChoice.Expr.SyntaxError
import DiscreteChoice.Text.Blank

/-!
# From text to tokens

The longest word at each place of a text, white space left out. The last token stands one past the
last character.

Main results:

- Theorem `tokensFrom_ne_nil`: an accepted text has at least the token of its end.
-/

namespace DiscreteChoice
namespace Token

/-- Whether a character can start a name. -/
def isNameStart (c : Char) : Bool :=
  ('a' ≤ c && c ≤ 'z') || ('A' ≤ c && c ≤ 'Z') || c = '_'

/-- Whether a character can stand inside a name. -/
def isNamePart (c : Char) : Bool :=
  isNameStart c || Decimal.isDigit c

/-- Whether a text is a name: a letter or an underscore, then letters, underscores and digits. -/
def isName (s : String) : Bool :=
  match s.toList with
  | [] => false
  | c :: cs => isNameStart c && cs.all isNamePart

/-- What stands at a place of a text. -/
inductive Lexeme (α : Type) where
  | blank
  /-- A word and the number of its characters behind the first. -/
  | word (kind : TokenKind α) (behind : Nat)
  | fault (f : SyntaxFault α)
deriving Repr

variable {α : Type} [Numeric α]

/-- The number at the head of a text. -/
def numberLexeme (c : Char) (rest : List Char) : Lexeme α :=
  let literal := Decimal.scan (c :: rest)
  .word (.number (Numeric.ofDecimal literal.value.digits literal.value.exponent))
    (literal.spelling.length - 1)

/-- The symbol at the head of a text, the longer one if two fit. -/
def symbolLexeme (c : Char) (rest : List Char) : Lexeme α :=
  match Symbol.ofSpelling? (c :: rest.take 1), Symbol.ofSpelling? [c] with
  | some s, _ => .word (.symbol s) (s.spelling.length - 1)
  | none, some s => .word (.symbol s) 0
  | none, none =>
    if c = '=' ∨ c = '&' ∨ c = '|' then .fault (.halfSymbol c) else .fault (.unexpectedCharacter c)

/-- What stands at the head of a text. -/
def lexeme (c : Char) (rest : List Char) : Lexeme α :=
  if Text.isBlank c then .blank
  else if Decimal.isDigit c || (c = '.' && rest.head?.any Decimal.isDigit) then numberLexeme c rest
  else if isNameStart c then
    let behind := rest.takeWhile isNamePart
    .word (.identifier (String.ofList (c :: behind))) behind.length
  else if c = '@' then
    if rest.head?.any isNameStart then
      let name := rest.takeWhile isNamePart
      .word (.reference (String.ofList name)) name.length
    else .fault .variableNameExpected
  else symbolLexeme c rest

/-- The tokens of a text whose first character has the given position. -/
def tokensFrom (position : Nat) (cs : List Char) : Except (SyntaxError α) (List (Token α)) :=
  match cs with
  | [] => .ok [⟨.endOfText, position⟩]
  | c :: rest =>
    match lexeme c rest with
    | .blank => tokensFrom (position + 1) rest
    | .fault f => .error ⟨position, f⟩
    | .word kind behind => do
      let tokens ← tokensFrom (position + 1 + behind) (rest.drop behind)
      return ⟨kind, position⟩ :: tokens
termination_by cs.length
decreasing_by
  · simp
  · simp only [List.length_drop, List.length_cons]; omega

/-- The tokens of an expression, the token of its end last. -/
def ofText (text : String) : Except (SyntaxError α) (List (Token α)) :=
  tokensFrom 0 text.toList

/-- An accepted text has at least the token of its end. -/
theorem tokensFrom_ne_nil {position : Nat} {cs : List Char} {tokens : List (Token α)}
    (h : tokensFrom position cs = .ok tokens) : tokens ≠ [] := by
  induction cs using List.rec generalizing position tokens with
  | nil => simp only [tokensFrom, Except.ok.injEq] at h; simp [← h]
  | cons c rest ih =>
    rw [tokensFrom] at h
    split at h
    · exact ih h
    · cases h
    · rename_i kind behind _
      cases hrest : (tokensFrom (position + 1 + behind) (rest.drop behind) :
          Except (SyntaxError α) (List (Token α))) with
      | error e => simp [hrest, bind, Except.bind] at h
      | ok tail =>
        simp only [hrest, bind, Except.bind, pure, Except.pure, Except.ok.injEq] at h
        simp [← h]

end Token
end DiscreteChoice
