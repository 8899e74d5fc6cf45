import DiscreteChoice.Formula.Basic
import DiscreteChoice.Proofs.Expr.Scanning
import DiscreteChoice.Proofs.Expr.VariableText
import DiscreteChoice.Proofs.Numeric.DoublePrinting

/-!
# The source of a constant formula

The source of a constant formula is the text of its number. The sign is not part of the word of a number:
it is read as an operator on the number behind it, and the two are replaced by their value when the
formula is folded. What is left is the constant that the source was written for.

Main results:

- Theorem `Expr.ofText_literal`: how a literal is read, alone and behind a minus sign.
- Theorem `Formula.compile_signed`: a literal with a sign is compiled to a constant.
- Theorem `Formula.compile_source_constant`: the source of a constant formula is compiled to it.
-/

namespace DiscreteChoice

open Decimal

variable {α : Type} [Numeric α] {cs : List Char} {d : Decimal}

namespace Token

/-- A literal is one word, and nothing follows it. -/
theorem tokensFrom_literal (h : IsLiteral cs d) (position : ℕ) :
    tokensFrom position cs =
      .ok [⟨.number (Numeric.ofDecimal d.digits d.exponent), position⟩,
        (⟨.endOfText, position + cs.length⟩ : Token α)] := by
  have hlongest : IsLongest (.number (Numeric.ofDecimal d.digits d.exponent) : TokenKind α) cs cs :=
    ⟨.number h, List.prefix_rfl, fun _ hstands => hstands.length_le⟩
  rw [tokensFrom_of_isLongest hlongest, List.drop_length, tokensFrom]
  rfl

/-- A minus sign is a word of its own. -/
theorem isLongest_minus (rest : List Char) :
    IsLongest (.symbol .minus : TokenKind α) ['-'] ('-' :: rest) where
  spells := .symbol .minus
  isPrefix := List.prefix_append ['-'] rest
  length_le {other kind} hother hstands := by
    have hclass := hother.classAt_eq hstands
    have hsymbol : classAt '-' rest = .symbol := by simp [classAt, isDigit, isNameStart]
    rw [hsymbol] at hclass
    cases hother with
    | symbol spelled =>
      cases spelled <;> first | exact le_rfl | simp at hstands
    | _ => cases hclass

end Token

namespace Parser

/-- The word of a number is a constant. -/
theorem ofTokens_number (x : α) (place stop : ℕ) :
    ofTokens [⟨.number x, place⟩, ⟨.endOfText, stop⟩] = .ok (.constant x) := by
  have hderives : Derives 1 .conditional [⟨.number x, place⟩] (.constant x) :=
    (Derives.plain (.number x place)).ofUnary
  exact hderives.ofTokens_eq (by decide) stop

/-- The word of a number behind a minus sign is the opposite of a constant. -/
theorem ofTokens_opposite (x : α) (sign place stop : ℕ) :
    ofTokens [⟨.symbol .minus, sign⟩, ⟨.number x, place⟩, ⟨.endOfText, stop⟩] =
      .ok (.unary .negate (.constant x)) := by
  have hderives : Derives 2 .conditional [⟨.symbol .minus, sign⟩, ⟨.number x, place⟩]
      (.unary .negate (.constant x)) :=
    (Derives.applied .negate sign (.plain (.number x place))).ofUnary
  exact hderives.ofTokens_eq (by decide) stop

end Parser

/-- A literal is read as a constant, and behind a minus sign as the opposite of one. -/
theorem Expr.ofText_literal (h : IsLiteral cs d) :
    Expr.ofText (String.ofList cs) =
        .ok (.constant (Numeric.ofDecimal d.digits d.exponent) : Expr α) ∧
      Expr.ofText ("-" ++ String.ofList cs) =
        .ok (.unary .negate (.constant (Numeric.ofDecimal d.digits d.exponent)) : Expr α) := by
  constructor
  · rw [Expr.ofText, Token.ofText, String.toList_ofList, Token.tokensFrom_literal h]
    exact Parser.ofTokens_number _ 0 (0 + cs.length)
  · have hchars : ("-" ++ String.ofList cs).toList = '-' :: cs := by
      rw [String.toList_append, String.toList_ofList, String.toList_ofList]
      rfl
    rw [Expr.ofText, Token.ofText, hchars, Token.tokensFrom_of_isLongest (Token.isLongest_minus cs),
      List.length_singleton, List.drop_one, List.tail_cons, Token.tokensFrom_literal h]
    exact Parser.ofTokens_opposite _ 0 (0 + 1) (0 + 1 + cs.length)

namespace Formula

/-- A literal is compiled to a constant, and with a minus sign to the opposite constant. -/
theorem compile_literal (h : IsLiteral cs d) (schema : Schema α) :
    compile (String.ofList cs) schema =
        .ok ⟨String.ofList cs, .constant (Numeric.ofDecimal d.digits d.exponent)⟩ ∧
      compile ("-" ++ String.ofList cs) schema =
        .ok ⟨"-" ++ String.ofList cs, .constant (-Numeric.ofDecimal d.digits d.exponent)⟩ := by
  rcases Expr.ofText_literal (α := α) h with ⟨hplain, hopposite⟩
  constructor
  · rw [compile, hplain]
    rfl
  · rw [compile, hopposite]
    rfl

/-- The text of a finite double is maybe a minus sign, and digits, and maybe a point with more
digits. -/
theorem exists_digits_source {v : Float} (hv : v.isFinite = true) :
    ∃ whole point fraction, AreDigits whole ∧ whole ≠ [] ∧ IsFraction point fraction ∧
      (constant v).source =
        (if (Double.parts v).negative then "-" else "") ++ String.ofList (whole ++ point) ∧
      toReal ⟨digitsValue (whole ++ fraction), -fraction.length⟩ = (Double.toDecimal v).toReal := by
  rcases exists_digits_positional (Double.toDecimal v) with
    ⟨whole, point, fraction, htext, isWhole, ne_nil, isFraction, hvalue⟩
  refine ⟨whole, point, fraction, isWhole, ne_nil, isFraction, ?_, hvalue⟩
  have hdefined : v.isNaN = false := ((Double.isFinite_iff v).mp hv).1
  change Double.text positional v = _
  simp only [Double.text, hdefined, hv, Bool.false_eq_true, if_false, if_true, ← htext]
  split
  · rfl
  · exact String.empty_append.symm

/-- The source of a constant formula is maybe a minus sign, and digits, and maybe a point with more
digits. Against every schema it is compiled to the formula that it was written for, with the same bits of
the value, those of the two zeros included. -/
theorem compile_source_constant (v : Float) (hv : v.isFinite = true) (schema : Schema Float) :
    (∃ sign whole point fraction, (sign = "" ∨ sign = "-") ∧ AreDigits whole ∧ whole ≠ [] ∧
      IsFraction point fraction ∧ (constant v).source = sign ++ String.ofList (whole ++ point)) ∧
    compile (constant v).source schema = .ok (constant v) ∧
      (constant v).value?.map Float.toBits = some v.toBits := by
  rcases exists_digits_source hv with
    ⟨whole, point, fraction, isWhole, ne_nil, isFraction, hsource, hvalue⟩
  have hback := Double.eq_of_toReal_eq hv hvalue
  rcases compile_literal (isLiteral_of_digits isWhole isFraction ne_nil) schema with
    ⟨hplain, hopposite⟩
  refine ⟨⟨_, whole, point, fraction, ?_, isWhole, ne_nil, isFraction, hsource⟩, ?_, rfl⟩
  · split
    · exact .inr rfl
    · exact .inl rfl
  · have hsame {text : String} {x : Float} (htext : (constant v).source = text) (hx : v = x) :
        (⟨text, .constant x⟩ : Formula Float) = constant v := by
      rw [← htext, ← hx]
      rfl
    cases hnegative : (Double.parts v).negative with
    | true =>
      rw [hnegative, if_pos rfl] at hsource hback
      rw [← hsame hsource hback, hopposite]
      rfl
    | false =>
      rw [hnegative, if_neg Bool.false_ne_true] at hsource hback
      rw [String.empty_append] at hsource
      rw [← hsame hsource hback, hplain]
      rfl

/-- Negative zero is compiled from its source. -/
theorem compile_source_negativeZero :
    (-0 : Float).isFinite = true ∧ (constant (-0 : Float)).source = "-0" ∧
      (-0 : Float).toBits ≠ (0 : Float).toBits ∧
      compile "-0" Schema.empty = .ok (constant (-0 : Float)) := by
  have hfinite : (-0 : Float).isFinite = true := by decide
  have hsource : (constant (-0 : Float)).source = "-0" := by decide +kernel
  have hcompile := (compile_source_constant (-0) hfinite Schema.empty).2.1
  rw [hsource] at hcompile
  exact ⟨hfinite, hsource, by decide, hcompile⟩

end Formula
end DiscreteChoice
