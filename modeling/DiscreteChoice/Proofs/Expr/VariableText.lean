import DiscreteChoice.Proofs.Expr.ParserCompleteness

/-!
# The texts of variables

A variable is spelled as its name, with or without an at sign in front, and with indices in brackets
behind it. Every name that can be declared is read as one word, whatever stands behind it that is
not part of a name.

Main results:

- Theorem `Token.isNameStart_spec`: a name starts unlike a blank, a number and a marked variable.
- Theorems `Token.tokensFrom_name` and `Token.tokensFrom_marked`: a name is read as one word.
- Theorem `Expr.ofText_of_brackets`: a variable is read with its indices.
-/

namespace DiscreteChoice

variable {α : Type} [Numeric α]

namespace Token

/-! ## Names -/

/-- A character that starts a name is neither blank, nor part of a number, nor the mark of a
variable. -/
theorem isNameStart_spec {c : Char} (h : isNameStart c = true) :
    Text.isBlank c = false ∧ Decimal.isDigit c = false ∧ c ≠ '.' ∧ c ≠ '@' := by
  have hrange : c.toNat = 95 ∨ 65 ≤ c.toNat ∧ c.toNat ≤ 90 ∨ 97 ≤ c.toNat ∧ c.toNat ≤ 122 := by
    simp only [isNameStart, Bool.or_eq_true, Bool.and_eq_true, decide_eq_true_eq, Char.le_def,
      UInt32.le_iff_toNat_le] at h
    rcases h with (h | h) | rfl
    · exact .inr (.inr h)
    · exact .inr (.inl h)
    · exact .inl rfl
  refine ⟨?_, ?_, ?_, ?_⟩
  · simp [Text.isBlank, Text.blankCodePoints]
    omega
  · rw [Bool.eq_false_iff]
    intro hdigit
    simp only [Decimal.isDigit, Bool.and_eq_true, decide_eq_true_eq, Char.le_def,
      UInt32.le_iff_toNat_le] at hdigit
    have hnine : c.toNat ≤ 57 := hdigit.2
    omega
  · rintro rfl
    revert hrange
    decide
  · rintro rfl
    revert hrange
    decide

/-- The characters of a name: one that starts it, and those behind it. -/
theorem exists_of_isName {name : String} (h : isName name = true) :
    ∃ c cs, name.toList = c :: cs ∧ isNameStart c = true ∧ cs.all isNamePart = true := by
  rw [isName] at h
  split at h
  · cases h
  · rename_i c cs hchars
    exact ⟨c, cs, hchars, by simpa using h⟩

/-- What is part of a name ends where the next text is not part of one. -/
theorem takeWhile_isNamePart {cs rest : List Char} (hcs : cs.all isNamePart = true)
    (hrest : rest.head?.any isNamePart = false) : (cs ++ rest).takeWhile isNamePart = cs := by
  have hnone : rest.takeWhile isNamePart = [] := by
    cases rest with
    | nil => rfl
    | cons c rest => simpa using hrest
  rw [List.takeWhile_append_of_pos (by simpa using hcs), hnone, List.append_nil]

/-- A name is read as one word. -/
theorem tokensFrom_name {name : String} (hname : isName name = true) {rest : List Char}
    (hrest : rest.head?.any isNamePart = false) (position : Nat) :
    (tokensFrom position (name.toList ++ rest) : Except (SyntaxError α) (List (Token α))) = do
      let tokens ← tokensFrom (position + name.length) rest
      return ⟨.identifier name, position⟩ :: tokens := by
  rcases exists_of_isName hname with ⟨c, cs, hchars, hstart, hparts⟩
  rcases isNameStart_spec hstart with ⟨hblank, hdigit, hpoint, -⟩
  have hword : lexeme c (cs ++ rest) = (.word (.identifier name) cs.length : Lexeme α) := by
    have hspelled : String.ofList (c :: cs) = name := by rw [← hchars, String.ofList_toList]
    simp [lexeme, hblank, hdigit, hpoint, hstart, takeWhile_isNamePart hparts hrest, hspelled]
  have hlength : name.length = cs.length + 1 := by
    rw [← String.length_toList, hchars, List.length_cons]
  rw [hchars, List.cons_append, tokensFrom, hword]
  simp only [List.drop_left, hlength]
  rw [Nat.add_right_comm, Nat.add_assoc]

/-- A name behind an at sign is read as one word with it. -/
theorem tokensFrom_marked {name : String} (hname : isName name = true) {rest : List Char}
    (hrest : rest.head?.any isNamePart = false) (position : Nat) :
    (tokensFrom position ('@' :: name.toList ++ rest) :
      Except (SyntaxError α) (List (Token α))) = do
      let tokens ← tokensFrom (position + 1 + name.length) rest
      return ⟨.reference name, position⟩ :: tokens := by
  rcases exists_of_isName hname with ⟨c, cs, hchars, hstart, hparts⟩
  have hall : name.toList.all isNamePart = true := by
    rw [hchars, List.all_cons, hparts, isNamePart, hstart]
    rfl
  have hword : lexeme '@' (name.toList ++ rest) =
      (.word (.reference name) name.length : Lexeme α) := by
    have hhead : (name.toList ++ rest).head?.any isNameStart = true := by simp [hchars, hstart]
    have hmark : Text.isBlank '@' = false ∧ Decimal.isDigit '@' = false ∧
        isNameStart '@' = false := by decide
    rw [lexeme, hmark.1, hmark.2.1, hmark.2.2, hhead, takeWhile_isNamePart hall hrest]
    simp [String.length_toList]
  rw [List.cons_append, tokensFrom, hword]
  simp only [← String.length_toList, List.drop_left]

end Token

/-! ## Variables with indices -/

namespace Parser

/-- What needs no operator between two operands is an expression. -/
theorem Derives.ofUnary {depth : Nat} {tokens : List (Token α)} {e : Expr α}
    (h : Derives depth .unary tokens e) : Derives (depth + 1) .conditional tokens e := by
  have hfactor : Derives depth (.level .multiplicative) tokens e := .operand (.base h)
  have hcomparison : Derives depth (.level .comparison) tokens e :=
    .operand (Derives.operand hfactor : Derives depth (.level .additive) _ _)
  exact .unconditional (.operand (Derives.operand hcomparison : Derives depth (.level .and) _ _))

/-- A variable is derived from the word of its name, marked or not, and the words of its indices. -/
theorem Derives.ofVariable {word : TokenKind α} {name : String}
    (hword : word = .identifier name ∨ word = .reference name) {tokens : List (Token α)}
    {indices : List Index} (brackets : Brackets tokens indices) (place depth : Nat) :
    Derives (depth + 1) .conditional (⟨word, place⟩ :: tokens) (.reference name indices place) := by
  have hprimary : Derives depth .primary (⟨word, place⟩ :: tokens)
      (.reference name indices place) := by
    rcases hword with rfl | rfl
    · exact .identifier name place brackets
    · exact .reference name place brackets
  exact (Derives.plain hprimary).ofUnary

/-- The words of one expression are read as it. -/
theorem Derives.ofTokens_eq {depth : Nat} {words : List (Token α)} {e : Expr α}
    (h : Derives depth .conditional words e) (hdepth : depth ≤ maxDepth) (place : Nat) :
    ofTokens (words ++ [⟨.endOfText, place⟩]) = .ok e :=
  ofTokens_eq_ok.mpr ⟨_, (h.mono hdepth).complete _ Nat.zero_lt_one, rfl⟩

end Parser

open DiscreteChoice.Parser in
/-- A variable is read with its indices, whether it is marked or not. -/
theorem Expr.ofText_of_brackets {name text : String} (hname : Token.isName name = true)
    (hrest : text.toList.head?.any Token.isNamePart = false) {indices : List Index}
    (htext : ∀ position, ∃ words place, Brackets words indices ∧
      Token.tokensFrom position text.toList = .ok (words ++ [(⟨.endOfText, place⟩ : Token α)])) :
    Expr.ofText (name ++ text) = .ok (.reference name indices 0 : Expr α) ∧
      Expr.ofText ("@" ++ name ++ text) = .ok (.reference name indices 0 : Expr α) := by
  constructor
  · rcases htext (0 + name.length) with ⟨words, place, brackets, hwords⟩
    rw [Expr.ofText, Token.ofText, String.toList_append, Token.tokensFrom_name hname hrest, hwords]
    exact (Derives.ofVariable (.inl rfl) brackets 0 0).ofTokens_eq (by decide) place
  · rcases htext (0 + 1 + name.length) with ⟨words, place, brackets, hwords⟩
    have hmarked : ("@" ++ name ++ text).toList = '@' :: name.toList ++ text.toList := by
      rw [String.toList_append, String.toList_append]
      rfl
    rw [Expr.ofText, Token.ofText, hmarked, Token.tokensFrom_marked hname hrest, hwords]
    exact (Derives.ofVariable (.inr rfl) brackets 0 0).ofTokens_eq (by decide) place

end DiscreteChoice
