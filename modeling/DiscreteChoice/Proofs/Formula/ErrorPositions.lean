import DiscreteChoice.Proofs.Expr.ParserErrors
import DiscreteChoice.Proofs.Formula.Binding

/-!
# Where errors point to

An error of a text points to its end, to the start of one of its words or to the character that no
word starts with. The variables that a text has, and those that an error names, are spelled where they
are said to be.

Main results:

- Theorem `Expr.marks_of_error`: where the text of an expression is refused.
- Theorem `Formula.compile_error_marks`: every error of a text has a position in it, and every variable
  is spelled at its own.
-/

namespace DiscreteChoice

variable {α : Type}

/-- The error says that something is wrong at a position of a text, or that the variable there is not
declared. -/
inductive CompileError.IsAt : CompileError α → Nat → Prop
  | malformed (e : SyntaxError α) : IsAt (.malformed e) e.position
  | unknownVariable (name : String) (position : Nat) : IsAt (.unknownVariable name position) position

/-- A variable is blamed where it stands. -/
theorem Mention.IsBlamed.isAt {schema : Schema α} {m : Mention} {error : CompileError α}
    (h : m.IsBlamed schema error) : error.IsAt m.position := by
  cases h with
  | undeclared _ => exact .unknownVariable m.name m.position
  | @misfit _ fault _ _ _ => exact .malformed ⟨m.position, fault⟩

variable [Numeric α] {text : String}

namespace Token

/-- A place of a text that an error may point to: the end, the start of a word, or a character that no
word starts with. -/
inductive Marks (α : Type) [Numeric α] (text : String) : Nat → Prop
  | finish : Marks α text text.length
  | word {words : List (Occurrence α)} (covers : Covers text.toList 0 text.length words)
      {w : Occurrence α} (mem : w ∈ words) : Marks α text w.start
  | stop {words : List (Occurrence α)} {place : Nat} (covers : Covers text.toList 0 place words)
      {c : Char} (stands : text.toList[place]? = some c) (notBlank : Text.isBlank c = false)
      (startsNone : StartsNone α (text.toList.drop place)) : Marks α text place

/-- No such place is behind the end of the text. -/
theorem Marks.le_length {place : Nat} (h : Marks α text place) : place ≤ text.length := by
  cases h with
  | finish => exact le_rfl
  | word covers mem => exact le_trans (covers.start_lt_stop mem).le (covers.within _ mem).2
  | stop covers stands notBlank startsNone =>
    rw [← String.length_toList]
    exact (List.getElem?_eq_some_iff.mp stands).1.le

/-- Every token of a text is at such a place. -/
theorem marks_of_mem {tokens : List (Token α)} (h : ofText text = .ok tokens) {token : Token α}
    (htoken : token ∈ tokens) : Marks α text token.position := by
  rcases exists_words_of_ofText h with ⟨words, hcovers, rfl⟩
  rcases List.mem_append.mp htoken with hword | hend
  · rcases List.mem_map.mp hword with ⟨w, hw, rfl⟩
    exact .word hcovers hw
  · rcases List.mem_singleton.mp hend with rfl
    exact .finish

/-- A text is refused as such at a character that no word starts with. -/
theorem marks_of_error {e : SyntaxError α}
    (h : (ofText text : Except (SyntaxError α) (List (Token α))) = .error e) :
    Marks α text e.position := by
  rcases ofText_cases (α := α) text with
    ⟨_, _, heq⟩ | ⟨place, words, c, hcovers, hc, hblank, hnone, heq⟩
  · cases h.symm.trans heq
  · rw [Except.error.inj (h.symm.trans heq)]
    exact .stop hcovers hc hblank hnone

/-- The tokens of a text have its end among them. -/
theorem exists_isEnd {tokens : List (Token α)} (h : ofText text = .ok tokens) :
    ∃ token ∈ tokens, Parser.isEnd token = true := by
  rcases exists_words_of_ofText h with ⟨words, -, rfl⟩
  exact ⟨_, List.mem_append_right _ (List.mem_singleton_self _), rfl⟩

end Token

namespace Expr

/-- The text of an expression is refused at its end, at one of its words, or at a character that no
word starts with. -/
theorem marks_of_error {e : SyntaxError α}
    (h : (Expr.ofText text : Except (SyntaxError α) (Expr α)) = .error e) :
    Token.Marks α text e.position := by
  rw [Expr.ofText] at h
  rcases bind_eq_error.mp h with hscan | ⟨tokens, htokens, hparse⟩
  · exact Token.marks_of_error hscan
  · rcases Parser.exists_token_of_error (Token.exists_isEnd htokens) hparse with
      ⟨token, htoken, hposition⟩
    rw [← hposition]
    exact Token.marks_of_mem htokens htoken

/-- Every variable of a text stands at one of its words. -/
theorem marks_of_mem_mentions {e : Expr α} (h : Expr.ofText text = .ok e) {m : Mention}
    (hm : m ∈ e.mentions) : Token.Marks α text m.position := by
  rcases exists_word_of_mem_mentions h hm with ⟨tokens, htokens, token, htoken, hposition, -⟩
  rw [← hposition]
  exact Token.marks_of_mem htokens htoken

end Expr

namespace Formula

/-- Every error of a text has a position in it, which is its end, the start of one of its words, or a
character that no word starts with. The variables of the text, and the one that an error says is not
declared, are spelled by their names where they are said to stand. -/
theorem compile_error_marks (text : String) (schema : Schema α) :
    (∀ error, compile text schema = .error error →
      ∃ position, error.IsAt position ∧ position ≤ text.length ∧ Token.Marks α text position) ∧
    (∀ e : Expr α, Expr.ofText text = .ok e →
      ∀ m ∈ e.mentions, Token.NamesAt α text m.name m.position) ∧
    ∀ name position, compile text schema = .error (.unknownVariable name position) →
      Token.NamesAt α text name position := by
  refine ⟨fun error h => ?_, fun e he m hm => Expr.namesAt_of_mem_mentions he hm,
    fun name position h => ?_⟩
  · rcases compile_eq_error.mp h with ⟨cause, hparse, rfl⟩ | ⟨e, hparse, hbind⟩
    · have hmarks := Expr.marks_of_error hparse
      exact ⟨cause.position, .malformed cause, hmarks.le_length, hmarks⟩
    · rcases Expr.exists_isBlamed_of_bind hbind with ⟨front, m, back, hmentions, -, hblamed⟩
      have hmarks := Expr.marks_of_mem_mentions hparse (m := m) (by simp [hmentions])
      exact ⟨m.position, hblamed.isAt, hmarks.le_length, hmarks⟩
  · rcases compile_eq_error.mp h with ⟨cause, -, hother⟩ | ⟨e, hparse, hbind⟩
    · cases hother
    · rcases Expr.exists_isBlamed_of_bind hbind with ⟨front, m, back, hmentions, -, hblamed⟩
      cases hblamed with
      | undeclared _ => exact Expr.namesAt_of_mem_mentions hparse (by simp [hmentions])

/-- A variable that is not declared is spelled where the error is, although its branch is left out. -/
theorem compile_undeclared_fee :
    compile "1 ? 2 : fee[alt] + toll" (.empty : Schema Float) = .error (.unknownVariable "fee" 8) ∧
      Token.Marks Float "1 ? 2 : fee[alt] + toll" 8 ∧
      Token.NamesAt Float "1 ? 2 : fee[alt] + toll" "fee" 8 := by
  have hcompile : compile "1 ? 2 : fee[alt] + toll" (.empty : Schema Float) =
      .error (.unknownVariable "fee" 8) :=
    compile_eq_error.mpr (.inr ⟨_, ofText_feeOrToll, rfl⟩)
  rcases compile_error_marks "1 ? 2 : fee[alt] + toll" (.empty : Schema Float) with
    ⟨herrors, -, hnames⟩
  rcases herrors _ hcompile with ⟨position, hposition, -, hmarks⟩
  cases hposition with
  | unknownVariable _ _ => exact ⟨hcompile, hmarks, hnames _ _ hcompile⟩

end Formula
end DiscreteChoice
