import DiscreteChoice.Proofs.Expr.ParserCompleteness
import DiscreteChoice.Proofs.Expr.Scanning

/-!
# The variables of a text

Every variable of an expression keeps the position where its word stands. When the expression is read
from a text, the variables come in the order of the text, and each is spelled by its name where it
stands.

Main results:

- Theorem `Parser.Derives.mentions`: the words of the variables are among the tokens, in order.
- Theorem `Expr.mentions_ordered`: the variables of a text come in the order of their positions.
- Theorem `Expr.namesAt_of_mem_mentions`: the text spells every variable by its name where it stands.
-/

namespace DiscreteChoice

/-- A variable with its indices, and where its word stands. -/
structure Mention where
  name : String
  indices : List Index
  position : Nat
deriving Repr, DecidableEq

namespace Expr

variable {α : Type}

mutual

/-- The variables of an expression from left to right, those of branches that do not matter as
well. -/
def mentions : Expr α → List Mention
  | constant _ => []
  | reference name indices position => [⟨name, indices, position⟩]
  | unary _ operand => operand.mentions
  | binary _ lhs rhs => lhs.mentions ++ rhs.mentions
  | conditional c t f => c.mentions ++ (t.mentions ++ f.mentions)
  | call _ args => mentionsOfAll args

/-- The variables of a list of expressions from left to right. -/
def mentionsOfAll : List (Expr α) → List Mention
  | [] => []
  | e :: es => e.mentions ++ mentionsOfAll es

end

end Expr

/-! ## Variables among tokens -/

/-- The token is the word of the variable, with or without an at sign, where the variable stands. -/
def Mention.IsWord {α : Type} (m : Mention) (token : Token α) : Prop :=
  token.position = m.position ∧
    (token.kind = .identifier m.name ∨ token.kind = .reference m.name)

namespace Parser

variable {α : Type}

/-- The words of the variables are among the tokens, in the same order. -/
def Lists (tokens : List (Token α)) (mentions : List Mention) : Prop :=
  List.SublistForall₂ Mention.IsWord mentions tokens

namespace Lists

variable {tokens others : List (Token α)} {mentions others' : List Mention}

/-- What stands among tokens stands among more of them. -/
theorem sublist (h : Lists tokens mentions) (hsub : tokens.Sublist others) :
    Lists others mentions := by
  rw [Lists, List.sublistForall₂_iff] at h ⊢
  rcases h with ⟨words, hwords, hin⟩
  exact ⟨words, hwords, hin.trans hsub⟩

/-- The variables of two parts stand among the tokens of both. -/
theorem append (h : Lists tokens mentions) (hothers : Lists others others') :
    Lists (tokens ++ others) (mentions ++ others') := by
  rw [Lists, List.sublistForall₂_iff] at h hothers ⊢
  rcases h with ⟨words, hwords, hin⟩
  rcases hothers with ⟨words', hwords', hin'⟩
  exact ⟨words ++ words', List.rel_append hwords hwords', hin.append hin'⟩

/-- A token between two parts takes nothing away. -/
theorem append_cons (h : Lists tokens mentions) (token : Token α)
    (hothers : Lists others others') : Lists (tokens ++ token :: others) (mentions ++ others') :=
  h.append (hothers.sublist (List.sublist_cons_self token others))

/-- A token in front takes nothing away. -/
theorem cons (h : Lists tokens mentions) (token : Token α) : Lists (token :: tokens) mentions :=
  h.sublist (List.sublist_cons_self token tokens)

/-- The word of a variable in front lists it. -/
theorem word {token : Token α} {m : Mention} (h : m.IsWord token) (tokens : List (Token α)) :
    Lists (token :: tokens) [m] :=
  List.SublistForall₂.cons h List.SublistForall₂.nil

end Lists

variable [Numeric α]

/-- The words of the variables of a derived expression are among its tokens, in order. -/
theorem Derives.mentions {depth : Nat} {category : Category} {tokens : List (Token α)} {e : Expr α}
    (h : Derives depth category tokens e) : Lists tokens e.mentions := by
  induction h with
  | unconditional _ ih => exact ih
  | conditional question colon _ _ _ ihc iht ihf =>
    exact ihc.append_cons ⟨.symbol .question, question⟩ (iht.append_cons ⟨.symbol .colon, colon⟩ ihf)
  | operand _ ih => exact ih
  | joined place operator _ _ ihl ihr => exact ihl.append_cons _ ihr
  | base _ ih => exact ih
  | raised place _ _ ihb ihe => exact ihb.append_cons _ ihe
  | plain _ ih => exact ih
  | applied op place _ ih => exact ih.cons _
  | number value place => exact .nil
  | identifier name place brackets => exact .word ⟨rfl, .inl rfl⟩ _
  | reference name place brackets => exact .word ⟨rfl, .inr rfl⟩ _
  | parentheses left right _ ih =>
    exact (ih.cons _).sublist (List.sublist_append_left _ _)
  | call place left right callable _ ih =>
    exact ((ih.cons _).cons _).sublist (List.sublist_append_left _ _)
  | lastArgument _ ih =>
    simpa [Expr.mentions, Expr.mentionsOfAll] using ih
  | argument place _ _ ihe ih => exact ihe.append_cons _ ih

end Parser

/-! ## Variables of a text -/

variable {α : Type} [Numeric α]

/-- The tokens of a text stand one behind the other. -/
theorem Token.positions_ordered {text : String} {tokens : List (Token α)}
    (h : Token.ofText text = .ok tokens) : tokens.Pairwise fun s t => s.position < t.position := by
  rcases Token.exists_words_of_ofText h with ⟨words, hcovers, rfl⟩
  rw [List.pairwise_append, List.pairwise_map]
  refine ⟨?_, List.pairwise_singleton _ _, ?_⟩
  · exact hcovers.ordered.imp_of_mem fun hv _ hle => lt_of_lt_of_le (hcovers.start_lt_stop hv) hle
  · intro s hs t ht
    rcases List.mem_map.mp hs with ⟨w, hw, rfl⟩
    rcases List.mem_singleton.mp ht with rfl
    exact lt_of_lt_of_le (hcovers.start_lt_stop hw) (hcovers.within w hw).2

/-- The longest word at a position of a text is the name, with or without an at sign. -/
def Token.NamesAt (α : Type) [Numeric α] (text : String) (name : String) (position : Nat) : Prop :=
  IsLongest (.identifier name : TokenKind α) name.toList (text.toList.drop position) ∨
    IsLongest (.reference name : TokenKind α) ('@' :: name.toList) (text.toList.drop position)

/-- A name at a position is spelled there. -/
theorem Token.NamesAt.isPrefix {text name : String} {position : Nat}
    (h : Token.NamesAt α text name position) :
    name.toList <+: text.toList.drop position ∨ '@' :: name.toList <+: text.toList.drop position :=
  h.imp IsLongest.isPrefix IsLongest.isPrefix

namespace Token

/-- A word that is a name is spelled by it. -/
theorem Spells.eq_identifier {taken : List Char} {name : String}
    (h : Spells taken (.identifier name : TokenKind α)) : taken = name.toList := by
  cases h with
  | identifier _ => rfl

/-- A word that is a marked name is spelled by it behind an at sign. -/
theorem Spells.eq_reference {taken : List Char} {name : String}
    (h : Spells taken (.reference name : TokenKind α)) : taken = '@' :: name.toList := by
  cases h with
  | reference _ => rfl

/-- The token of a variable stands where the text spells the name. -/
theorem namesAt_of_isWord {text : String} {tokens : List (Token α)} (h : ofText text = .ok tokens)
    {token : Token α} (htoken : token ∈ tokens) {m : Mention} (hm : m.IsWord token) :
    NamesAt α text m.name m.position := by
  rcases hm with ⟨hposition, hkind⟩
  rcases exists_words_of_ofText h with ⟨words, hcovers, rfl⟩
  rcases List.mem_append.mp htoken with hword | hend
  · rcases List.mem_map.mp hword with ⟨w, hw, rfl⟩
    have hlongest := hcovers.longest w hw
    rw [Occurrence.start, hposition] at hlongest
    rcases hkind with hkind | hkind
    · rw [hkind] at hlongest
      rw [hlongest.spells.eq_identifier] at hlongest
      exact .inl hlongest
    · rw [hkind] at hlongest
      rw [hlongest.spells.eq_reference] at hlongest
      exact .inr hlongest
  · rcases List.mem_singleton.mp hend with rfl
    simp at hkind

end Token

namespace Expr

variable {text : String} {e : Expr α}

/-- The words of the variables of a text are among its tokens, in order. -/
theorem exists_lists (h : Expr.ofText text = .ok e) :
    ∃ tokens : List (Token α), Token.ofText text = .ok tokens ∧ Parser.Lists tokens e.mentions := by
  rw [Expr.ofText, bind_eq_ok] at h
  rcases h with ⟨tokens, htokens, hparse⟩
  rcases Parser.ofTokens_eq_ok.mp hparse with ⟨rest, hread, -⟩
  rcases Parser.expression_reads Parser.maxDepth hread with ⟨words, rfl, hderives⟩
  exact ⟨_, htokens, hderives.mentions.sublist (List.sublist_append_left words rest)⟩

/-- The variables of a text come in the order of their positions. -/
theorem mentions_ordered (h : Expr.ofText text = .ok e) :
    e.mentions.Pairwise fun m n => m.position < n.position := by
  rcases exists_lists h with ⟨tokens, htokens, hlists⟩
  rcases List.sublistForall₂_iff.mp hlists with ⟨words, hwords, hin⟩
  have hpositions : e.mentions.map (·.position) = words.map (·.position) :=
    map_eq_of_forall₂ hwords fun token _ m hm => hm.1.symm
  have hordered := (Token.positions_ordered htokens).sublist hin
  rw [← List.pairwise_map (f := Token.position)] at hordered
  rwa [← List.pairwise_map (f := Mention.position), hpositions]

/-- Every variable of a text has its word among the tokens. -/
theorem exists_word_of_mem_mentions (h : Expr.ofText text = .ok e) {m : Mention}
    (hm : m ∈ e.mentions) :
    ∃ tokens : List (Token α), Token.ofText text = .ok tokens ∧ ∃ token ∈ tokens, m.IsWord token := by
  rcases exists_lists h with ⟨tokens, htokens, hlists⟩
  rcases List.sublistForall₂_iff.mp hlists with ⟨words, hwords, hin⟩
  rcases exists_mem_of_forall₂ hwords.flip hm with ⟨token, htoken, hword⟩
  exact ⟨tokens, htokens, token, hin.subset htoken, hword⟩

/-- The text spells every variable by its name where it stands. -/
theorem namesAt_of_mem_mentions (h : Expr.ofText text = .ok e) {m : Mention}
    (hm : m ∈ e.mentions) : Token.NamesAt α text m.name m.position := by
  rcases exists_word_of_mem_mentions h hm with ⟨tokens, htokens, token, htoken, hword⟩
  exact Token.namesAt_of_isWord htokens htoken hword

end Expr
end DiscreteChoice
