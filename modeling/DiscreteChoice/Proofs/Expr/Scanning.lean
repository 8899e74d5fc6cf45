import DiscreteChoice.Proofs.Expr.Spelling

/-!
# Scanning a text

The words of a text stand one behind the other with white space between them, each the longest at
its place, and the first other character that starts no word is where a text is refused. White space
also takes a text apart: what stands in front of it is read without a look at what stands behind it.

Main results:

- Theorem `Covers.tokensFrom_eq`: words that cover a text up to a place are read up to there.
- Theorem `exists_covers`: every text is covered up to its end or up to a character that starts no
  word.
- Theorem `ofText_covers`: a text is accepted when words cover it, and refused at the first character
  that starts none.
- Theorem `ofText_append_blank`: a text with white space in it is read part by part.
-/

namespace DiscreteChoice
/-- A word further on in a text. -/
def Token.moved {α : Type} (t : Token α) (offset : Nat) : Token α :=
  ⟨t.kind, offset + t.position⟩

/-- An error further on in a text. -/
def SyntaxError.moved {α : Type} (e : SyntaxError α) (offset : Nat) : SyntaxError α :=
  ⟨offset + e.position, e.fault⟩

namespace Token

variable {α : Type} [Numeric α]

/-! ## Words that cover a text -/

/-- A word of a text, with the characters that spell it. -/
structure Occurrence (α : Type) where
  token : Token α
  spelling : List Char

namespace Occurrence

/-- Where the word starts. -/
def start (w : Occurrence α) : Nat :=
  w.token.position

/-- One past the last character of the word. -/
def stop (w : Occurrence α) : Nat :=
  w.token.position + w.spelling.length

end Occurrence

/-- The words cover a text from one place to another. -/
structure Covers (cs : List Char) (first last : Nat) (words : List (Occurrence α)) : Prop where
  /-- Each word is the longest at its place. -/
  longest : ∀ w ∈ words, IsLongest w.token.kind w.spelling (cs.drop w.start)
  /-- The words stand one behind the other. -/
  ordered : words.Pairwise fun v w => v.stop ≤ w.start
  within : ∀ w ∈ words, first ≤ w.start ∧ w.stop ≤ last
  /-- Every character outside of the words is white space. -/
  blank : ∀ (i : Nat) (c : Char), first ≤ i → i < last → cs[i]? = some c →
    (∀ w ∈ words, ¬ (w.start ≤ i ∧ i < w.stop)) → Text.isBlank c = true

namespace Covers

variable {cs : List Char} {first last : Nat} {words : List (Occurrence α)}

/-- Every word of a cover has a character. -/
theorem start_lt_stop (h : Covers cs first last words) {w : Occurrence α} (hw : w ∈ words) :
    w.start < w.stop :=
  Nat.lt_add_of_pos_right (List.length_pos_of_ne_nil (h.longest w hw).spells.ne_nil)

/-- Nothing is covered by no word. -/
theorem nil (cs : List Char) (place : Nat) : Covers cs place place ([] : List (Occurrence α)) where
  longest := by simp
  ordered := .nil
  within := by simp
  blank i c hfirst hlast := absurd hlast (Nat.not_lt.mpr hfirst)

/-- Nothing is covered by no word only. -/
theorem eq_nil (h : Covers cs first first words) : words = [] := by
  refine List.eq_nil_iff_forall_not_mem.mpr fun w hw => ?_
  have := h.start_lt_stop hw
  have := h.within w hw
  omega

/-- White space in front of a cover is passed over. -/
theorem skip {c : Char} (h : Covers cs (first + 1) last words) (hc : cs[first]? = some c)
    (hblank : Text.isBlank c = true) : Covers cs first last words where
  longest := h.longest
  ordered := h.ordered
  within w hw := ⟨Nat.le_of_succ_le (h.within w hw).1, (h.within w hw).2⟩
  blank i d hfirst hlast hd houtside := by
    rcases Nat.eq_or_lt_of_le hfirst with rfl | hbehind
    · rw [hc] at hd
      rwa [← Option.some.inj hd]
    · exact h.blank i d hbehind hlast hd houtside

/-- The longest word in front of a cover covers the text with it. -/
theorem cons {kind : TokenKind α} {taken : List Char} (hlast : first + taken.length ≤ last)
    (htaken : IsLongest kind taken (cs.drop first))
    (h : Covers cs (first + taken.length) last words) :
    Covers cs first last (⟨⟨kind, first⟩, taken⟩ :: words) where
  longest := List.forall_mem_cons.mpr ⟨htaken, h.longest⟩
  ordered := List.pairwise_cons.mpr ⟨fun w hw => (h.within w hw).1, h.ordered⟩
  within := List.forall_mem_cons.mpr ⟨⟨le_rfl, hlast⟩, fun w hw =>
    ⟨le_trans (Nat.le_add_right _ _) (h.within w hw).1, (h.within w hw).2⟩⟩
  blank i c hfirst hi hc houtside := by
    rcases List.forall_mem_cons.mp houtside with ⟨hword, hwords⟩
    have hbehind : first + taken.length ≤ i := by
      by_contra hin
      exact hword ⟨hfirst, Nat.not_le.mp hin⟩
    exact h.blank i c hbehind hi hc hwords

/-- A cover starts with white space, or with its first word. -/
theorem head {c : Char} (h : Covers cs first last words) (hfirst : first < last)
    (hc : cs[first]? = some c) :
    Text.isBlank c = true ∧ Covers cs (first + 1) last words ∨
      ∃ w others, words = w :: others ∧ w.start = first ∧ Covers cs w.stop last others := by
  by_cases hin : ∃ w ∈ words, w.start = first
  · right
    rcases hin with ⟨w, hw, hstart⟩
    cases words with
    | nil => cases hw
    | cons v others =>
      -- No word stands in front of one that starts the cover.
      have hv : w = v := by
        rcases List.mem_cons.mp hw with rfl | hothers
        · rfl
        · have hbehind := (List.pairwise_cons.mp h.ordered).1 w hothers
          have hv := h.start_lt_stop List.mem_cons_self
          have := (h.within v List.mem_cons_self).1
          omega
      subst hv
      refine ⟨w, others, rfl, hstart, ⟨fun v hv => h.longest v (List.mem_cons_of_mem _ hv),
        (List.pairwise_cons.mp h.ordered).2, fun v hv =>
        ⟨(List.pairwise_cons.mp h.ordered).1 v hv, (h.within v (List.mem_cons_of_mem _ hv)).2⟩,
        fun i d hi hlast hd houtside => ?_⟩⟩
      refine h.blank i d ?_ hlast hd (List.forall_mem_cons.mpr ⟨fun hin => ?_, houtside⟩)
      · have := h.start_lt_stop hw
        omega
      · omega
  · left
    have hbehind {w : Occurrence α} (hw : w ∈ words) : first + 1 ≤ w.start :=
      Nat.lt_of_le_of_ne (h.within w hw).1 fun heq => hin ⟨w, hw, heq.symm⟩
    refine ⟨h.blank first c le_rfl hfirst hc fun w hw hspan => ?_, ⟨h.longest, h.ordered,
      fun w hw => ⟨hbehind hw, (h.within w hw).2⟩, fun i d hi => h.blank i d (by omega)⟩⟩
    have := hbehind hw
    omega

end Covers

/-! ## One step of the scan -/

section Step

variable {c : Char} {rest text : List Char} {position : Nat}

/-- White space is passed over. -/
theorem tokensFrom_of_blank (hblank : Text.isBlank c = true) :
    (tokensFrom position (c :: rest) : Except (SyntaxError α) (List (Token α))) =
      tokensFrom (position + 1) rest := by
  rw [tokensFrom, lexeme_of_blank hblank]

/-- The longest word is taken, and the scan goes on behind it. -/
theorem tokensFrom_of_isLongest {kind : TokenKind α} {taken : List Char}
    (h : IsLongest kind taken text) :
    (tokensFrom position text : Except (SyntaxError α) (List (Token α))) =
      (tokensFrom (position + taken.length) (text.drop taken.length)).map
        (⟨kind, position⟩ :: ·) := by
  have hlength := List.length_pos_of_ne_nil h.spells.ne_nil
  cases text with
  | nil => exact absurd (List.prefix_nil.mp h.isPrefix) h.spells.ne_nil
  | cons c rest =>
    have hposition : position + 1 + (taken.length - 1) = position + taken.length := by omega
    have hdrop : rest.drop (taken.length - 1) = (c :: rest).drop taken.length := by
      rw [← Nat.sub_add_cancel hlength, List.drop_succ_cons, Nat.add_sub_cancel]
    rw [tokensFrom, h.lexeme_eq]
    simp only [hposition, hdrop]
    rfl

/-- Where no word starts the text is refused. -/
theorem tokensFrom_of_startsNone (hblank : Text.isBlank c = false) (h : StartsNone α (c :: rest)) :
    (tokensFrom position (c :: rest) : Except (SyntaxError α) (List (Token α))) =
      .error ⟨position, faultOf c⟩ := by
  rw [tokensFrom, h.lexeme_eq hblank]

end Step

/-! ## The whole scan -/

/-- Words that cover a text up to a place are read up to there. -/
theorem Covers.tokensFrom_eq {cs : List Char} {first last : Nat} {words : List (Occurrence α)}
    (h : Covers cs first last words) (hfirst : first ≤ last) (hlast : last ≤ cs.length) :
    tokensFrom first (cs.drop first) =
      (tokensFrom last (cs.drop last)).map (words.map (·.token) ++ ·) := by
  induction hn : last - first using Nat.strongRecOn generalizing first words with
  | _ n ih =>
    subst hn
    rcases Nat.eq_or_lt_of_le hfirst with rfl | hlt
    · rw [h.eq_nil]
      cases (tokensFrom first (cs.drop first) : Except (SyntaxError α) (List (Token α))) <;> rfl
    · have hc : cs[first]? = some cs[first] := List.getElem?_eq_getElem (by omega)
      rcases h.head hlt hc with ⟨hblank, hrest⟩ | ⟨w, others, rfl, rfl, hrest⟩
      · rw [List.drop_eq_getElem_cons (by omega), tokensFrom_of_blank hblank]
        exact ih _ (by omega) hrest hlt rfl
      · have hlongest := h.longest w List.mem_cons_self
        have hstop := (h.within w List.mem_cons_self).2
        have hpos := h.start_lt_stop List.mem_cons_self
        have hbehind : tokensFrom (w.start + w.spelling.length)
            (cs.drop (w.start + w.spelling.length)) =
            (tokensFrom last (cs.drop last)).map (others.map (·.token) ++ ·) :=
          ih (last - w.stop) (by omega) hrest hstop rfl
        rw [tokensFrom_of_isLongest hlongest, List.drop_drop, hbehind]
        cases (tokensFrom last (cs.drop last) : Except (SyntaxError α) (List (Token α))) <;> rfl

/-- A scan stops at the end of the text, or at a character that starts no word. -/
def StopsAt (α : Type) [Numeric α] (cs : List Char) (place : Nat) : Prop :=
  place = cs.length ∨
    ∃ c, cs[place]? = some c ∧ Text.isBlank c = false ∧ StartsNone α (cs.drop place)

/-- Every text is covered up to a place where the scan stops. -/
theorem exists_covers {cs : List Char} {first : Nat} (hfirst : first ≤ cs.length) :
    ∃ (last : Nat) (words : List (Occurrence α)),
      first ≤ last ∧ last ≤ cs.length ∧ Covers cs first last words ∧ StopsAt α cs last := by
  induction hn : cs.length - first using Nat.strongRecOn generalizing first with
  | _ n ih =>
    subst hn
    rcases Nat.eq_or_lt_of_le hfirst with rfl | hlt
    · exact ⟨_, [], le_rfl, le_rfl, .nil cs _, .inl rfl⟩
    · have hc : cs[first]? = some cs[first] := List.getElem?_eq_getElem hlt
      have hdrop := List.drop_eq_getElem_cons hlt
      cases hblank : Text.isBlank cs[first] with
      | true =>
        rcases ih _ (by omega) hlt rfl with ⟨last, words, hle, hlast, hcovers, hstop⟩
        exact ⟨last, words, Nat.le_of_succ_le hle, hlast, hcovers.skip hc hblank, hstop⟩
      | false =>
        rcases lexeme_spec (α := α) hblank with ⟨kind, taken, htaken, -⟩ | ⟨hnone, -⟩
        · rw [← hdrop] at htaken
          have hlength := htaken.isPrefix.length_le
          have hpos := List.length_pos_of_ne_nil htaken.spells.ne_nil
          rw [List.length_drop] at hlength
          have hbehind : first + taken.length ≤ cs.length := by omega
          rcases ih _ (by omega) hbehind rfl with ⟨last, words, hle, hlast, hcovers, hstop⟩
          exact ⟨last, _, by omega, hlast, hcovers.cons hle htaken, hstop⟩
        · rw [← hdrop] at hnone
          exact ⟨first, [], le_rfl, hfirst, .nil cs first, .inr ⟨_, hc, hblank, hnone⟩⟩

/-- Words that cover a text up to its end are its tokens. -/
theorem Covers.ofText_eq {text : String} {words : List (Occurrence α)}
    (h : Covers text.toList 0 text.length words) :
    ofText text = .ok (words.map (·.token) ++ [⟨.endOfText, text.length⟩]) := by
  have hscan := h.tokensFrom_eq (Nat.zero_le _) String.length_toList.ge
  rw [List.drop_zero, List.drop_of_length_le String.length_toList.le, tokensFrom] at hscan
  exact hscan

/-- Words that cover a text up to a character that starts none lead to the fault there. -/
theorem Covers.ofText_eq_error {text : String} {place : Nat} {words : List (Occurrence α)}
    (h : Covers text.toList 0 place words) {c : Char} (hc : text.toList[place]? = some c)
    (hblank : Text.isBlank c = false) (hnone : StartsNone α (text.toList.drop place)) :
    (ofText text : Except (SyntaxError α) (List (Token α))) = .error ⟨place, faultOf c⟩ := by
  rcases List.getElem?_eq_some_iff.mp hc with ⟨hplace, rfl⟩
  have hscan := h.tokensFrom_eq (Nat.zero_le _) hplace.le
  rw [List.drop_eq_getElem_cons hplace] at hscan hnone
  rw [List.drop_zero, tokensFrom_of_startsNone hblank hnone] at hscan
  exact hscan

/-- Every text is accepted with the words that cover it, or refused at a character that starts none
behind words that cover what is in front of it. -/
theorem ofText_cases (text : String) :
    (∃ words : List (Occurrence α), Covers text.toList 0 text.length words ∧
      ofText text = .ok (words.map (·.token) ++ [⟨.endOfText, text.length⟩])) ∨
    ∃ (place : Nat) (words : List (Occurrence α)) (c : Char), Covers text.toList 0 place words ∧
      text.toList[place]? = some c ∧ Text.isBlank c = false ∧
      StartsNone α (text.toList.drop place) ∧
      (ofText text : Except (SyntaxError α) (List (Token α))) = .error ⟨place, faultOf c⟩ := by
  rcases exists_covers (α := α) (Nat.zero_le text.toList.length) with
    ⟨place, words, -, -, hcovers, hend | ⟨c, hc, hblank, hnone⟩⟩
  · rw [String.length_toList] at hend
    subst hend
    exact .inl ⟨words, hcovers, hcovers.ofText_eq⟩
  · exact .inr ⟨place, words, c, hcovers, hc, hblank, hnone,
      hcovers.ofText_eq_error hc hblank hnone⟩

/-- The tokens of a text are the words that cover it, and its end. -/
theorem exists_words_of_ofText {text : String} {tokens : List (Token α)}
    (h : ofText text = .ok tokens) :
    ∃ words : List (Occurrence α), Covers text.toList 0 text.length words ∧
      tokens = words.map (·.token) ++ [⟨.endOfText, text.length⟩] := by
  rcases ofText_cases (α := α) text with ⟨words, hcovers, heq⟩ | ⟨_, _, _, _, _, _, _, heq⟩
  · exact ⟨words, hcovers, Except.ok.inj (h.symm.trans heq)⟩
  · cases h.symm.trans heq

/-- A text is accepted when words cover it up to its end, and then they are its tokens; it is refused
when words cover it up to a character that is not white space and starts no word, and then that is
the fault. The words of a cover start one behind the other and share no character, and its numbers
read as what they are spelled. -/
theorem ofText_covers (text : String) :
    (∀ tokens, ofText text = .ok tokens ↔ ∃ words : List (Occurrence Float),
      Covers text.toList 0 text.length words ∧
        tokens = words.map (·.token) ++ [⟨.endOfText, text.length⟩]) ∧
    (∀ position fault, ofText text = .error (⟨position, fault⟩ : SyntaxError Float) ↔
      ∃ (words : List (Occurrence Float)) (c : Char), Covers text.toList 0 position words ∧
        text.toList[position]? = some c ∧ Text.isBlank c = false ∧
        StartsNone Float (text.toList.drop position) ∧ fault = faultOf c) ∧
    ∀ (last : Nat) (words : List (Occurrence Float)), Covers text.toList 0 last words →
      (words.map (·.start)).Pairwise (· < ·) ∧
      (words.Pairwise fun v w => ∀ i, ¬ (v.start ≤ i ∧ i < v.stop ∧ w.start ≤ i ∧ i < w.stop)) ∧
      ∀ w ∈ words, ∀ value, w.token.kind = .number value →
        Double.parse? (String.ofList w.spelling) = some value := by
  refine ⟨fun tokens => ⟨fun h => ?_, ?_⟩, fun position fault => ⟨fun h => ?_, ?_⟩,
    fun last words h => ⟨?_, ?_, fun w hw value hvalue => ?_⟩⟩
  · rcases ofText_cases (α := Float) text with ⟨words, hcovers, heq⟩ | ⟨_, _, _, _, _, _, _, heq⟩
    · exact ⟨words, hcovers, Except.ok.inj (h.symm.trans heq)⟩
    · cases h.symm.trans heq
  · rintro ⟨words, hcovers, rfl⟩
    exact hcovers.ofText_eq
  · rcases ofText_cases (α := Float) text with ⟨_, _, heq⟩ | ⟨_, words, c, hcovers, hc, hblank, hnone, heq⟩
    · cases h.symm.trans heq
    · cases h.symm.trans heq
      exact ⟨words, c, hcovers, hc, hblank, hnone, rfl⟩
  · rintro ⟨words, c, hcovers, hc, hblank, hnone, rfl⟩
    exact hcovers.ofText_eq_error hc hblank hnone
  · rw [List.pairwise_map]
    exact h.ordered.imp_of_mem fun hv _ hle => lt_of_lt_of_le (h.start_lt_stop hv) hle
  · exact h.ordered.imp fun hle i hi => by omega
  · have hspells := (h.longest w hw).spells
    rw [hvalue] at hspells
    exact hspells.parse?_eq

/-! ## White space between two texts -/

section Blank

variable {w : Char} (hw : Text.isBlank w = true) {cs rest : List Char}
include hw

/-- What is spelled in front of white space does not reach over it. -/
theorem isPrefix_of_append_blank {taken : List Char} (hblank : ∀ c ∈ taken, Text.isBlank c = false)
    (hstands : taken <+: cs ++ w :: rest) : taken <+: cs := by
  rcases Nat.le_total taken.length cs.length with hshort | hlong
  · exact List.prefix_of_prefix_length_le hstands (List.prefix_append _ _) hshort
  · rcases List.prefix_of_prefix_length_le (List.prefix_append _ _) hstands hlong with ⟨more, rfl⟩
    cases more with
    | nil => rw [List.append_nil]
    | cons c more =>
      rw [List.prefix_append_right_inj, List.cons_prefix_cons] at hstands
      have hnot := hblank c (List.mem_append_right _ List.mem_cons_self)
      rw [hstands.1, hw] at hnot
      cases hnot

/-- The longest word in front of white space does not depend on what stands behind it. -/
theorem IsLongest.append_blank {kind : TokenKind α} {taken : List Char}
    (h : IsLongest kind taken cs) : IsLongest kind taken (cs ++ w :: rest) where
  spells := h.spells
  isPrefix := h.isPrefix.trans (List.prefix_append _ _)
  length_le hother hstands :=
    h.length_le hother (isPrefix_of_append_blank hw hother.not_blank hstands)

/-- Whether a word starts in front of white space does not depend on what stands behind it. -/
theorem StartsNone.append_blank (h : StartsNone α cs) : StartsNone α (cs ++ w :: rest) :=
  fun taken kind htaken hstands =>
    h taken kind htaken (isPrefix_of_append_blank hw htaken.not_blank hstands)

/-- Words that cover a text in front of white space cover it whatever stands behind it. -/
theorem Covers.append_blank {first last : Nat} {words : List (Occurrence α)}
    (h : Covers cs first last words) (hlast : last ≤ cs.length) :
    Covers (cs ++ w :: rest) first last words where
  longest v hv := by
    have := h.start_lt_stop hv
    have := h.within v hv
    rw [List.drop_append_of_le_length (by omega)]
    exact (h.longest v hv).append_blank hw
  ordered := h.ordered
  within := h.within
  blank i c hfirst hi hc := by
    rw [List.getElem?_append_left (by omega)] at hc
    exact h.blank i c hfirst hi hc

end Blank

/-- A text is read alike wherever it stands. -/
theorem tokensFrom_add (offset position : Nat) (cs : List Char) :
    tokensFrom (offset + position) cs =
      match (tokensFrom position cs : Except (SyntaxError α) (List (Token α))) with
      | .ok tokens => .ok (tokens.map (·.moved offset))
      | .error e => .error (e.moved offset) := by
  fun_induction tokensFrom (α := α) position cs with
  | case1 position => rw [tokensFrom]; rfl
  | case2 position c rest hblank ih => rw [tokensFrom, hblank]; exact ih
  | case3 position c rest fault hfault => rw [tokensFrom, hfault]; rfl
  | case4 position c rest kind behind hword ih =>
    rw [tokensFrom, hword]
    simp only [Nat.add_assoc] at ih ⊢
    rw [ih]
    cases (tokensFrom (position + (1 + behind)) (rest.drop behind) :
      Except (SyntaxError α) (List (Token α))) <;> rfl

/-- Behind a text that is accepted, and white space, the words of another text are read as if it
stood alone. -/
theorem ofText_append_of_covers {a b : String} {w : Char} (hw : Text.isBlank w = true)
    {words : List (Occurrence α)} (h : Covers a.toList 0 a.length words) :
    (ofText (a ++ String.singleton w ++ b) : Except (SyntaxError α) (List (Token α))) =
      match (ofText b : Except (SyntaxError α) (List (Token α))) with
      | .ok tokens => .ok (words.map (·.token) ++ tokens.map (·.moved (a.length + 1)))
      | .error e => .error (e.moved (a.length + 1)) := by
  have hchars : (a ++ String.singleton w ++ b).toList = a.toList ++ w :: b.toList := by simp
  have hlength : a.length ≤ a.toList.length := String.length_toList.ge
  have hcovers : Covers (a.toList ++ w :: b.toList) 0 a.length words := h.append_blank hw hlength
  have hscan := hcovers.tokensFrom_eq (Nat.zero_le _) (by rw [List.length_append]; omega)
  rw [← String.length_toList (s := a), List.drop_left, tokensFrom_of_blank hw,
    String.length_toList, ← Nat.add_zero (a.length + 1), tokensFrom_add, List.drop_zero] at hscan
  rw [ofText, hchars, hscan, ofText]
  cases (tokensFrom 0 b.toList : Except (SyntaxError α) (List (Token α))) <;> rfl

/-- White space takes a text apart. What stands in front of it is read as if it stood alone: when it
is refused, the whole is refused with its error. When it is accepted, the whole is refused with the
error of what stands behind, moved to its place, or else accepted with the words of both, those
behind moved to their places. -/
theorem ofText_append_blank (a b : String) {w : Char} (hw : Text.isBlank w = true) :
    (∀ e : SyntaxError α, ofText a = .error e →
      ofText (a ++ String.singleton w ++ b) = .error e) ∧
    ∀ tokens : List (Token α), ofText a = .ok tokens →
      ∃ words, tokens = words ++ [⟨.endOfText, a.length⟩] ∧
        (∀ e : SyntaxError α, ofText b = .error e →
          ofText (a ++ String.singleton w ++ b) = .error (e.moved (a.length + 1))) ∧
        ∀ others : List (Token α), ofText b = .ok others →
          ofText (a ++ String.singleton w ++ b) =
            .ok (words ++ others.map (·.moved (a.length + 1))) := by
  have hchars : (a ++ String.singleton w ++ b).toList = a.toList ++ w :: b.toList := by simp
  rcases ofText_cases (α := α) a with
    ⟨words, hcovers, heq⟩ | ⟨place, words, c, hcovers, hc, hblank, hnone, heq⟩
  · have hwhole := ofText_append_of_covers hw hcovers (b := b)
    refine ⟨fun e h => ?_, fun tokens h => ?_⟩
    · cases heq.symm.trans h
    · refine ⟨words.map (·.token), Except.ok.inj (h.symm.trans heq), fun e hb => ?_,
        fun others hb => ?_⟩
      · rw [hwhole, hb]
      · rw [hwhole, hb]
  · refine ⟨fun e h => ?_, fun tokens h => ?_⟩
    · have hplace := (List.getElem?_eq_some_iff.mp hc).1
      rw [← h, heq]
      refine Covers.ofText_eq_error (hchars ▸ hcovers.append_blank hw hplace.le) ?_ hblank ?_
      · rw [hchars, List.getElem?_append_left hplace, hc]
      · rw [hchars, List.drop_append_of_le_length hplace.le]
        exact hnone.append_blank hw
    · cases heq.symm.trans h

/-- White space parts the two characters of a symbol, and the second one alone is refused where it
stands. -/
theorem ofText_parted_lessEqual :
    Text.isBlank '\u3000' = true ∧
      ofText ("x <" ++ String.singleton '\u3000' ++ "= 1") =
        .error (⟨4, .halfSymbol '='⟩ : SyntaxError Float) := by
  have hblank : Text.isBlank '\u3000' = true := by decide
  have hfront : ofText "x <" = .ok [⟨.identifier "x", 0⟩, ⟨.symbol .less, 2⟩,
      (⟨.endOfText, 3⟩ : Token Float)] := by cbv
  have hbehind : ofText "= 1" = .error (⟨0, .halfSymbol '='⟩ : SyntaxError Float) := by cbv
  rcases (ofText_append_blank "x <" "= 1" hblank).2 _ hfront with ⟨words, -, herror, -⟩
  exact ⟨hblank, herror _ hbehind⟩

end Token
end DiscreteChoice
