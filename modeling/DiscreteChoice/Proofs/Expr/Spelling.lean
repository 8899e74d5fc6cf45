import DiscreteChoice.Proofs.Decimal.Literal
import DiscreteChoice.Proofs.Expr.VariableText

/-!
# The spellings of words

How each word of an expression may be spelled, and that what stands at the head of a text is the
longest word that can be spelled there.

Main results:

- Theorem `Spells.not_blank`: no word is spelled with white space.
- Theorem `Spells.parse?_eq`: a number reads as what it is spelled.
- Theorem `lexeme_spec`: what stands at the head of a text is white space, the longest word there, or
  a character that starts none.
- Theorem `IsLongest.unique`: at most one word is the longest at a place.
-/

namespace DiscreteChoice
namespace Token

variable {α : Type} [Numeric α]

/-! ## Words -/

/-- The characters spell a symbol. -/
inductive SpellsSymbol : List Char → Symbol → Prop
  | plus : SpellsSymbol ['+'] .plus
  | minus : SpellsSymbol ['-'] .minus
  | star : SpellsSymbol ['*'] .star
  | slash : SpellsSymbol ['/'] .slash
  | caret : SpellsSymbol ['^'] .caret
  | bang : SpellsSymbol ['!'] .bang
  | equalEqual : SpellsSymbol ['=', '='] .equalEqual
  | bangEqual : SpellsSymbol ['!', '='] .bangEqual
  | less : SpellsSymbol ['<'] .less
  | lessEqual : SpellsSymbol ['<', '='] .lessEqual
  | greater : SpellsSymbol ['>'] .greater
  | greaterEqual : SpellsSymbol ['>', '='] .greaterEqual
  | andAnd : SpellsSymbol ['&', '&'] .andAnd
  | orOr : SpellsSymbol ['|', '|'] .orOr
  | question : SpellsSymbol ['?'] .question
  | colon : SpellsSymbol [':'] .colon
  | comma : SpellsSymbol [','] .comma
  | leftParen : SpellsSymbol ['('] .leftParen
  | rightParen : SpellsSymbol [')'] .rightParen
  | leftBracket : SpellsSymbol ['['] .leftBracket
  | rightBracket : SpellsSymbol [']'] .rightBracket

/-- The scan looks symbols up by the characters that spell them. -/
theorem spellsSymbol_iff {cs : List Char} {s : Symbol} : SpellsSymbol cs s ↔ s.spelling = cs := by
  constructor
  · intro h
    cases h <;> rfl
  · rintro rfl
    cases s <;> constructor

/-- The characters spell a word. -/
inductive Spells : List Char → TokenKind α → Prop
  | identifier {name : String} (isName : isName name = true) :
      Spells name.toList (.identifier name)
  | reference {name : String} (isName : isName name = true) :
      Spells ('@' :: name.toList) (.reference name)
  | number {cs : List Char} {d : Decimal} (isLiteral : Decimal.IsLiteral cs d) :
      Spells cs (.number (Numeric.ofDecimal d.digits d.exponent))
  | symbol {cs : List Char} {s : Symbol} (spelled : SpellsSymbol cs s) : Spells cs (.symbol s)

/-- The characters spell a word at the head of a text, and no word there has more of them. -/
structure IsLongest (kind : TokenKind α) (taken text : List Char) : Prop where
  spells : Spells taken kind
  isPrefix : taken <+: text
  length_le {other : List Char} {otherKind : TokenKind α} :
    Spells other otherKind → other <+: text → other.length ≤ taken.length

/-- No word can be spelled at the head of a text. -/
def StartsNone (α : Type) [Numeric α] (text : List Char) : Prop :=
  ∀ (taken : List Char) (kind : TokenKind α), Spells taken kind → ¬ taken <+: text

/-- What is wrong with a character that starts no word. -/
def faultOf (c : Char) : SyntaxFault α :=
  if c = '@' then .variableNameExpected
  else if c = '=' ∨ c = '&' ∨ c = '|' then .halfSymbol c
  else .unexpectedCharacter c

/-! ## How words start -/

/-- The classes of words. -/
inductive WordClass where
  | number
  | name
  | marked
  | symbol
deriving DecidableEq

/-- The class of a word. The end of the text is counted with the symbols. -/
def classOf : TokenKind α → WordClass
  | .number _ => .number
  | .identifier _ => .name
  | .reference _ => .marked
  | .symbol _ | .endOfText => .symbol

/-- The class of the words that can start with a character in front of a text. -/
def classAt (c : Char) (rest : List Char) : WordClass :=
  if Decimal.isDigit c || (c = '.' && rest.head?.any Decimal.isDigit) then .number
  else if isNameStart c then .name
  else if c = '@' then .marked
  else .symbol

/-- A symbol is one character or two, and starts unlike all other words. -/
theorem exists_spelling (s : Symbol) :
    ∃ c cs, s.spelling = c :: cs ∧ cs.length ≤ 1 ∧
      Decimal.isDigit c = false ∧ c ≠ '.' ∧ isNameStart c = false ∧ c ≠ '@' := by
  cases s <;> exact ⟨_, _, rfl, by decide, by decide, by decide, by decide, by decide⟩

/-- A word at the head of a text is of the class of its first character. -/
theorem Spells.classAt_eq {taken : List Char} {kind : TokenKind α} (h : Spells taken kind)
    {c : Char} {rest : List Char} (hstands : taken <+: c :: rest) :
    classAt c rest = classOf kind := by
  cases h with
  | identifier hname =>
    rcases exists_of_isName hname with ⟨d, ds, hchars, hstart, -⟩
    rw [hchars, List.cons_prefix_cons] at hstands
    rcases hstands with ⟨rfl, -⟩
    rcases isNameStart_spec hstart with ⟨-, hdigit, hpoint, -⟩
    simp [classAt, classOf, hstart, hdigit, hpoint]
  | reference hname =>
    rw [List.cons_prefix_cons] at hstands
    rcases hstands with ⟨rfl, -⟩
    have hmark : Decimal.isDigit '@' = false ∧ isNameStart '@' = false := by decide
    simp [classAt, classOf, hmark]
  | number isLiteral =>
    rcases isLiteral.head with ⟨d, ds, rfl, hd⟩
    rw [List.cons_prefix_cons] at hstands
    rcases hstands with ⟨rfl, others, rfl⟩
    rcases hd with hdigit | ⟨rfl, hnext⟩
    · simp [classAt, classOf, hdigit]
    · cases ds with
      | nil => cases hnext
      | cons next ds => simp_all [classAt, classOf]
  | @symbol _ s spelled =>
    rcases exists_spelling s with ⟨d, ds, hspelling, -, hdigit, hpoint, hstart, hmark⟩
    rw [← spellsSymbol_iff.mp spelled, hspelling, List.cons_prefix_cons] at hstands
    rcases hstands with ⟨rfl, -⟩
    simp [classAt, classOf, hdigit, hpoint, hstart, hmark]

/-! ## White space -/

theorem isBlank_of_isDigit {c : Char} (h : Decimal.isDigit c = true) : Text.isBlank c = false := by
  simp only [Decimal.isDigit, Bool.and_eq_true, decide_eq_true_eq, Char.le_def,
    UInt32.le_iff_toNat_le] at h
  have hzero : 48 ≤ c.toNat := h.1
  have hnine : c.toNat ≤ 57 := h.2
  simp [Text.isBlank, Text.blankCodePoints]
  omega

theorem isBlank_of_isNamePart {c : Char} (h : isNamePart c = true) : Text.isBlank c = false := by
  rw [isNamePart, Bool.or_eq_true] at h
  exact h.elim (fun hstart => (isNameStart_spec hstart).1) isBlank_of_isDigit

/-- Every character of a name is part of one. -/
theorem isNamePart_of_mem {name : String} (h : isName name = true) {c : Char}
    (hc : c ∈ name.toList) : isNamePart c = true := by
  rcases exists_of_isName h with ⟨d, ds, hchars, hstart, hparts⟩
  rw [hchars, List.mem_cons] at hc
  rcases hc with rfl | hc
  · rw [isNamePart, hstart, Bool.true_or]
  · exact List.all_eq_true.mp hparts c hc

/-- No number is spelled with white space. -/
theorem not_blank_of_isLiteral {cs : List Char} {d : Decimal} (h : Decimal.IsLiteral cs d) :
    ∀ c ∈ cs, Text.isBlank c = false := by
  cases h with
  | mk isWhole isFraction _ isExponent =>
    have hpoint : Text.isBlank '.' = false := by decide
    intro c hc
    rw [List.mem_append, List.mem_append] at hc
    rcases hc with (hc | hc) | hc
    · exact isBlank_of_isDigit (isWhole c hc)
    · cases isFraction with
      | absent => cases hc
      | present areDigits =>
        rcases List.mem_cons.mp hc with rfl | hc
        · exact hpoint
        · exact isBlank_of_isDigit (areDigits c hc)
    · cases isExponent with
      | absent => cases hc
      | present isMark isSign areDigits _ =>
        rcases List.mem_cons.mp hc with rfl | hc
        · rcases isMark with rfl | rfl <;> decide
        · rcases List.mem_append.mp hc with hc | hc
          · rcases isSign with rfl | rfl | rfl
            · cases hc
            · rcases List.mem_singleton.mp hc with rfl
              decide
            · rcases List.mem_singleton.mp hc with rfl
              decide
          · exact isBlank_of_isDigit (areDigits c hc)

/-- No word is spelled with white space. -/
theorem Spells.not_blank {taken : List Char} {kind : TokenKind α} (h : Spells taken kind) :
    ∀ c ∈ taken, Text.isBlank c = false := by
  cases h with
  | identifier hname => exact fun c hc => isBlank_of_isNamePart (isNamePart_of_mem hname hc)
  | reference hname =>
    have hmark : Text.isBlank '@' = false := by decide
    exact List.forall_mem_cons.mpr
      ⟨hmark, fun c hc => isBlank_of_isNamePart (isNamePart_of_mem hname hc)⟩
  | number isLiteral => exact not_blank_of_isLiteral isLiteral
  | symbol spelled =>
    have hblank : taken.all (fun c => !Text.isBlank c) = true := by cases spelled <;> decide
    simpa using hblank

/-- Every word has a character. -/
theorem Spells.ne_nil {taken : List Char} {kind : TokenKind α} (h : Spells taken kind) :
    taken ≠ [] := by
  cases h with
  | identifier hname =>
    rcases exists_of_isName hname with ⟨c, cs, hchars, -, -⟩
    simp [hchars]
  | reference _ => exact List.cons_ne_nil _ _
  | number isLiteral =>
    rcases isLiteral.head with ⟨c, rest, rfl, -⟩
    exact List.cons_ne_nil _ _
  | symbol spelled => cases spelled <;> exact List.cons_ne_nil _ _

/-! ## The longest word -/

/-- A word is spelled in one way only by given characters. -/
theorem Spells.unique {taken : List Char} {kind other : TokenKind α} (h : Spells taken kind)
    (hother : Spells taken other) : kind = other := by
  rcases List.exists_cons_of_ne_nil h.ne_nil with ⟨c, rest, hcons⟩
  have hclass : classOf kind = classOf other := by
    have hstands : taken <+: c :: rest := by rw [hcons]
    rw [← h.classAt_eq hstands, hother.classAt_eq hstands]
  clear hcons
  cases h with
  | identifier _ =>
    generalize hname : String.toList _ = cs at hother
    cases hother <;> cases hclass
    rw [String.toList_injective hname]
  | reference _ =>
    generalize hname : '@' :: String.toList _ = cs at hother
    cases hother <;> cases hclass
    rw [String.toList_injective (List.cons.inj hname).2]
  | number isLiteral =>
    cases hother with
    | number isOther => rw [← isLiteral.scan_eq.1, isOther.scan_eq.1]
    | _ => cases hclass
  | symbol spelled =>
    cases hother with
    | symbol other =>
      have hsame := (spellsSymbol_iff.mp spelled).trans (spellsSymbol_iff.mp other).symm
      have hfound := congrArg Symbol.ofSpelling? hsame
      rw [Symbol.ofSpelling?_spelling, Symbol.ofSpelling?_spelling] at hfound
      rw [Option.some.inj hfound]
    | _ => cases hclass

/-- At most one word is the longest at a place. -/
theorem IsLongest.unique {kind other : TokenKind α} {taken otherTaken text : List Char}
    (h : IsLongest kind taken text) (hother : IsLongest other otherTaken text) :
    kind = other ∧ taken = otherTaken := by
  have hlength : taken.length = otherTaken.length :=
    le_antisymm (hother.length_le h.spells h.isPrefix) (h.length_le hother.spells hother.isPrefix)
  have htaken : taken = otherTaken :=
    (List.prefix_of_prefix_length_le h.isPrefix hother.isPrefix hlength.le).eq_of_length hlength
  subst htaken
  exact ⟨h.spells.unique hother.spells, rfl⟩

/-- A number reads as what it is spelled. -/
theorem Spells.parse?_eq {taken : List Char} {value : Float}
    (h : Spells taken (.number value)) : Double.parse? (String.ofList taken) = some value := by
  cases h with
  | number isLiteral => exact isLiteral.parse?_eq

section Lexeme

variable {c : Char} {rest : List Char}

/-- At a digit, or a decimal point and a digit, the literal that is taken has a digit. -/
theorem hasDigit_scan (h : classAt c rest = .number) :
    (Decimal.scan (c :: rest)).hasDigit = true := by
  have hstart : Decimal.isDigit c = true ∨ c = '.' ∧ rest.head?.any Decimal.isDigit = true := by
    by_contra hnone
    simp only [classAt, Bool.or_eq_true, Bool.and_eq_true, decide_eq_true_eq, hnone,
      if_false] at h
    split_ifs at h
  rw [Decimal.Scan.hasDigit_iff]
  rcases hstart with hdigit | ⟨rfl, hnext⟩
  · have hwhole : (Decimal.scan (c :: rest)).whole = c :: rest.takeWhile Decimal.isDigit := by
      rw [Decimal.scan_whole, List.takeWhile_cons_of_pos hdigit]
    simp [hwhole]
  · cases rest with
    | nil => cases hnext
    | cons next rest =>
      have hpoint : Decimal.isDigit '.' = false := by decide
      rw [Decimal.scan_of_point (List.dropWhile_cons_of_neg (by simp [hpoint]))]
      simp [show Decimal.isDigit next = true from hnext]

/-- At a digit, or a decimal point and a digit, the longest word is the number that is taken. -/
theorem isLongest_number (h : classAt c rest = .number) :
    IsLongest (.number (Numeric.ofDecimal (Decimal.scan (c :: rest)).value.digits
      (Decimal.scan (c :: rest)).value.exponent) : TokenKind α)
      (Decimal.scan (c :: rest)).spelling (c :: rest) where
  spells := .number (Decimal.isLiteral_scan (hasDigit_scan h))
  isPrefix := ⟨_, Decimal.scan_spelling _⟩
  length_le {other kind} hother hstands := by
    have hclass := hother.classAt_eq hstands
    rcases hstands with ⟨behind, hbehind⟩
    rw [h] at hclass
    cases hother with
    | number isLiteral =>
      rw [← hbehind]
      exact isLiteral.length_le behind
    | _ => cases hclass

theorem isName_ofList {c : Char} (h : isNameStart c = true) (rest : List Char) :
    isName (String.ofList (c :: rest.takeWhile isNamePart)) = true := by
  rw [isName, String.toList_ofList]
  simp only [h, Bool.true_and]
  exact List.all_takeWhile

/-- A name at the head of a text is part of all that can be part of a name there. -/
theorem length_le_takeWhile {name : String} (hname : isName name = true) {text : List Char}
    (hstands : name.toList <+: text) : name.toList.length ≤ (text.takeWhile isNamePart).length := by
  rcases hstands with ⟨behind, rfl⟩
  rw [List.takeWhile_append_of_pos fun c hc => isNamePart_of_mem hname hc, List.length_append]
  exact Nat.le_add_right _ _

/-- At a character that starts a name, the longest word is the name that is taken. -/
theorem isLongest_name (h : isNameStart c = true) :
    IsLongest (.identifier (String.ofList (c :: rest.takeWhile isNamePart)) : TokenKind α)
      (c :: rest.takeWhile isNamePart) (c :: rest) where
  spells := by
    have := Spells.identifier (α := α) (isName_ofList h rest)
    rwa [String.toList_ofList] at this
  isPrefix := List.cons_prefix_cons.mpr ⟨rfl, List.takeWhile_prefix _⟩
  length_le {other kind} hother hstands := by
    have hclass := hother.classAt_eq hstands
    rcases isNameStart_spec h with ⟨-, hdigit, hpoint, -⟩
    cases hother with
    | identifier hname =>
      have := length_le_takeWhile hname hstands
      rwa [List.takeWhile_cons_of_pos (by rw [isNamePart, h, Bool.true_or])] at this
    | _ => simp [classAt, h, hdigit, hpoint, classOf] at hclass

/-- At an at sign with a name behind it, the longest word is the marked name. -/
theorem isLongest_marked (h : rest.head?.any isNameStart = true) :
    IsLongest (.reference (String.ofList (rest.takeWhile isNamePart)) : TokenKind α)
      ('@' :: rest.takeWhile isNamePart) ('@' :: rest) where
  spells := by
    cases rest with
    | nil => cases h
    | cons d rest =>
      have hd : isNameStart d = true := h
      have := Spells.reference (α := α) (isName_ofList hd rest)
      rwa [String.toList_ofList,
        ← List.takeWhile_cons_of_pos (by rw [isNamePart, hd, Bool.true_or])] at this
  isPrefix := List.cons_prefix_cons.mpr ⟨rfl, List.takeWhile_prefix _⟩
  length_le {other kind} hother hstands := by
    have hclass := hother.classAt_eq hstands
    have hmark : Decimal.isDigit '@' = false ∧ isNameStart '@' = false := by decide
    cases hother with
    | reference hname =>
      exact Nat.succ_le_succ (length_le_takeWhile hname (List.cons_prefix_cons.mp hstands).2)
    | _ => simp [classAt, hmark, classOf] at hclass

/-- At an at sign without a name behind it, no word starts. -/
theorem startsNone_marked (h : rest.head?.any isNameStart = false) : StartsNone α ('@' :: rest) := by
  intro taken kind htaken hstands
  have hclass := htaken.classAt_eq hstands
  have hmark : Decimal.isDigit '@' = false ∧ isNameStart '@' = false := by decide
  cases htaken with
  | reference hname =>
    rcases exists_of_isName hname with ⟨d, ds, hchars, hstart, -⟩
    rcases (List.cons_prefix_cons.mp hstands).2 with ⟨behind, hbehind⟩
    rw [← hbehind, hchars] at h
    simp [hstart] at h
  | _ => simp [classAt, hmark, classOf] at hclass

theorem ofSpelling?_eq_some {cs : List Char} {s : Symbol} :
    Symbol.ofSpelling? cs = some s ↔ s.spelling = cs := by
  constructor
  · intro h
    simpa using List.find?_some h
  · rintro rfl
    exact Symbol.ofSpelling?_spelling s

/-- A symbol at the head of a text is its first character or its first two. -/
theorem spelling_of_prefix {s : Symbol} (h : s.spelling <+: c :: rest) :
    s.spelling = c :: rest.take 1 ∨ s.spelling = [c] := by
  rcases exists_spelling s with ⟨d, ds, hspelling, hlength, -⟩
  rw [hspelling, List.cons_prefix_cons] at h
  rcases h with ⟨rfl, hstands⟩
  rw [hspelling]
  cases ds with
  | nil => exact .inr rfl
  | cons next ds =>
    obtain rfl : ds = [] := by simpa using hlength
    rcases hstands with ⟨behind, rfl⟩
    exact .inl rfl

/-- At any other character, the longest word is the symbol that is taken, and where none is taken no
word starts. -/
theorem symbolLexeme_spec (h : classAt c rest = .symbol) (hmark : c ≠ '@') :
    (∃ kind taken, IsLongest kind taken (c :: rest) ∧
        symbolLexeme c rest = (.word kind (taken.length - 1) : Lexeme α)) ∨
      StartsNone α (c :: rest) ∧ symbolLexeme c rest = (.fault (faultOf c) : Lexeme α) := by
  -- Only symbols can start here, with one character or with two.
  have hsymbol {taken : List Char} {kind : TokenKind α} (htaken : Spells taken kind)
      (hstands : taken <+: c :: rest) :
      (∃ s : Symbol, s.spelling = taken) ∧ (taken = c :: rest.take 1 ∨ taken = [c]) := by
    have hclass := htaken.classAt_eq hstands
    rw [h] at hclass
    cases htaken with
    | @symbol _ s spelled =>
      obtain rfl := spellsSymbol_iff.mp spelled
      exact ⟨⟨s, rfl⟩, spelling_of_prefix hstands⟩
    | _ => cases hclass
  rw [symbolLexeme]
  cases htwo : Symbol.ofSpelling? (c :: rest.take 1) with
  | some s =>
    have hspelling := ofSpelling?_eq_some.mp htwo
    refine .inl ⟨.symbol s, s.spelling,
      ⟨.symbol (spellsSymbol_iff.mpr rfl), ?_, fun hother hstands => ?_⟩, rfl⟩
    · rw [hspelling]
      exact List.cons_prefix_cons.mpr ⟨rfl, List.take_prefix 1 rest⟩
    · rw [hspelling]
      rcases (hsymbol hother hstands).2 with rfl | rfl <;> simp
  | none =>
    have hnotTwo {taken : List Char} {kind : TokenKind α} (htaken : Spells taken kind)
        (hstands : taken <+: c :: rest) : taken = [c] ∧ ∃ s, Symbol.ofSpelling? [c] = some s := by
      rcases hsymbol htaken hstands with ⟨⟨s, hspelling⟩, rfl | rfl⟩
      · rw [ofSpelling?_eq_some.mpr hspelling] at htwo
        cases htwo
      · exact ⟨rfl, s, ofSpelling?_eq_some.mpr hspelling⟩
    cases hone : Symbol.ofSpelling? [c] with
    | some s =>
      have hspelling := ofSpelling?_eq_some.mp hone
      refine .inl ⟨.symbol s, s.spelling,
        ⟨.symbol (spellsSymbol_iff.mpr rfl), ?_, fun hother hstands => ?_⟩, ?_⟩
      · rw [hspelling]
        exact List.cons_prefix_cons.mpr ⟨rfl, List.nil_prefix⟩
      · rw [hspelling, (hnotTwo hother hstands).1]
      · rw [hspelling]
        rfl
    | none =>
      refine .inr ⟨fun taken kind htaken hstands => ?_, ?_⟩
      · rcases (hnotTwo htaken hstands).2 with ⟨s, hs⟩
        rw [hone] at hs
        cases hs
      · simp only [faultOf, hmark, if_false]
        split_ifs <;> rfl

/-- At a character that is not white space stands the longest word there, or no word starts. -/
theorem lexeme_spec (hblank : Text.isBlank c = false) :
    (∃ kind taken, IsLongest kind taken (c :: rest) ∧
        lexeme c rest = (.word kind (taken.length - 1) : Lexeme α)) ∨
      StartsNone α (c :: rest) ∧ lexeme c rest = (.fault (faultOf c) : Lexeme α) := by
  rw [lexeme, if_neg (ne_true_of_eq_false hblank)]
  by_cases hnumber : (Decimal.isDigit c || (c = '.' && rest.head?.any Decimal.isDigit)) = true
  · rw [if_pos hnumber]
    exact .inl ⟨_, _, isLongest_number (if_pos hnumber), rfl⟩
  rw [if_neg hnumber]
  by_cases hstart : isNameStart c = true
  · rw [if_pos hstart]
    exact .inl ⟨_, _, isLongest_name hstart, rfl⟩
  rw [if_neg hstart]
  by_cases hmark : c = '@'
  · subst hmark
    rw [if_pos rfl]
    cases hname : rest.head?.any isNameStart with
    | true => exact .inl ⟨_, _, isLongest_marked hname, rfl⟩
    | false => exact .inr ⟨startsNone_marked hname, rfl⟩
  · rw [if_neg hmark]
    have hclass : classAt c rest = .symbol := by
      rw [classAt, if_neg hnumber, if_neg hstart, if_neg hmark]
    exact symbolLexeme_spec hclass hmark

/-- At white space stands no word. -/
theorem lexeme_of_blank (hblank : Text.isBlank c = true) : lexeme c rest = (.blank : Lexeme α) :=
  if_pos hblank

/-- The first character of a word is no white space. -/
theorem Spells.not_blank_head {taken : List Char} {kind : TokenKind α} (h : Spells taken kind)
    (hstands : taken <+: c :: rest) : Text.isBlank c = false := by
  rcases List.exists_cons_of_ne_nil h.ne_nil with ⟨d, ds, rfl⟩
  rw [← (List.cons_prefix_cons.mp hstands).1]
  exact h.not_blank d List.mem_cons_self

/-- The longest word at a place is what stands there. -/
theorem IsLongest.lexeme_eq {kind : TokenKind α} {taken : List Char}
    (h : IsLongest kind taken (c :: rest)) : lexeme c rest = .word kind (taken.length - 1) := by
  rcases lexeme_spec (α := α) (h.spells.not_blank_head h.isPrefix) with
    ⟨other, otherTaken, hother, hlexeme⟩ | ⟨hnone, -⟩
  · rcases h.unique hother with ⟨rfl, rfl⟩
    exact hlexeme
  · exact absurd h.isPrefix (hnone taken kind h.spells)

/-- Where no word starts stands the fault of the character there. -/
theorem StartsNone.lexeme_eq (h : StartsNone α (c :: rest)) (hblank : Text.isBlank c = false) :
    lexeme c rest = (.fault (faultOf c) : Lexeme α) := by
  rcases lexeme_spec (α := α) hblank with ⟨kind, taken, htaken, -⟩ | ⟨-, hlexeme⟩
  · exact absurd htaken.isPrefix (h taken kind htaken.spells)
  · exact hlexeme

end Lexeme

end Token
end DiscreteChoice
