import Mathlib
import DiscreteChoice.Decimal.Scan
import DiscreteChoice.Numeric.Double

/-!
# Decimal literals

The spellings of non-negative numbers and what they denote, without saying how they are read:

    literal   →  whole [fraction] [exponent]        with a digit in front of the exponent
    whole     →  digits, maybe none
    fraction  →  .  and digits, maybe none
    exponent  →  e or E, maybe a sign, and digits

Main results:

- Theorem `isLiteral_scan`: what is taken from the head of a text is a literal.
- Theorem `IsLiteral.length_le`: no longer literal stands at the head of the text.
- Theorem `IsLiteral.scan_eq`: a literal that is read whole denotes the number that is read.
- Theorem `IsLiteral.parse?_eq`: every literal reads as a double, the one nearest to its number.
-/

namespace DiscreteChoice
namespace Decimal

/-! ## Spellings -/

/-- The characters are decimal digits. -/
def AreDigits (cs : List Char) : Prop :=
  ∀ c ∈ cs, isDigit c = true

/-- The characters are nothing, or a decimal point and the given digits. -/
inductive IsFraction : List Char → List Char → Prop
  | absent : IsFraction [] []
  | present {digits : List Char} (areDigits : AreDigits digits) : IsFraction ('.' :: digits) digits

/-- The characters are nothing, or an exponent with its mark and maybe a sign. -/
inductive IsExponent : List Char → Int → Prop
  | absent : IsExponent [] 0
  | present {mark : Char} {sign digits : List Char} (isMark : mark = 'e' ∨ mark = 'E')
      (isSign : sign = [] ∨ sign = ['+'] ∨ sign = ['-']) (areDigits : AreDigits digits)
      (ne_nil : digits ≠ []) :
      IsExponent (mark :: (sign ++ digits))
        (if sign = ['-'] then -(digitsValue digits : Int) else digitsValue digits)

/-- The characters are the literal of a number. -/
inductive IsLiteral : List Char → Decimal → Prop
  | mk {whole point fraction exponentText : List Char} {exponent : Int}
      (isWhole : AreDigits whole) (isFraction : IsFraction point fraction)
      (ne_nil : whole ++ fraction ≠ []) (isExponent : IsExponent exponentText exponent) :
      IsLiteral (whole ++ point ++ exponentText)
        ⟨digitsValue (whole ++ fraction), exponent - fraction.length⟩

/-! ## Digits at the head of a text -/

theorem areDigits_takeWhile (cs : List Char) : AreDigits (cs.takeWhile isDigit) :=
  fun _ => List.mem_takeWhile_imp

/-- Digits in front of a text are taken, and then those of the text. -/
theorem AreDigits.takeWhile_append {ds : List Char} (h : AreDigits ds) (rest : List Char) :
    (ds ++ rest).takeWhile isDigit = ds ++ rest.takeWhile isDigit :=
  List.takeWhile_append_of_pos h

theorem AreDigits.dropWhile_append {ds : List Char} (h : AreDigits ds) (rest : List Char) :
    (ds ++ rest).dropWhile isDigit = rest.dropWhile isDigit :=
  List.dropWhile_append_of_pos h

/-- A mark of an exponent is no digit, and no decimal point. -/
theorem isDigit_of_isMark {mark : Char} (h : mark = 'e' ∨ mark = 'E') :
    isDigit mark = false ∧ mark ≠ '.' := by
  rcases h with rfl | rfl <;> decide

/-! ## Exponents -/

/-- What is taken as an exponent is one. -/
theorem isExponent_scanExponent (cs : List Char) :
    IsExponent (scanExponent cs).1 (scanExponent cs).2.1 := by
  unfold scanExponent
  split
  · exact .absent
  · rename_i mark tail
    split
    · rename_i hmark
      dsimp only
      split
      · exact .absent
      · rename_i hdigits
        have hsign : (scanSign tail).1 = [] ∨ (scanSign tail).1 = ['+'] ∨
            (scanSign tail).1 = ['-'] := by
          unfold scanSign
          split <;> simp
        exact .present hmark hsign (areDigits_takeWhile _) (by simpa using hdigits)
    · exact .absent

/-- An exponent in front of a text is taken, with the digits that follow it. -/
theorem IsExponent.scanExponent_append {cs : List Char} {x : Int} (h : IsExponent cs x)
    (hne : cs ≠ []) (rest : List Char) :
    (scanExponent (cs ++ rest)).1 = cs ++ rest.takeWhile isDigit ∧
      (rest = [] → (scanExponent (cs ++ rest)).2.1 = x) := by
  cases h with
  | absent => exact absurd rfl hne
  | present isMark isSign areDigits ne_nil =>
    rename_i mark sign digits
    have hsign : scanSign (sign ++ (digits ++ rest)) = (sign, digits ++ rest) := by
      rcases isSign with rfl | rfl | rfl
      · rcases List.exists_cons_of_ne_nil ne_nil with ⟨d, ds, rfl⟩
        have hd : isDigit d = true := areDigits d List.mem_cons_self
        rw [List.nil_append, List.cons_append, scanSign]
        · rintro _ ⟨rfl, -⟩
          revert hd
          decide
        · rintro _ ⟨rfl, -⟩
          revert hd
          decide
      · rfl
      · rfl
    have htaken : (digits ++ rest.takeWhile isDigit).isEmpty = false := by simp [ne_nil]
    simp only [scanExponent, List.cons_append, List.append_assoc, isMark, if_true, hsign,
      areDigits.takeWhile_append, htaken, Bool.false_eq_true, if_false, true_and]
    rintro rfl
    simp

/-! ## Literals -/

/-- A decimal point behind the whole part is taken, with the digits that follow it. -/
theorem scan_of_point {cs rest : List Char} (h : cs.dropWhile isDigit = '.' :: rest) :
    scan cs = ⟨cs.takeWhile isDigit, ['.'], rest.takeWhile isDigit,
      (scanExponent (rest.dropWhile isDigit)).1, (scanExponent (rest.dropWhile isDigit)).2.1,
      (scanExponent (rest.dropWhile isDigit)).2.2⟩ := by
  simp [scan, h, scanPoint]

/-- Without a decimal point behind the whole part there is no fraction. -/
theorem scan_of_no_point {cs : List Char} (h : ∀ rest, cs.dropWhile isDigit ≠ '.' :: rest) :
    scan cs = ⟨cs.takeWhile isDigit, [], [], (scanExponent (cs.dropWhile isDigit)).1,
      (scanExponent (cs.dropWhile isDigit)).2.1, (scanExponent (cs.dropWhile isDigit)).2.2⟩ := by
  have hpoint : scanPoint (cs.dropWhile isDigit) = ([], cs.dropWhile isDigit) := by
    unfold scanPoint
    split
    · rename_i rest heq
      exact absurd heq (h rest)
    · rfl
  simp [scan, hpoint]

/-- The whole part is made of the digits at the head of the text. -/
theorem scan_whole (cs : List Char) : (scan cs).whole = cs.takeWhile isDigit := rfl

theorem Scan.hasDigit_iff (s : Scan) : s.hasDigit = true ↔ s.whole ++ s.fraction ≠ [] := by
  cases h : s.whole <;> simp [hasDigit, h]

/-- What is taken from the head of a text is a literal, when it has a digit. -/
theorem isLiteral_scan {cs : List Char} (h : (scan cs).hasDigit = true) :
    IsLiteral (scan cs).spelling (scan cs).value := by
  rw [Scan.hasDigit_iff] at h
  rw [Scan.spelling, Scan.value, List.append_assoc (scan cs).whole]
  by_cases hpoint : ∃ rest, cs.dropWhile isDigit = '.' :: rest
  · rcases hpoint with ⟨rest, hrest⟩
    rw [scan_of_point hrest] at h ⊢
    exact .mk (areDigits_takeWhile cs) (.present (areDigits_takeWhile rest)) h
      (isExponent_scanExponent (rest.dropWhile isDigit))
  · rw [scan_of_no_point (not_exists.mp hpoint)] at h ⊢
    exact .mk (areDigits_takeWhile cs) .absent h (isExponent_scanExponent (cs.dropWhile isDigit))

/-- Behind digits, an exponent in front of a text is taken: none of it counts as a digit, and what
is taken of it and the text is at least as long as it. -/
theorem IsExponent.taken {cs : List Char} {x : Int} (h : IsExponent cs x) (rest : List Char) :
    cs.length ≤ ((cs ++ rest).takeWhile isDigit).length +
        (scanExponent ((cs ++ rest).dropWhile isDigit)).1.length ∧
      (rest = [] → (cs ++ rest).takeWhile isDigit = [] ∧
        (scanExponent ((cs ++ rest).dropWhile isDigit)).2.1 = x) ∧
      (cs ≠ [] → ∀ others, (cs ++ rest).dropWhile isDigit ≠ '.' :: others) := by
  by_cases hne : cs = []
  · subst hne
    cases h
    refine ⟨Nat.zero_le _, ?_, fun h => absurd rfl h⟩
    rintro rfl
    exact ⟨rfl, rfl⟩
  · rcases h.scanExponent_append hne rest with ⟨htext, hvalue⟩
    have hhead : (cs ++ rest).takeWhile isDigit = [] ∧
        (cs ++ rest).dropWhile isDigit = cs ++ rest ∧ ∀ others, cs ++ rest ≠ '.' :: others := by
      cases h with
      | absent => exact absurd rfl hne
      | present isMark _ _ _ =>
        rcases isDigit_of_isMark isMark with ⟨hdigit, hpoint⟩
        simp [hdigit, hpoint]
    rcases hhead with ⟨htake, hdrop, hpoint⟩
    rw [htake, hdrop, htext]
    exact ⟨by simp, fun h => ⟨rfl, hvalue h⟩, fun _ => hpoint⟩

/-- A literal in front of a text is taken apart: what is taken is at least as long as it, and when no
text follows, the parts are its parts. -/
theorem scan_of_parts {whole point fraction exponentText rest cs : List Char} {x : Int}
    (isWhole : AreDigits whole) (isFraction : IsFraction point fraction)
    (isExponent : IsExponent exponentText x) (h : whole ++ (point ++ (exponentText ++ rest)) = cs) :
    (whole ++ (point ++ exponentText)).length ≤ (scan cs).spelling.length ∧
      (rest = [] → (scan cs).whole = whole ∧ (scan cs).fraction = fraction ∧
        (scan cs).exponent = x) := by
  rcases isExponent.taken rest with ⟨hlength, hparts, hpoint⟩
  have htake := isWhole.takeWhile_append (point ++ (exponentText ++ rest))
  have hdrop := isWhole.dropWhile_append (point ++ (exponentText ++ rest))
  rw [h] at htake hdrop
  cases isFraction with
  | absent =>
    rw [List.nil_append] at htake hdrop
    by_cases hnext : ∃ others, (exponentText ++ rest).dropWhile isDigit = '.' :: others
    · -- A decimal point can only follow a literal that is digits alone.
      rcases hnext with ⟨others, hnext⟩
      have hnone : exponentText = [] := by
        by_contra hne
        exact hpoint hne others hnext
      subst hnone
      rw [scan_of_point (hdrop.trans hnext), Scan.spelling, htake]
      refine ⟨by simp only [List.length_append, List.length_nil]; omega, ?_⟩
      rintro rfl
      cases hnext
    · rw [scan_of_no_point (by rw [hdrop]; exact not_exists.mp hnext), Scan.spelling, htake, hdrop]
      refine ⟨by simp only [List.length_append, List.length_nil]; omega, fun hrest => ?_⟩
      rcases hparts hrest with ⟨hnothing, hvalue⟩
      exact ⟨by rw [hnothing, List.append_nil], rfl, hvalue⟩
  | present areDigits =>
    have hnone : isDigit '.' = false := by decide
    rw [List.cons_append, List.takeWhile_cons_of_neg (by simp [hnone]), List.append_nil] at htake
    rw [List.cons_append, List.dropWhile_cons_of_neg (by simp [hnone])] at hdrop
    rw [scan_of_point hdrop, Scan.spelling, htake, areDigits.takeWhile_append,
      areDigits.dropWhile_append]
    refine ⟨by simp only [List.length_append, List.length_cons, List.length_nil]; omega,
      fun hrest => ?_⟩
    rcases hparts hrest with ⟨hnothing, hvalue⟩
    exact ⟨rfl, by rw [hnothing, List.append_nil], hvalue⟩

/-- No longer literal stands at the head of a text than the one that is taken. -/
theorem IsLiteral.length_le {taken : List Char} {d : Decimal} (h : IsLiteral taken d)
    (rest : List Char) : taken.length ≤ (scan (taken ++ rest)).spelling.length := by
  cases h with
  | mk isWhole isFraction _ isExponent =>
    simp only [List.append_assoc]
    exact (scan_of_parts isWhole isFraction isExponent rfl).1

/-- A literal is taken as a whole, and denotes the number that is read from it. -/
theorem IsLiteral.scan_eq {cs : List Char} {d : Decimal} (h : IsLiteral cs d) :
    (scan cs).value = d ∧ (scan cs).hasDigit = true ∧ (scan cs).rest = [] := by
  have hlength : cs.length ≤ (scan cs).spelling.length := by
    simpa using h.length_le []
  have hrest : (scan cs).rest = [] := by
    have := congrArg List.length (scan_spelling cs)
    rw [List.length_append] at this
    exact List.length_eq_zero_iff.mp (by omega)
  cases h with
  | mk isWhole isFraction ne_nil isExponent =>
    have hparts := (scan_of_parts isWhole isFraction isExponent (congrArg _ (congrArg _
      (List.append_nil _)))).2 rfl
    rw [← List.append_assoc] at hparts
    rcases hparts with ⟨hwhole, hfraction, hvalue⟩
    rw [Scan.hasDigit_iff, Scan.value, hwhole, hfraction, hvalue]
    exact ⟨rfl, ne_nil, hrest⟩

/-- A literal starts with a digit, or with a decimal point and a digit. -/
theorem IsLiteral.head {cs : List Char} {d : Decimal} (h : IsLiteral cs d) :
    ∃ c rest, cs = c :: rest ∧ (isDigit c = true ∨ c = '.' ∧ rest.head?.any isDigit = true) := by
  cases h with
  | @mk whole point fraction exponentText exponent isWhole isFraction ne_nil _ =>
    cases whole with
    | cons c whole => exact ⟨c, _, rfl, .inl (isWhole c List.mem_cons_self)⟩
    | nil =>
      cases isFraction with
      | absent => exact absurd rfl ne_nil
      | present areDigits =>
        rcases List.exists_cons_of_ne_nil ne_nil with ⟨next, digits, hdigits⟩
        rw [List.nil_append] at hdigits
        subst hdigits
        exact ⟨'.', _, rfl, .inr ⟨rfl, areDigits next List.mem_cons_self⟩⟩

/-- Digits have no case. -/
theorem toLower_of_isDigit {c : Char} (h : isDigit c = true) : c.toLower = c := by
  simp only [isDigit, Bool.and_eq_true, decide_eq_true_eq, Char.le_def,
    UInt32.le_iff_toNat_le] at h
  rw [Char.toLower, dif_neg]
  rintro ⟨hcapital, -⟩
  have hcapital : 65 ≤ c.val.toNat := hcapital
  have hnine : c.val.toNat ≤ 57 := h.2
  omega

/-- Every literal reads as a double, the one nearest to its number. -/
theorem IsLiteral.parse?_eq {cs : List Char} {d : Decimal} (h : IsLiteral cs d) :
    Double.parse? (String.ofList cs) = some (Double.ofDecimal d.digits d.exponent) := by
  rcases h.scan_eq with ⟨hvalue, hdigit, hrest⟩
  rcases h.head with ⟨c, rest, rfl, hc⟩
  -- A literal starts with neither a sign nor a letter.
  have hstart : c ≠ '+' ∧ c ≠ '-' ∧ c.toLower ≠ 'i' ∧ c.toLower ≠ 'n' := by
    rcases hc with hc | ⟨rfl, -⟩
    · rw [toLower_of_isDigit hc]
      refine ⟨?_, ?_, ?_, ?_⟩ <;> (rintro rfl; revert hc; decide)
    · decide
  rcases hstart with ⟨hplus, hminus, hi, hn⟩
  have hsign : scanSign (c :: rest) = ([], c :: rest) := by simp [scanSign, hplus, hminus]
  have hword (word : String) (first : Char) (hfirst : word.toList.head? = some first)
      (hne : c.toLower ≠ first) : String.ofList ((c :: rest).map Char.toLower) ≠ word := by
    rintro rfl
    simp [hne] at hfirst
  simp only [Double.parse?, String.toList_ofList, hsign,
    hword "inf" 'i' (by decide) hi, hword "infinity" 'i' (by decide) hi,
    hword "nan" 'n' (by decide) hn, hdigit, hrest, hvalue]
  rfl

end Decimal
end DiscreteChoice
