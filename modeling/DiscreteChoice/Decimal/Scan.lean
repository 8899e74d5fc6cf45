import DiscreteChoice.Decimal.Basic

/-!
# Reading decimal literals

The literal `digits [. digits] [(e|E) [+|-] digits]` at the head of a text. A decimal point is
taken whenever it follows the whole part; an exponent only when it has a digit.

Main results:

- Theorem `scan_spelling`: the characters taken and the characters left make up the text.
-/

namespace DiscreteChoice
namespace Decimal

/-- A decimal literal at the head of a text, and what follows it. -/
structure Scan where
  whole : List Char
  /-- The decimal point, if there is one. -/
  point : List Char
  fraction : List Char
  /-- The spelling of the exponent with its letter and sign, if there is one. -/
  exponentText : List Char
  exponent : Int
  rest : List Char
deriving Repr

namespace Scan

/-- The number that a literal denotes. -/
def value (s : Scan) : Decimal :=
  ⟨digitsValue (s.whole ++ s.fraction), s.exponent - s.fraction.length⟩

/-- The characters of a literal. -/
def spelling (s : Scan) : List Char :=
  s.whole ++ s.point ++ s.fraction ++ s.exponentText

/-- Whether a literal has a digit in front of its exponent. -/
def hasDigit (s : Scan) : Bool :=
  !(s.whole.isEmpty && s.fraction.isEmpty)

end Scan

/-- Whether a character is one of the ten decimal digits. -/
def isDigit (c : Char) : Bool :=
  '0' ≤ c && c ≤ '9'

/-- The decimal point at the head of a text, and what follows it. -/
def scanPoint : List Char → List Char × List Char
  | '.' :: rest => (['.'], rest)
  | cs => ([], cs)

/-- The sign at the head of a text, and what follows it. -/
def scanSign : List Char → List Char × List Char
  | '+' :: rest => (['+'], rest)
  | '-' :: rest => (['-'], rest)
  | cs => ([], cs)

/-- The exponent at the head of a text: its spelling, its value and what follows it. Without a digit
there is no exponent. -/
def scanExponent (cs : List Char) : List Char × Int × List Char :=
  match cs with
  | [] => ([], 0, [])
  | mark :: tail =>
    if mark = 'e' ∨ mark = 'E' then
      let (sign, afterSign) := scanSign tail
      let digits := afterSign.takeWhile isDigit
      if digits.isEmpty then ([], 0, cs)
      else
        let size : Int := digitsValue digits
        (mark :: sign ++ digits, if sign = ['-'] then -size else size, afterSign.dropWhile isDigit)
    else ([], 0, cs)

/-- Reads the longest literal at the head of a text. -/
def scan (cs : List Char) : Scan :=
  let whole := cs.takeWhile isDigit
  let (point, afterPoint) := scanPoint (cs.dropWhile isDigit)
  let (fraction, afterFraction) :=
    if point.isEmpty then ([], afterPoint)
    else (afterPoint.takeWhile isDigit, afterPoint.dropWhile isDigit)
  let (exponentText, exponent, rest) := scanExponent afterFraction
  { whole, point, fraction, exponentText, exponent, rest }

theorem scanPoint_spelling (cs : List Char) : (scanPoint cs).1 ++ (scanPoint cs).2 = cs := by
  unfold scanPoint; split <;> rfl

theorem scanSign_spelling (cs : List Char) : (scanSign cs).1 ++ (scanSign cs).2 = cs := by
  unfold scanSign; split <;> rfl

theorem scanExponent_spelling (cs : List Char) :
    (scanExponent cs).1 ++ (scanExponent cs).2.2 = cs := by
  unfold scanExponent
  split
  · rfl
  · rename_i mark tail
    split
    · dsimp only
      split
      · rfl
      · simp [List.append_assoc, List.takeWhile_append_dropWhile, scanSign_spelling]
    · rfl

/-- The characters taken and the characters left make up the text. -/
theorem scan_spelling (cs : List Char) : (scan cs).spelling ++ (scan cs).rest = cs := by
  have exponent (ds : List Char) := scanExponent_spelling ds
  have point := scanPoint_spelling (cs.dropWhile isDigit)
  simp only [scan, Scan.spelling]
  by_cases h : (scanPoint (cs.dropWhile isDigit)).1.isEmpty = true
  · simp only [h, if_true, List.append_assoc, exponent, List.nil_append]
    rw [point, List.takeWhile_append_dropWhile]
  · simp only [h, List.append_assoc]
    simp only [Bool.false_eq_true, if_false, exponent]
    rw [List.takeWhile_append_dropWhile, point, List.takeWhile_append_dropWhile]

end Decimal
end DiscreteChoice
