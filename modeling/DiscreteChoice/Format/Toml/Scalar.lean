import DiscreteChoice.Format.Json

/-!
# Scalars of TOML

The numbers, truth values, dates and times of TOML.
-/

namespace DiscreteChoice
namespace Toml

/-- The digits of a string in which single underscores may stand between digits. -/
def plainDigits? (isDigit : Char → Bool) : List Char → Option (List Char)
  | [] => none
  | [c] => if isDigit c then some [c] else none
  | c :: '_' :: cs => if isDigit c then (plainDigits? isDigit cs).map (c :: ·) else none
  | c :: cs => if isDigit c then (plainDigits? isDigit cs).map (c :: ·) else none

/-- The value of a string of digits in a base. -/
def valueInBase? (base : Nat) (cs : List Char) : Option Nat := do
  let digits ← plainDigits? (fun c => (Json.hexValue? c).any (· < base)) cs
  digits.foldlM (fun value c => (Json.hexValue? c).map (value * base + ·)) 0

/-- How many numbers there are of 128 bits. -/
def wideSize : Nat :=
  UInt64.size * UInt64.size

/-- An integer, which has no meaning when it does not fit into 128 bits. -/
def boundedInteger (n : Int) : Document :=
  if -(wideSize : Int) ≤ 2 * n ∧ n < wideSize then .integer n else .invalid

/-- A float, which has no meaning when it is out of range. -/
def boundedFloat (x : Float) : Document :=
  if x.isFinite then .float x else .invalid

/-- Whether a character is a decimal digit or an underscore. -/
def isDigitOrLine (c : Char) : Bool :=
  Decimal.isDigit c || c = '_'

/-- The sign at the head of a text, whether it is a minus, and what follows it. -/
def splitSign (cs : List Char) : Bool × Bool × List Char :=
  match cs with
  | '-' :: rest => (true, true, rest)
  | '+' :: rest => (true, false, rest)
  | _ => (false, false, cs)

/-- The digits behind a point, and what follows them. -/
def fraction? (cs : List Char) : Option (List Char × List Char) :=
  match cs with
  | '.' :: rest => do
    let digits ← plainDigits? Decimal.isDigit (rest.takeWhile isDigitOrLine)
    return (digits, rest.dropWhile isDigitOrLine)
  | _ => some ([], cs)

/-- The exponent behind its letter, which ends the text. -/
def exponent? (cs : List Char) : Option Int :=
  match cs with
  | [] => some 0
  | mark :: rest =>
    if mark = 'e' ∨ mark = 'E' then do
      let (_, negative, body) := splitSign rest
      let digits ← plainDigits? Decimal.isDigit body
      let size : Int := Decimal.digitsValue digits
      return if negative then -size else size
    else none

/-- A decimal integer or a float. -/
def decimal? (cs : List Char) : Option Document := do
  let (_, negative, body) := splitSign cs
  if body = ['i', 'n', 'f'] then
    return .float (if negative then -Double.infinity else Double.infinity)
  else if body = ['n', 'a', 'n'] then return .float (0 / 0)
  else
    let whole ← plainDigits? Decimal.isDigit (body.takeWhile isDigitOrLine)
    let rest := body.dropWhile isDigitOrLine
    if whole ≠ ['0'] ∧ whole.head? = some '0' then none
    else if rest.isEmpty then
      let n : Int := Decimal.digitsValue whole
      return boundedInteger (if negative then -n else n)
    else
      let (fraction, rest) ← fraction? rest
      let exponent ← exponent? rest
      let size := Double.ofDecimal (Decimal.digitsValue (whole ++ fraction))
        (exponent - fraction.length)
      return boundedFloat (if negative then -size else size)

/-! ## Dates and times -/

/-- The number that is written with exactly the given count of digits at the head of a text. -/
def fixedNumber? (count : Nat) (cs : List Char) : Option (Nat × List Char) :=
  let digits := cs.take count
  if digits.length = count ∧ digits.all Decimal.isDigit then
    some (Decimal.digitsValue digits, cs.drop count)
  else none

/-- What follows a given character at the head of a text. -/
def after? (c : Char) : List Char → Option (List Char)
  | [] => none
  | d :: rest => if d = c then some rest else none

/-- How many days a month has. -/
def daysInMonth (year month : Nat) : Nat :=
  if month = 2 then
    if year % 4 = 0 ∧ (year % 100 ≠ 0 ∨ year % 400 = 0) then 29 else 28
  else if month = 4 ∨ month = 6 ∨ month = 9 ∨ month = 11 then 30
  else 31

/-- What follows a date at the head of a text. -/
def date? (cs : List Char) : Option (List Char) := do
  let (year, rest) ← fixedNumber? 4 cs
  let (month, rest) ← fixedNumber? 2 (← after? '-' rest)
  let (day, rest) ← fixedNumber? 2 (← after? '-' rest)
  if 1 ≤ month ∧ month ≤ 12 ∧ 1 ≤ day ∧ day ≤ daysInMonth year month then some rest else none

/-- What follows a time of day at the head of a text. -/
def timeOfDay? (cs : List Char) : Option (List Char) := do
  let (hour, rest) ← fixedNumber? 2 cs
  let (minute, rest) ← fixedNumber? 2 (← after? ':' rest)
  let (second, rest) ← fixedNumber? 2 (← after? ':' rest)
  if 23 < hour ∨ 59 < minute ∨ 60 < second then none
  else
    match rest with
    | '.' :: rest =>
      if (rest.takeWhile Decimal.isDigit).isEmpty then none
      else some (rest.dropWhile Decimal.isDigit)
    | _ => some rest

/-- What follows an offset from universal time at the head of a text, which may be missing. -/
def offset? (cs : List Char) : Option (List Char) :=
  match cs with
  | 'Z' :: rest => some rest
  | 'z' :: rest => some rest
  | sign :: rest =>
    if sign = '+' ∨ sign = '-' then do
      let (hour, rest) ← fixedNumber? 2 rest
      let (minute, rest) ← fixedNumber? 2 (← after? ':' rest)
      if 23 < hour ∨ 59 < minute then none else some rest
    else some cs
  | [] => some []

/-- A date, a time, or both. -/
def moment? (cs : List Char) : Option Document := do
  let rest ← match date? cs with
    | none => timeOfDay? cs
    | some [] => some []
    | some (mark :: rest) =>
      if mark = 'T' ∨ mark = 't' ∨ mark = ' ' then (timeOfDay? rest).bind offset? else none
  if rest.isEmpty then some (.time (String.ofList cs)) else none

/-- A scalar without quotes. -/
def bareScalar? (cs : List Char) : Option Document :=
  match cs with
  | ['t', 'r', 'u', 'e'] => some (.bool true)
  | ['f', 'a', 'l', 's', 'e'] => some (.bool false)
  | '0' :: 'x' :: digits => (valueInBase? 16 digits).map fun n => boundedInteger n
  | '0' :: 'o' :: digits => (valueInBase? 8 digits).map fun n => boundedInteger n
  | '0' :: 'b' :: digits => (valueInBase? 2 digits).map fun n => boundedInteger n
  | _ => (decimal? cs).or (moment? cs)

end Toml
end DiscreteChoice
