import DiscreteChoice.Numeric.Basic
import DiscreteChoice.Decimal.Shortest
import DiscreteChoice.Decimal.Layout
import DiscreteChoice.Decimal.Scan

/-!
# Doubles

The number type that the program runs on. Doubles are read from decimals with correct rounding and
written with the shortest digits that read back.
-/

namespace DiscreteChoice
namespace Double

/-- The parts of a finite double: it is `significand * 2 ^ exponent`, with a sign. -/
structure Parts where
  negative : Bool
  significand : Nat
  exponent : Int
  /-- Whether the gap to the next smaller magnitude is half as wide as the gap to the next larger
  one. -/
  narrowBelow : Bool
deriving Repr

/-- The highest bit of the significand of a normal double. It is not stored. -/
def hiddenBit : Nat :=
  1 <<< 52

/-- The parts of a finite double. -/
def parts (x : Float) : Parts :=
  let bits := x.toBits.toNat
  let exponentField : Nat := (bits >>> 52) % 2048
  let fraction : Nat := bits % hiddenBit
  let negative := bits >>> 63 == 1
  if exponentField = 0 then ⟨negative, fraction, -1074, false⟩
  else 
    ⟨negative, fraction + hiddenBit, (exponentField : Int) - 1075,
      fraction == 0 && 1 < exponentField⟩

/-- Positive infinity. -/
def infinity : Float :=
  1 / 0

/-- The double nearest to `digits * 10 ^ exponent`. Numbers that are far out of range are settled by
their order of magnitude. -/
def ofDecimal (digits : Nat) (exponent : Int) : Float :=
  let magnitude := Decimal.digitCount digits + exponent
  if digits = 0 then 0
  else if 310 < magnitude then infinity
  else if magnitude < -330 then 0
  else Float.ofScientific digits (exponent < 0) exponent.natAbs

/-- The natural number that a double is, if it is one. -/
def toNat? (x : Float) : Option Nat :=
  let p := parts x
  let whole := p.significand <<< p.exponent.toNat
  let scale := 1 <<< (-p.exponent).toNat
  if x.isFinite && 0 ≤ x && whole % scale == 0 then some (whole / scale) else none

/-- The shortest decimal of the magnitude of a finite double. -/
def toDecimal (x : Float) : Decimal :=
  let p := parts x
  if p.significand = 0 then ⟨0, 0⟩
  else (Decimal.RoundingInterval.ofBinary p.significand p.exponent p.narrowBelow).shortest

/-- The text of a double with the given layout of its magnitude. Negative zero keeps its sign. -/
def text (layout : Decimal → String) (x : Float) : String :=
  if x.isNaN then "NaN"
  else
    let magnitude := if x.isFinite then layout (toDecimal x) else "inf"
    if (parts x).negative then "-" ++ magnitude else magnitude

/-- Reads a double: a sign, then a decimal literal or one of the words `inf`, `infinity` and `nan`
in any case. -/
def parse? (s : String) : Option Float :=
  let (sign, body) := Decimal.scanSign s.toList
  let magnitude? : Option Float :=
    let word := String.ofList (body.map Char.toLower)
    if word = "inf" ∨ word = "infinity" then some infinity
    else if word = "nan" then some (0 / 0)
    else
      let literal := Decimal.scan body
      if literal.hasDigit && literal.rest.isEmpty then
        some (ofDecimal literal.value.digits literal.value.exponent)
      else none
  magnitude?.map fun x => if sign = ['-'] then -x else x

end Double

namespace Double

/-- The transcendental functions of doubles. -/
structure MathLibrary where
  pow : Float → Float → Float
  exp : Float → Float
  ln : Float → Float

/-- The functions of the system. -/
def MathLibrary.system : MathLibrary :=
  ⟨Float.pow, Float.exp, Float.log⟩

/-- Doubles with the functions of a library. -/
abbrev numeric (library : MathLibrary) : Numeric Float where
  zero := 0
  one := 1
  pow := library.pow
  exp := library.exp
  ln := library.ln
  abs := Float.abs
  nan := 0 / 0
  isNaN := Float.isNaN
  isFinite := Float.isFinite
  eq x y := x == y
  lt x y := decide (x < y)
  le x y := decide (x ≤ y)
  ofDecimal := ofDecimal
  toNat? := toNat?

end Double

instance : Numeric Float :=
  Double.numeric .system

instance : NumberText Float where
  plain := Double.text Decimal.positional
  general := Double.text Decimal.general

end DiscreteChoice
