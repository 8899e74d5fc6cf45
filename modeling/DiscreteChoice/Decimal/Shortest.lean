import DiscreteChoice.Decimal.Basic

/-!
# The shortest decimal that reads back

A binary floating point number stands for every real number that rounds to it. Its shortest
decimal is the one with the fewest digits in that interval; of two with equally many digits it is
the nearer one, and of two equally near ones the larger one.

The search is exact: the number, the ends of its interval and the candidates are compared as
fractions of natural numbers.
-/

namespace DiscreteChoice
namespace Decimal

/-- A positive fraction with the ends of the interval of numbers that round to it, all over one
denominator. -/
structure RoundingInterval where
  low : Nat
  value : Nat
  high : Nat
  denominator : Nat
  /-- Whether the ends themselves round to the number. -/
  closed : Bool
deriving Repr

namespace RoundingInterval

/-- The interval of the number `significand * 2 ^ exponent`. The gap below a power of two is half
as wide as the gap above it when {lean}`narrowBelow` is set; the ends belong to the number with the
even significand. -/
def ofBinary (significand : Nat) (exponent : Int) (narrowBelow : Bool) : RoundingInterval :=
  let up := (exponent - 2).toNat
  { low := (4 * significand - if narrowBelow then 1 else 2) <<< up
    value := (4 * significand) <<< up
    high := (4 * significand + 2) <<< up
    denominator := 1 <<< (2 - exponent).toNat
    closed := significand % 2 == 0 }

/-- Measures the interval in units of `10 ^ unit`. -/
def inUnits (r : RoundingInterval) (unit : Int) : RoundingInterval :=
  let up := powerOfTen (-unit).toNat
  { low := r.low * up
    value := r.value * up
    high := r.high * up
    denominator := r.denominator * powerOfTen unit.toNat
    closed := r.closed }

/-- Whether a whole number of units rounds to the number. -/
def admits (r : RoundingInterval) (units : Nat) : Bool :=
  let candidate := units * r.denominator
  if r.closed then r.low ≤ candidate && candidate ≤ r.high
  else r.low < candidate && candidate < r.high

/-- The whole number of units that rounds to the number and is nearest to it, the larger one of two
equally near ones. -/
def nearest? (r : RoundingInterval) : Option Nat :=
  let below := r.value / r.denominator
  let above := below + 1
  match r.admits below, r.admits above with
  | true, true => some (if 2 * (r.value % r.denominator) < r.denominator then below else above)
  | true, false => some below
  | false, true => some above
  | false, false => none

/-- The position of the decimal point of a positive fraction: the least `e` for which the fraction
is below `10 ^ e`. -/
def pointPosition (value denominator : Nat) : Int :=
  if denominator ≤ value then digitCount (value / denominator)
  else 1 - (digitCount ((denominator + value - 1) / value - 1) : Int)

/-- The shortest decimal among those with at least the given number of digits, where the count of
further attempts bounds the search. -/
def search (r : RoundingInterval) (point : Int) : Nat → Nat → Decimal
  | 0, digits => ⟨r.value / r.denominator, point - digits⟩
  | attempts + 1, digits =>
    let unit := point - digits
    match (r.inUnits unit).nearest? with
    | some units => ⟨units, unit⟩
    | none => search r point attempts (digits + 1)

/-- The shortest decimal that rounds to the number. Seventeen digits always suffice for a
double. -/
def shortest (r : RoundingInterval) : Decimal :=
  (search r (pointPosition r.value r.denominator) 17 1).trimZeros

end RoundingInterval

end Decimal
end DiscreteChoice
