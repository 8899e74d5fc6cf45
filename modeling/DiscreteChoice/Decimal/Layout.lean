import DiscreteChoice.Decimal.Basic

/-!
# Decimal layouts

The texts of a decimal number: positional, positional with the mark of a fraction, and scientific.
-/

namespace DiscreteChoice
namespace Decimal

/-- A string of zeros. -/
def zeros (n : Nat) : List Char :=
  List.replicate n '0'

/-- The digits with the decimal point among them and no exponent, however large or small the number
is. -/
def positional (d : Decimal) : String :=
  let digits := digitChars d.digits
  let places := (-d.exponent).toNat
  String.ofList <|
    if 0 ≤ d.exponent then digits ++ zeros d.exponent.toNat
    else if places < digits.length then
      digits.take (digits.length - places) ++ '.' :: digits.drop (digits.length - places)
    else '0' :: '.' :: zeros (places - digits.length) ++ digits

/-- The positional text, with `.0` behind a whole number. -/
def pointed (d : Decimal) : String :=
  if 0 ≤ d.exponent then d.positional ++ ".0" else d.positional

/-- One digit before the decimal point and a power of ten behind the rest. -/
def scientific (d : Decimal) : String :=
  let digits := digitChars d.digits
  let power := toString (d.exponent + digits.length - 1)
  let fraction := if digits.length ≤ 1 then [] else '.' :: digits.drop 1
  String.ofList (digits.take 1 ++ fraction) ++ "e" ++ power

/-- How many digits stand before the decimal point; a negative count is one of zeros behind it. -/
def pointIndex (d : Decimal) : Int :=
  digitCount d.digits + d.exponent

/-- The pointed text of zero and of the numbers from `1e-4` to below `1e16`, and the scientific text
of the others. -/
def general (d : Decimal) : String :=
  if d.digits = 0 ∨ (-3 ≤ d.pointIndex ∧ d.pointIndex ≤ 16) then d.pointed else d.scientific

end Decimal
end DiscreteChoice
