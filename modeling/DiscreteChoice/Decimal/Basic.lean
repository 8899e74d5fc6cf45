/-!
# Decimal numbers

Non-negative decimal numbers as they are written: a whole number of units of a power of ten.

Main results:

- Theorem `digitsValue_append`: the value of a digit string read left to right.
-/

namespace DiscreteChoice

/-- The non-negative number `digits * 10 ^ exponent`. -/
structure Decimal where
  digits : Nat
  exponent : Int
deriving Repr, DecidableEq, Inhabited

namespace Decimal

/-- A power of ten. -/
def powerOfTen (exponent : Nat) : Nat :=
  Nat.pow 10 exponent

@[simp] theorem powerOfTen_zero : powerOfTen 0 = 1 := rfl

@[simp] theorem powerOfTen_succ (exponent : Nat) :
    powerOfTen (exponent + 1) = 10 * powerOfTen exponent :=
  Nat.mul_comm _ _

/-- The value of a decimal digit. -/
def digitValue (c : Char) : Nat :=
  c.toNat - '0'.toNat

/-- The value of a string of decimal digits read after digits of value {lean}`start`. -/
def digitsValueFrom (start : Nat) (cs : List Char) : Nat :=
  cs.foldl (fun value c => value * 10 + digitValue c) start

/-- The value of a string of decimal digits, zero for the empty string. -/
def digitsValue (cs : List Char) : Nat :=
  digitsValueFrom 0 cs

@[simp] theorem digitsValue_nil : digitsValue [] = 0 := rfl

/-- One more digit on the right multiplies the value by ten. -/
@[simp] theorem digitsValue_append_singleton (cs : List Char) (c : Char) :
    digitsValue (cs ++ [c]) = digitsValue cs * 10 + digitValue c := by
  simp [digitsValue, digitsValueFrom]

theorem digitsValueFrom_eq (start : Nat) (cs : List Char) :
    digitsValueFrom start cs = start * powerOfTen cs.length + digitsValue cs := by
  induction cs generalizing start with
  | nil => simp [digitsValueFrom, digitsValue]
  | cons c cs ih =>
    have step (n : Nat) : digitsValueFrom n (c :: cs) = digitsValueFrom (n * 10 + digitValue c) cs :=
      rfl
    rw [digitsValue, step, step, ih, ih (0 * 10 + digitValue c), List.length_cons, powerOfTen_succ,
      Nat.zero_mul, Nat.zero_add, Nat.add_mul, Nat.mul_assoc, Nat.add_assoc]

/-- The value of a digit string read left to right. -/
theorem digitsValue_append (cs ds : List Char) :
    digitsValue (cs ++ ds) = digitsValue cs * powerOfTen ds.length + digitsValue ds := by
  have split : digitsValue (cs ++ ds) = digitsValueFrom (digitsValue cs) ds := by
    simp [digitsValue, digitsValueFrom]
  rw [split, digitsValueFrom_eq]

/-- The decimal digits of a number, one zero for zero. -/
def digitChars (n : Nat) : List Char :=
  Nat.toDigits 10 n

/-- How many decimal digits a number has. -/
def digitCount (n : Nat) : Nat :=
  (digitChars n).length

/-- Drops the zeros at the right end of the digits, without changing the number. -/
def trimZeros (d : Decimal) : Decimal :=
  go (digitCount d.digits) d
where
  /-- Drops at most the given number of zeros. -/
  go : Nat → Decimal → Decimal
    | 0, d => d
    | n + 1, d =>
      if d.digits % 10 = 0 ∧ d.digits ≠ 0 then go n ⟨d.digits / 10, d.exponent + 1⟩ else d

end Decimal
end DiscreteChoice
