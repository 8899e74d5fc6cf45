import DiscreteChoice.Decimal.Scan

/-!
# Reading whole numbers

Natural numbers below a bound, with an optional plus sign in front.

Main results:

- Theorem `parse_lt`: what is read is below the bound.
-/

namespace DiscreteChoice
namespace Text

/-- Why a text is no number. -/
inductive NumberFault where
  | empty
  | invalidDigit
  | tooLarge
  | invalidFloat
deriving Repr, DecidableEq

/-- The description of a fault. -/
def NumberFault.message : NumberFault → String
  | empty => "cannot parse integer from empty string"
  | invalidDigit => "invalid digit found in string"
  | tooLarge => "number too large to fit in target type"
  | invalidFloat => "invalid float literal"

/-- Reads digits behind a number, which has to stay below a bound. -/
def naturalFrom (bound base : Nat) (digit? : Char → Option Nat) :
    Nat → List Char → Except NumberFault Nat
  | value, [] => if value < bound then .ok value else .error .tooLarge
  | value, c :: cs =>
    match digit? c with
    | none => .error .invalidDigit
    | some d =>
      if value * base + d < bound then naturalFrom bound base digit? (value * base + d) cs
      else .error .tooLarge

/-- The rest of a text behind a plus sign that does not end it. -/
def skipPlus : List Char → List Char
  | '+' :: c :: rest => c :: rest
  | cs => cs

/-- Reads a number below a bound in a base. -/
def naturalInBase (bound base : Nat) (digit? : Char → Option Nat) (cs : List Char) :
    Except NumberFault Nat :=
  if (skipPlus cs).isEmpty then .error .empty else naturalFrom bound base digit? 0 (skipPlus cs)

/-- The value of a decimal digit. -/
def decimalDigit? (c : Char) : Option Nat :=
  if Decimal.isDigit c then some (Decimal.digitValue c) else none

/-- Reads a number below a bound. -/
def natural (bound : Nat) (s : String) : Except NumberFault Nat :=
  naturalInBase bound 10 decimalDigit? s.toList

/-- Reads a 32-bit word. -/
def word32 (s : String) : Except NumberFault UInt32 :=
  (natural UInt32.size s).map (·.toUInt32)

/-- Reads a 64-bit word. -/
def word64 (s : String) : Except NumberFault UInt64 :=
  (natural UInt64.size s).map (·.toUInt64)

theorem naturalFrom_lt {bound base : Nat} {digit? : Char → Option Nat} {value n : Nat}
    {cs : List Char} (h : naturalFrom bound base digit? value cs = .ok n) : n < bound := by
  induction cs generalizing value with
  | nil =>
    unfold naturalFrom at h
    split at h
    · cases h; assumption
    · cases h
  | cons c cs ih =>
    unfold naturalFrom at h
    split at h
    · cases h
    · split at h
      · exact ih h
      · cases h

/-- What is read is below the bound. -/
theorem parse_lt {bound : Nat} {s : String} {n : Nat} (h : natural bound s = .ok n) :
    n < bound := by
  simp only [natural, naturalInBase] at h
  split at h
  · cases h
  · exact naturalFrom_lt h

end Text
end DiscreteChoice
