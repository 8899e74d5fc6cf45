import DiscreteChoice.Format.Document
import DiscreteChoice.Numeric.Double

/-!
# JSON

Reading and writing documents as JSON. A number without a fraction and without an exponent is an
integer when it fits into 64 bits. Numbers that are out of range, strings with half of a character
and what is nested more than 127 times are well formed but have no meaning.

Main results:

- Theorem `hexValue?_lt`: a hexadecimal digit is below sixteen.
- Theorem `joinFrom_chars`: characters that are not escaped stand for themselves.
-/

namespace DiscreteChoice
namespace Json

/-- A reader of the front of a text, which leaves the rest. -/
abbrev Reader (β : Type) :=
  List Char → Option (β × List Char)

/-! ## Reading -/

/-- Whether a character separates the parts of a text. -/
def isSpace (c : Char) : Bool :=
  c = ' ' || c = '\t' || c = '\n' || c = '\r'

/-- The rest of a text behind the separating characters at its front. -/
def skipSpace (cs : List Char) : List Char :=
  cs.dropWhile isSpace

/-- The value of a hexadecimal digit. -/
def hexValue? (c : Char) : Option Nat :=
  if '0' ≤ c ∧ c ≤ '9' then some (c.toNat - '0'.toNat)
  else if 'a' ≤ c ∧ c ≤ 'f' then some (c.toNat - 'a'.toNat + 10)
  else if 'A' ≤ c ∧ c ≤ 'F' then some (c.toNat - 'A'.toNat + 10)
  else none

/-- A hexadecimal digit is below sixteen. -/
theorem hexValue?_lt {c : Char} {n : Nat} (h : hexValue? c = some n) : n < 16 := by
  have le_of (a b : Char) (hab : a ≤ b) : a.toNat ≤ b.toNat := hab
  unfold hexValue? at h
  split at h
  · rename_i hc
    have := le_of _ _ hc.2
    simp only [Option.some.injEq] at h
    have : '9'.toNat = 57 := rfl
    have : '0'.toNat = 48 := rfl
    omega
  · split at h
    · rename_i hc
      have := le_of _ _ hc.2
      simp only [Option.some.injEq] at h
      have : 'f'.toNat = 102 := rfl
      have : 'a'.toNat = 97 := rfl
      omega
    · split at h
      · rename_i hc
        have := le_of _ _ hc.2
        simp only [Option.some.injEq] at h
        have : 'F'.toNat = 70 := rfl
        have : 'A'.toNat = 65 := rfl
        omega
      · cases h

/-- The value of a string of hexadecimal digits. -/
def hexDigits? (cs : List Char) : Option Nat :=
  cs.foldlM (fun value c => (hexValue? c).map (value * 16 + ·)) 0

/-- A part of a string as it is written: a character, or an escaped half or whole of one. -/
inductive TextPart where
  | char (c : Char)
  | unit (n : Nat)
deriving Repr, DecidableEq

/-- Whether a number is the first half of a character beyond the first plane. -/
def isHighHalf (n : Nat) : Bool :=
  0xD800 ≤ n && n < 0xDC00

/-- Whether a number is the second half of a character beyond the first plane. -/
def isLowHalf (n : Nat) : Bool :=
  0xDC00 ≤ n && n < 0xE000

/-- The character of two halves. -/
def joinHalves (high low : Nat) : Char :=
  Char.ofNat ((high - 0xD800) * 1024 + (low - 0xDC00) + 0x10000)

/-- The characters of the parts of a string, which are given last first, in front of those that
follow. A half without the other one has no meaning. -/
def joinFrom (following : List Char) : List TextPart → Option (List Char)
  | [] => some following
  | .char c :: before => joinFrom (c :: following) before
  | .unit n :: .unit high :: before =>
    if isLowHalf n then
      if isHighHalf high then joinFrom (joinHalves high n :: following) before else none
    else if isHighHalf n then none
    else joinFrom (Char.ofNat n :: following) (.unit high :: before)
  | .unit n :: before =>
    if isLowHalf n || isHighHalf n then none else joinFrom (Char.ofNat n :: following) before

/-- Characters that are not escaped stand for themselves. -/
theorem joinFrom_chars (following cs : List Char) :
    joinFrom following (cs.map .char) = some (cs.reverse ++ following) := by
  induction cs generalizing following with
  | nil => rfl
  | cons c cs ih => simp [joinFrom, ih]

/-- The character that a letter behind a backslash stands for. -/
def simpleEscape? : Char → Option Char
  | '"' => some '"'
  | '\\' => some '\\'
  | '/' => some '/'
  | 'b' => some '\x08'
  | 'f' => some '\x0c'
  | 'n' => some '\n'
  | 'r' => some '\r'
  | 't' => some '\t'
  | _ => none

/-- The parts of a string up to the closing quote, behind those that have been found. They are given
last first. -/
def partsFrom (found : List TextPart) : Reader (List TextPart)
  | [] => none
  | '"' :: rest => some (found, rest)
  | '\\' :: 'u' :: a :: b :: c :: d :: rest => do
    let n ← hexDigits? [a, b, c, d]
    partsFrom (.unit n :: found) rest
  | '\\' :: c :: rest => do
    let c ← simpleEscape? c
    partsFrom (.char c :: found) rest
  | c :: rest =>
    if c.toNat < 0x20 ∨ c = '\\' then none else partsFrom (.char c :: found) rest

/-- A string behind its opening quote, which may have no meaning. -/
def string : Reader (Option String) := fun cs =>
  (partsFrom [] cs).map fun (found, rest) => ((joinFrom [] found).map String.ofList, rest)

/-- The number of a literal behind its sign. -/
def numberValue (negative : Bool) (literal : Decimal.Scan) : Document :=
  let value := Double.ofDecimal literal.value.digits literal.value.exponent
  let float : Document :=
    if value.isFinite then .float (if negative then -value else value) else .invalid
  if literal.point.isEmpty && literal.exponentText.isEmpty then
    let n := literal.value.digits
    if negative then if 0 < n ∧ 2 * n ≤ UInt64.size then .integer (-(n : Int)) else float
    else if n < UInt64.size then .integer n else float
  else float

/-- A number. -/
def number : Reader Document := fun cs =>
  let (negative, body) := match cs with
    | '-' :: rest => (true, rest)
    | _ => (false, cs)
  let literal := Decimal.scan body
  let wholeFits := literal.whole = ['0'] ∨ (literal.whole ≠ [] ∧ literal.whole.head? ≠ some '0')
  let fractionFits := literal.point = [] ∨ literal.fraction ≠ []
  if wholeFits ∧ fractionFits then
    some (numberValue negative literal, literal.rest)
  else none

/-- A value that is neither an array nor an object. -/
def scalar : Reader Document
  | 'n' :: 'u' :: 'l' :: 'l' :: rest => some (.null, rest)
  | 't' :: 'r' :: 'u' :: 'e' :: rest => some (.bool true, rest)
  | 'f' :: 'a' :: 'l' :: 's' :: 'e' :: rest => some (.bool false, rest)
  | '"' :: rest => (string rest).map fun (s, rest) => ((s.map .text).getD .invalid, rest)
  | cs => number cs

/-- The rest of an array from an item on. -/
def itemsFrom (item : Reader Document) : Nat → Reader (List Document)
  | 0, _ => none
  | steps + 1, cs => do
    let (first, rest) ← item (skipSpace cs)
    match skipSpace rest with
    | ',' :: rest => do
      let (others, rest) ← itemsFrom item steps rest
      return (first :: others, rest)
    | ']' :: rest => return ([first], rest)
    | _ => none

/-- The rest of an object from a name on. -/
def entriesFrom (item : Reader Document) : Nat → Reader (List (Option String × Document))
  | 0, _ => none
  | steps + 1, cs =>
    match skipSpace cs with
    | '"' :: rest => do
      let (name, rest) ← string rest
      match skipSpace rest with
      | ':' :: rest => do
        let (value, rest) ← item (skipSpace rest)
        match skipSpace rest with
        | ',' :: rest => do
          let (others, rest) ← entriesFrom item steps rest
          return ((name, value) :: others, rest)
        | '}' :: rest => return ([(name, value)], rest)
        | _ => none
      | _ => none
    | _ => none

/-- The table of entries, which has no meaning when one of their names has none. -/
def tableOf (entries : List (Option String × Document)) : Document :=
  match entries.mapM fun entry => entry.1.map fun name => (name, entry.2) with
  | some entries => .table entries
  | none => .invalid

/-- A value, where the steps bound the nesting and the lengths of arrays and objects. -/
def value : Nat → Reader Document
  | 0, cs => scalar cs
  | steps + 1, cs =>
    match cs with
    | '[' :: rest =>
      match skipSpace rest with
      | ']' :: rest => some (.array [], rest)
      | _ => (itemsFrom (value steps) steps rest).map fun (items, rest) => (.array items, rest)
    | '{' :: rest =>
      match skipSpace rest with
      | '}' :: rest => some (.table [], rest)
      | _ => (entriesFrom (value steps) steps rest).map fun (entries, rest) =>
        (tableOf entries, rest)
    | _ => scalar cs

/-- How deep arrays and objects may be nested. -/
def maxDepth : Nat := 127

/-- The document that a text denotes. -/
def parse? (text : String) : Option Document :=
  let cs := skipSpace text.toList
  match value (cs.length + 1) cs with
  | some (document, rest) =>
    if (skipSpace rest).isEmpty then some (document.cut maxDepth) else none
  | none => none

/-! ## Writing -/

/-- A hexadecimal digit. -/
def hexChar (n : Nat) : Char :=
  (Nat.digitChar n)

/-- The characters that stand for a character in a string. -/
def escape (c : Char) : List Char :=
  match c with
  | '"' => ['\\', '"']
  | '\\' => ['\\', '\\']
  | '\n' => ['\\', 'n']
  | '\r' => ['\\', 'r']
  | '\t' => ['\\', 't']
  | c =>
    if c.toNat < 0x20 then
      ['\\', 'u', '0', '0', hexChar (c.toNat / 16), hexChar (c.toNat % 16)]
    else [c]

/-- A string between double quotes. -/
def quote (s : String) : String :=
  "\"" ++ String.ofList (s.toList.flatMap escape) ++ "\""

mutual

/-- The text of a document. A number that is not finite and what has no meaning are written as
null. -/
def render : Document → String
  | .null => "null"
  | .bool b => if b then "true" else "false"
  | .integer n => toString n
  | .float x => if x.isFinite then NumberText.general x else "null"
  | .text s => quote s
  | .time s => quote s
  | .invalid => "null"
  | .array items => "[" ++ String.intercalate "," (renderItems items) ++ "]"
  | .table entries => "\x7b" ++ String.intercalate "," (renderEntries entries) ++ "\x7d"

/-- The texts of the items of an array. -/
def renderItems : List Document → List String
  | [] => []
  | item :: items => render item :: renderItems items

/-- The texts of the entries of an object. -/
def renderEntries : List (String × Document) → List String
  | [] => []
  | (name, item) :: entries => (quote name ++ ":" ++ render item) :: renderEntries entries

end

end Json
end DiscreteChoice
