import DiscreteChoice.Format.Toml.Item
import DiscreteChoice.Format.Toml.Scalar

/-!
# TOML

Reading documents from TOML 1.0.
-/

namespace DiscreteChoice
namespace Toml

open Json (Reader)

/-- The greatest number of parts of a key, and of arrays and inline tables that lie in each other. -/
def maxNesting : Nat :=
  80

/-! ## Blanks, comments and line ends -/

/-- Whether a character is a blank inside of a line. -/
def isBlank (c : Char) : Bool :=
  c = ' ' || c = '\t'

/-- The rest of a text behind the blanks at its front. -/
def skipBlanks (cs : List Char) : List Char :=
  cs.dropWhile isBlank

/-- The line end at the head of a text, and what follows it. -/
def splitLineEnd? : Reader (List Char)
  | '\n' :: rest => some (['\n'], rest)
  | '\r' :: '\n' :: rest => some (['\r', '\n'], rest)
  | _ => none

/-- What follows a line end at the head of a text. -/
def lineEnd? (cs : List Char) : Option (List Char) :=
  (splitLineEnd? cs).map (·.2)

/-- Whether a character may stand in a comment or a string of one line. -/
def isPlain (c : Char) : Bool :=
  c = '\t' || (0x20 ≤ c.toNat && c.toNat ≠ 0x7f)

/-- The rest of a text behind the comment at its front, up to the line end. -/
def skipComment (cs : List Char) : List Char :=
  match cs with
  | '#' :: rest => rest.dropWhile isPlain
  | _ => cs

/-- What follows the blanks, comments and line ends at the head of a text. -/
def skipLines : Nat → List Char → List Char
  | 0, cs => cs
  | steps + 1, cs =>
    let rest := skipComment (skipBlanks cs)
    match lineEnd? rest with
    | some rest => skipLines steps rest
    | none => rest

/-! ## Strings -/

/-- The character of an escape behind the backslash. -/
def escape : Reader Char
  | 'b' :: rest => some ('\x08', rest)
  | 't' :: rest => some ('\t', rest)
  | 'n' :: rest => some ('\n', rest)
  | 'f' :: rest => some ('\x0c', rest)
  | 'r' :: rest => some ('\r', rest)
  | '"' :: rest => some ('"', rest)
  | '\\' :: rest => some ('\\', rest)
  | 'u' :: rest => codePoint 4 rest
  | 'U' :: rest => codePoint 8 rest
  | _ => none
where
  /-- The character with the code point of the given count of hexadecimal digits. -/
  codePoint (count : Nat) : Reader Char := fun cs =>
    if cs.length < count then none
    else do
      let n ← Json.hexDigits? (cs.take count)
      if n.isValidChar then some (Char.ofNat n, cs.drop count) else none

/-- The rest of a string of one line up to its closing quote. -/
def basicFrom : Nat → List Char → Reader String
  | 0, _, _ => none
  | steps + 1, found, cs =>
    match cs with
    | [] => none
    | '"' :: rest => some (String.ofList found.reverse, rest)
    | '\\' :: rest => do
      let (c, rest) ← escape rest
      basicFrom steps (c :: found) rest
    | c :: rest => if isPlain c then basicFrom steps (c :: found) rest else none

/-- The rest of a string of one line without escapes, up to its closing quote. -/
def literal : Reader String := fun cs =>
  match cs.dropWhile fun c => isPlain c && c ≠ '\'' with
  | '\'' :: rest => some (String.ofList (cs.takeWhile fun c => isPlain c && c ≠ '\''), rest)
  | _ => none

/-- The line end directly behind the opening of a string of several lines does not count. -/
def skipFirstLineEnd (cs : List Char) : List Char :=
  (lineEnd? cs).getD cs

/-- The quotes at the head of a text that still belong to a string of several lines, if its closing
quotes follow. -/
def closing? (quote : Char) (cs : List Char) : Option (List Char × List Char) :=
  let quotes := cs.takeWhile (· = quote)
  if 3 ≤ quotes.length ∧ quotes.length ≤ 5 then
    some (quotes.drop 3, cs.dropWhile (· = quote))
  else if 5 < quotes.length then some ([quote, quote], cs.drop 5)
  else none

/-- The rest of a text behind the blanks and line ends at its front. -/
def skipBlankLines : List Char → List Char
  | ' ' :: rest => skipBlankLines rest
  | '\t' :: rest => skipBlankLines rest
  | '\n' :: rest => skipBlankLines rest
  | '\r' :: '\n' :: rest => skipBlankLines rest
  | cs => cs

/-- What follows a backslash at the end of a line: the next character that is not blank. -/
def continued? (cs : List Char) : Option (List Char) :=
  (lineEnd? (skipBlanks cs)).map skipBlankLines

/-- The rest of a string of several lines up to its closing quotes. Its line ends stay as they
are. -/
def multiLineFrom (quote : Char) (escapes : Bool) : Nat → List Char → Reader String
  | 0, _, _ => none
  | steps + 1, found, cs =>
    match closing? quote cs with
    | some (quotes, rest) => some (String.ofList (found.reverse ++ quotes), rest)
    | none =>
      match splitLineEnd? cs with
      | some (lineEnd, rest) => multiLineFrom quote escapes steps (lineEnd.reverse ++ found) rest
      | none =>
        match cs with
        | [] => none
        | c :: rest =>
          if c = '\\' ∧ escapes then
            match continued? rest with
            | some rest => multiLineFrom quote escapes steps found rest
            | none => do
              let (c, rest) ← escape rest
              multiLineFrom quote escapes steps (c :: found) rest
          else if isPlain c then multiLineFrom quote escapes steps (c :: found) rest
          else none

/-- A string of one line. -/
def quoted : Reader String
  | '"' :: rest => basicFrom (rest.length + 1) [] rest
  | '\'' :: rest => literal rest
  | _ => none

/-- A string. -/
def string : Reader String
  | '"' :: '"' :: '"' :: rest =>
    multiLineFrom '"' true (rest.length + 1) [] (skipFirstLineEnd rest)
  | '\'' :: '\'' :: '\'' :: rest =>
    multiLineFrom '\'' false (rest.length + 1) [] (skipFirstLineEnd rest)
  | cs => quoted cs

/-! ## Keys -/

/-- Whether a character may stand in a key without quotes. -/
def isKeyChar (c : Char) : Bool :=
  c.isAlphanum || c = '_' || c = '-'

/-- One part of a key. -/
def keyPart : Reader String := fun cs =>
  match cs with
  | '"' :: _ => quoted cs
  | '\'' :: _ => quoted cs
  | _ =>
    let name := cs.takeWhile isKeyChar
    if name.isEmpty then none else some (String.ofList name, cs.dropWhile isKeyChar)

/-- A key of at most the given number of parts, which are separated by points. -/
def key : Nat → Reader (List String)
  | 0, _ => none
  | steps + 1, cs => do
    let (part, rest) ← keyPart (skipBlanks cs)
    match skipBlanks rest with
    | '.' :: rest => do
      let (parts, rest) ← key steps rest
      return (part :: parts, rest)
    | rest => return ([part], rest)

/-! ## Values -/

/-- Whether a character may stand in a scalar without quotes. -/
def isBareChar (c : Char) : Bool :=
  c.isAlphanum || c = '_' || c = '-' || c = '+' || c = '.' || c = ':'

/-- A scalar without quotes. A date may be separated from its time by a blank. -/
def bare : Reader Document := fun cs =>
  let word := cs.takeWhile isBareChar
  let rest := cs.dropWhile isBareChar
  match date? word, rest with
  | some [], ' ' :: next =>
    if next.head?.any Decimal.isDigit then
      (bareScalar? (word ++ ' ' :: next.takeWhile isBareChar)).map fun d =>
        (d, next.dropWhile isBareChar)
    else (bareScalar? word).map fun d => (d, rest)
  | _, _ => (bareScalar? word).map fun d => (d, rest)

/-- A value that is neither an array nor an inline table. -/
def scalar : Reader Document := fun cs =>
  match cs with
  | '"' :: _ => (string cs).map fun (s, rest) => (.text s, rest)
  | '\'' :: _ => (string cs).map fun (s, rest) => (.text s, rest)
  | _ => bare cs

/-- The rest of an array, which may go over several lines and end with a comma. -/
def itemsFrom (item : Reader Document) : Nat → Reader (List Document)
  | 0, _ => none
  | steps + 1, cs =>
    match skipLines cs.length cs with
    | ']' :: rest => some ([], rest)
    | cs => do
      let (first, rest) ← item cs
      match skipLines rest.length rest with
      | ',' :: rest => do
        let (others, rest) ← itemsFrom item steps rest
        return (first :: others, rest)
      | ']' :: rest => return ([first], rest)
      | _ => none

/-- A key with its value. -/
def pair (item : Reader Document) : Reader (List String × Document) := fun cs => do
  let (keys, rest) ← key maxNesting cs
  match skipBlanks rest with
  | '=' :: rest => do
    let (d, rest) ← item (skipBlanks rest)
    return ((keys, d), rest)
  | _ => none

/-- The rest of an inline table from a key on, with the entries so far. -/
def pairsFrom (item : Reader Document) : Nat → Entries → Reader Entries
  | 0, _, _ => none
  | steps + 1, found, cs => do
    let ((keys, d), rest) ← pair item cs
    let found ← assign keys (.value d) .opened found
    match skipBlanks rest with
    | ',' :: rest => pairsFrom item steps found rest
    | '}' :: rest => return (found, rest)
    | _ => none

/-- A value in which arrays and inline tables may be nested the given number of times. -/
def value : Nat → Reader Document
  | 0, cs => scalar cs
  | depth + 1, cs =>
    match cs with
    | '[' :: rest => (itemsFrom (value depth) (rest.length + 1) rest).map fun (items, rest) =>
      (.array items, rest)
    | '{' :: rest =>
      match skipBlanks rest with
      | '}' :: rest => some (.table [], rest)
      | _ => (pairsFrom (value depth) (rest.length + 1) [] rest).map fun (entries, rest) =>
        (.table (documentsOfEntries entries), rest)
    | _ => scalar cs

/-! ## Lines -/

/-- A line without what may follow it up to the line end. -/
def statement : Reader Statement
  | '[' :: '[' :: rest => do
    let (keys, rest) ← key maxNesting rest
    match rest with
    | ']' :: ']' :: rest => return (.elementHeader keys, rest)
    | _ => none
  | '[' :: rest => do
    let (keys, rest) ← key maxNesting rest
    match rest with
    | ']' :: rest => return (.header keys, rest)
    | _ => none
  | cs => (pair (value maxNesting) cs).map fun ((keys, d), rest) => (.assignment keys d, rest)

/-- The lines of a text. -/
def statements : Nat → List Char → Option (List Statement)
  | 0, _ => none
  | steps + 1, cs =>
    match skipLines cs.length cs with
    | [] => some []
    | cs => do
      let (first, rest) ← statement cs
      match skipComment (skipBlanks rest) with
      | [] => return [first]
      | rest => do
        let others ← statements steps (← lineEnd? rest)
        return first :: others

/-- A byte order mark at the head of a text does not count. -/
def skipMark : List Char → List Char
  | '\uFEFF' :: rest => rest
  | cs => cs

/-- The document that a text denotes. -/
def parse? (text : String) : Option Document := do
  let cs := skipMark text.toList
  documentOf? (← statements (cs.length + 1) cs)

end Toml
end DiscreteChoice
