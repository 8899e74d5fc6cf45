import DiscreteChoice.Text.Blank

/-!
# Comma-separated tables

Reading and writing tables as text. A field may be put between double quotes, in which a quote is
written twice. A line ends at a line feed, a carriage return, or both; empty lines do not count. All
rows have as many fields as the header.

Main results:

- Theorem `unquote_quoteField`: a quoted field is read back.
-/

namespace DiscreteChoice
namespace Csv

/-- Why a table is refused. -/
inductive Fault where
  | encoding
  | unequalLengths
  /-- A cell that does not fit its column. -/
  | content
  | unreadable
deriving Repr, DecidableEq

/-! ## Splitting -/

/-- Where in a table a byte stands. -/
inductive Place where
  | rowStart
  | fieldStart
  | bare
  | quoted
  /-- Behind a quote inside of a quoted field. -/
  | quoteSeen
deriving Repr, DecidableEq

/-- Whether a byte ends a line. -/
def isLineEnd (b : UInt8) : Bool :=
  b = 0x0a || b = 0x0d

/-- What has been read: the field and the row so far, and the rows before, each last first. -/
structure Splitting where
  place : Place
  field : List UInt8
  row : List (List UInt8)
  rows : List (List (List UInt8))
deriving Repr

namespace Splitting

/-- Nothing has been read. -/
def start : Splitting :=
  ⟨.rowStart, [], [], []⟩

/-- Adds a byte to the field. -/
def append (s : Splitting) (b : UInt8) (place : Place) : Splitting :=
  { s with place := place, field := b :: s.field }

/-- Ends the field. -/
def endField (s : Splitting) : Splitting :=
  { s with place := .fieldStart, field := [], row := s.field.reverse :: s.row }

/-- Ends the field and the row. -/
def endRow (s : Splitting) : Splitting :=
  ⟨.rowStart, [], [], (s.field.reverse :: s.row).reverse :: s.rows⟩

/-- What happens at a byte outside of quotes. -/
def plain (s : Splitting) (b : UInt8) : Splitting :=
  if b = 0x2c then s.endField
  else if isLineEnd b then s.endRow
  else s.append b .bare

/-- What has been read after one more byte. -/
def step (s : Splitting) (b : UInt8) : Splitting :=
  match s.place with
  | .rowStart =>
    if isLineEnd b then s
    else if b = 0x22 then { s with place := .quoted }
    else s.plain b
  | .fieldStart => if b = 0x22 then { s with place := .quoted } else s.plain b
  | .bare => s.plain b
  | .quoted => if b = 0x22 then { s with place := .quoteSeen } else s.append b .quoted
  | .quoteSeen => if b = 0x22 then s.append b .quoted else s.plain b

/-- The rows at the end of the table. -/
def finish (s : Splitting) : List (List (List UInt8)) :=
  match s.place with
  | .rowStart => s.rows.reverse
  | _ => s.endRow.rows.reverse

end Splitting

/-- A byte order mark at the start of a table does not count. -/
def skipMark : List UInt8 → List UInt8
  | 0xef :: 0xbb :: 0xbf :: rest => rest
  | bytes => bytes

/-- The rows of a table with the bytes of their fields. -/
def split (bytes : List UInt8) : List (List (List UInt8)) :=
  ((skipMark bytes).foldl Splitting.step Splitting.start).finish

/-! ## Reading -/

/-- The text of a field without the white space at its ends. -/
def fieldText? (bytes : List UInt8) : Option String :=
  (String.fromUTF8? ⟨bytes.toArray⟩).map Text.trim

/-- The texts of the fields of a row. -/
def rowTexts (row : List (List UInt8)) : Except Fault (List String) :=
  match row.mapM fieldText? with
  | some texts => .ok texts
  | none => .error .encoding

/-- A table: its header, and its rows, each of which may be at fault. -/
structure Table where
  header : Except Fault (List String)
  rows : List (Except Fault (List String))

/-- Reads a table. A table without a line has a header without a field. -/
def read (bytes : List UInt8) : Table :=
  match split bytes with
  | [] => ⟨.ok [], []⟩
  | header :: rows =>
    { header := rowTexts header
      rows := rows.map fun row =>
        if row.length = header.length then rowTexts row else .error .unequalLengths }

/-! ## Writing -/

/-- Whether a character has to stand between quotes. -/
def needsQuotes (c : Char) : Bool :=
  c = ',' || c = '"' || c = '\r' || c = '\n'

/-- Writes every quote twice. -/
def doubleQuotes : List Char → List Char
  | [] => []
  | c :: cs => if c = '"' then '"' :: '"' :: doubleQuotes cs else c :: doubleQuotes cs

/-- The text of a field, between quotes when it needs them. -/
def writeField (s : String) : String :=
  if s.toList.any needsQuotes then "\"" ++ String.ofList (doubleQuotes s.toList) ++ "\"" else s

/-- The line of a row. A row of one empty field is a pair of quotes, so that it is no empty line. -/
def writeRow (fields : List String) : String :=
  match fields with
  | [""] => "\"\"\n"
  | _ => String.intercalate "," (fields.map writeField) ++ "\n"

/-- The text of a table whose rows all have as many fields as the first one. -/
def write (rows : List (List String)) : Except Fault String :=
  match rows with
  | [] => .ok ""
  | first :: others =>
    if others.all (·.length == first.length) then .ok (String.join (rows.map writeRow))
    else .error .unequalLengths

/-- Reads quotes that are written twice, up to the closing quote. -/
def unquote : List Char → Option (List Char × List Char)
  | '"' :: '"' :: cs => (unquote cs).map fun (field, rest) => ('"' :: field, rest)
  | '"' :: cs => some ([], cs)
  | c :: cs => (unquote cs).map fun (field, rest) => (c :: field, rest)
  | [] => none

/-- A quoted field is read back when no quote follows it. -/
theorem unquote_quoteField (cs rest : List Char) (h : rest.head? ≠ some '"') :
    unquote (doubleQuotes cs ++ '"' :: rest) = some (cs, rest) := by
  induction cs with
  | nil =>
    cases rest with
    | nil => simp [doubleQuotes, unquote]
    | cons c rest =>
      have : c ≠ '"' := by simpa using h
      rw [doubleQuotes, List.nil_append, unquote]
      simp [this]
  | cons c cs ih =>
    by_cases hc : c = '"'
    · subst hc; simp [doubleQuotes, unquote, ih]
    · simp only [doubleQuotes, hc, if_false, List.cons_append]
      rw [unquote]
      · simp [ih]
      · simp [hc]
      · exact hc

end Csv
end DiscreteChoice
