import DiscreteChoice.Data.Skim
import DiscreteChoice.Format.Json
import DiscreteChoice.Input.Population

/-!
# Matrix tables

Skim matrices from a table with a row for each value: the name of the matrix, the time period, which
may be empty, the two zones and the value. Other columns do not count. A header that is no text
leaves the columns in this order.
-/

namespace DiscreteChoice
namespace MatrixTable

/-- A row of a matrix table. -/
structure Row where
  matrix : String
  period : Option TimePeriod
  entry : SkimMatrix.Entry Float
deriving Repr

/-- Reads a 32-bit word, in base sixteen behind `0x`. -/
def word? (cell : String) : Option UInt32 :=
  match cell.toList with
  | '0' :: 'x' :: digits =>
    ((Text.naturalInBase UInt32.size 16 Json.hexValue? digits).map (·.toUInt32)).toOption
  | _ => (Text.word32 cell).toOption

/-- Reads a time period, none in an empty cell. -/
def period? (cell : String) : Option (Option TimePeriod) :=
  if cell.isEmpty then some none else (word? cell).map some

/-- The row of five cells. A missing cell of the period says that there is none. -/
def rowOf? (matrix period origin destination value : Option String) : Option Row := do
  return {
    matrix := ← matrix
    period := ← match period with
      | none => some none
      | some cell => period? cell
    entry := {
      origin := ← origin.bind word?
      destination := ← destination.bind word?
      value := ← value.bind Double.parse? } }

/-- The cell below a header, which may occur once at most. -/
def cellOf? (cells : List (String × String)) (name : String) : Option (Option String) :=
  match cells.filter (·.1 = name) with
  | [] => some none
  | [cell] => some (some cell.2)
  | _ => none

/-- The row of cells below a header. -/
def rowBelow? (header cells : List String) : Option Row := do
  let named := header.zip cells
  rowOf? (← cellOf? named "matrix") (← cellOf? named "period") (← cellOf? named "origin")
    (← cellOf? named "destination") (← cellOf? named "value")

/-- The row of cells in order. -/
def rowInOrder? (cells : List String) : Option Row :=
  rowOf? cells[0]? cells[1]? cells[2]? cells[3]? cells[4]?

/-- The rows of a table. -/
def rows (row? : List String → Option Row) :
    List (Except Csv.Fault (List String)) → Except RunError (List Row)
  | [] => .ok []
  | .error fault :: _ => .error (.table fault)
  | .ok cells :: rest =>
    match row? cells with
    | none => .error (.table .content)
    | some row => do
      let others ← rows row? rest
      return row :: others

/-- The entries of the rows of a matrix and a period, in order. -/
def entriesOf (name : String) (period : Option TimePeriod) (rows : List Row) :
    List (SkimMatrix.Entry Float) :=
  (rows.filter fun row => row.matrix = name ∧ row.period = period).map (·.entry)

/-- The matrices and periods of rows, each once, in the order of their first rows. -/
def keysOf (rows : List Row) : List (String × Option TimePeriod) :=
  rows.foldl (fun keys row =>
    if keys.contains (row.matrix, row.period) then keys else keys ++ [(row.matrix, row.period)]) []

/-- Adds the table of a matrix and a period. -/
def addTable (rows : List Row) (set : SkimSet Float) (key : String × Option TimePeriod) :
    Except RunError (SkimSet Float) :=
  match SkimMatrix.ofEntries (entriesOf key.1 key.2 rows) with
  | .error fault => .error (.data fault)
  | .ok m => .ok (set.insert key.1 key.2 m)

/-- The matrices of rows. -/
def ofRows (rows : List Row) : Except RunError (SkimSet Float) :=
  (keysOf rows).foldlM (addTable rows) .empty

/-- The matrices of a table. -/
def ofTable (table : Csv.Table) : Except RunError (SkimSet Float) := do
  let row? := match table.header with
    | .ok header => rowBelow? header
    | .error _ => rowInOrder?
  ofRows (← rows row? table.rows)

/-- The matrices of a text. -/
def read (bytes : ByteArray) : Except RunError (SkimSet Float) :=
  ofTable (Csv.read bytes.toList)

end MatrixTable
end DiscreteChoice
