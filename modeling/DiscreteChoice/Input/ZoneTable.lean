import DiscreteChoice.Data.Zones
import DiscreteChoice.Input.Population

/-!
# Zone tables

Zone data from a table with a column `zone` and one column for each field. An empty cell says
nothing.
-/

namespace DiscreteChoice
namespace ZoneTable

/-- Adds the values of a zone, each under its header and with its place in the row. The column of
the zones is left out. -/
def addCells (column row : Nat) (zone : ZoneId) (zones : ZoneData Float) :
    List ((String × String) × Nat) → Except InputFault (ZoneData Float)
  | [] => .ok zones
  | ((field, cell), place) :: cells =>
    if place = column ∨ cell.isEmpty then addCells column row zone zones cells
    else
      match Population.float cell with
      | .error reason => .error (.badValue row field cell reason)
      | .ok value => addCells column row zone (zones.insert field zone value) cells

/-- Adds the values of a row. -/
def addRow (header : List String) (column row : Nat) (zones : ZoneData Float)
    (cells : List String) : Except InputFault (ZoneData Float) :=
  match Text.word32 (cells[column]?.getD "") with
  | .error reason => .error (.badZone row reason)
  | .ok zone => addCells column row zone zones (header.zip cells).zipIdx

/-- Adds the values of rows, the first of which has the given number. -/
def addRows (file : String) (header : List String) (column : Nat) :
    Nat → ZoneData Float → List (Except Csv.Fault (List String)) →
      Except RunError (ZoneData Float)
  | _, zones, [] => .ok zones
  | _, _, .error fault :: _ => .error (.table fault)
  | row, zones, .ok cells :: rows =>
    match addRow header column row zones cells with
    | .error fault => .error (.input file fault)
    | .ok zones => addRows file header column (row + 1) zones rows

/-- The zone data of a table. -/
def ofTable (file : String) (table : Csv.Table) : Except RunError (ZoneData Float) :=
  match table.header with
  | .error fault => .error (.table fault)
  | .ok header =>
    match header.idxOf? "zone" with
    | none => .error (.input file (.missingColumn "zone"))
    | some column => addRows file header column 0 .empty table.rows

/-- The zone data of a text. -/
def read (file : String) (bytes : ByteArray) : Except RunError (ZoneData Float) :=
  ofTable file (Csv.read bytes.toList)

end ZoneTable
end DiscreteChoice
