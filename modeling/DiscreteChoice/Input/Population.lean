import DiscreteChoice.Context
import DiscreteChoice.Format.Decode
import DiscreteChoice.Run.Error

/-!
# Populations

Decision makers from the rows of a table. The columns `id`, `origin`, `destination` and `period` have
a meaning of their own, a column `name[3]` holds an attribute for alternative 3, and every other
column an attribute of the decision maker. An empty cell says nothing.
-/

namespace DiscreteChoice
namespace Population

open Text (NumberFault)

/-- What the cells of a column mean. -/
inductive Column where
  | id
  | origin
  | destination
  | period
  | scalar (name : String)
  | alternative (name : String) (id : AlternativeId)
deriving Repr, DecidableEq

/-- The name and the alternative of a header with an alternative in brackets at its end. -/
def indexedHeader? (header : String) : Option (String × AlternativeId) :=
  match header.toList.reverse with
  | ']' :: behind =>
    let cs := behind.reverse
    match cs.dropWhile (· ≠ '[') with
    | '[' :: index =>
      match Text.word32 (String.ofList (Text.trimChars index)) with
      | .ok id => some (String.ofList (Text.trimChars (cs.takeWhile (· ≠ '['))), id)
      | .error _ => none
    | _ => none
  | _ => none

/-- What the cells below a header mean. -/
def Column.ofHeader (header : String) : Column :=
  if header = "id" then id
  else if header = "origin" then origin
  else if header = "destination" then destination
  else if header = "period" then period
  else
    match indexedHeader? header with
    | some (name, alternativeId) => alternative name alternativeId
    | none => scalar header

/-- What the cells of a row said so far. -/
structure Draft where
  id : Option DecisionMakerId
  trip : Trip
  attributes : AttributeSet Float

/-- Nothing has been said. -/
def Draft.empty : Draft :=
  ⟨none, ⟨none, none, none⟩, .empty⟩

/-- Reads a double. -/
def float (cell : String) : Except NumberFault Float :=
  match Double.parse? cell with
  | some x => .ok x
  | none => .error .invalidFloat

/-- Adds what a cell says. -/
def Draft.add (draft : Draft) (column : Column) (cell : String) : Except NumberFault Draft :=
  match column with
  | .id => do
    let id ← Text.word64 cell
    return { draft with id := some id }
  | .origin => do
    let zone ← Text.word32 cell
    return { draft with trip := { draft.trip with origin := some zone } }
  | .destination => do
    let zone ← Text.word32 cell
    return { draft with trip := { draft.trip with destination := some zone } }
  | .period => do
    let period ← Text.word32 cell
    return { draft with trip := { draft.trip with period := some period } }
  | .scalar name => do
    let x ← float cell
    return { draft with attributes := draft.attributes.insertScalar name x }
  | .alternative name id => do
    let x ← float cell
    return { draft with attributes := draft.attributes.insertAlternative name id x }

/-- Adds what the cells of a row say, each in its column. -/
def Draft.addAll (row : Nat) (draft : Draft) :
    List (Column × String) → Except InputFault Draft
  | [] => .ok draft
  | (column, cell) :: cells =>
    if cell.isEmpty then addAll row draft cells
    else
      match draft.add column cell with
      | .error reason => .error (.badCell row cell reason)
      | .ok draft => addAll row draft cells

/-- The decision maker of a row. -/
def ofRow (columns : List Column) (row : Nat) (cells : List String) :
    Except InputFault (DecisionMaker Float) := do
  let draft ← Draft.empty.addAll row (columns.zip cells)
  match draft.id with
  | none => .error (.missingId row)
  | some id => return ⟨id, draft.trip, draft.attributes⟩

/-- The decision makers of rows, the first of which has the given number. -/
def ofRows (file : String) (columns : List Column) :
    Nat → List (Except Csv.Fault (List String)) → Except RunError (List (DecisionMaker Float))
  | _, [] => .ok []
  | _, .error fault :: _ => .error (.table fault)
  | row, .ok cells :: rows =>
    match ofRow columns row cells with
    | .error fault => .error (.input file fault)
    | .ok person => do
      let people ← ofRows file columns (row + 1) rows
      return person :: people

/-- The decision makers of a table. -/
def ofTable (file : String) (table : Csv.Table) : Except RunError (List (DecisionMaker Float)) :=
  match table.header with
  | .error fault => .error (.table fault)
  | .ok header =>
    let columns := header.map Column.ofHeader
    if columns.contains .id then ofRows file columns 0 table.rows
    else .error (.input file (.missingColumn "id"))

/-- The decision makers of a text. -/
def read (file : String) (bytes : ByteArray) : Except RunError (List (DecisionMaker Float)) :=
  ofTable file (Csv.read bytes.toList)

/-! ## Records -/

open Decode

/-- The number of an alternative as a key. -/
def alternativeKey? (key : String) : Option AlternativeId :=
  let digits := key.toList
  if digits.all Decimal.isDigit ∧ (digits.length = 1 ∨ digits.head? ≠ some '0') then
    (Text.word32 key).toOption
  else none

/-- The attributes that a document records. -/
def attributes? (dialect : Dialect) (d : Document) : Option (AttributeSet Float) := do
  match ← fields? dialect ["scalars", "alternatives"] d with
  | [scalars, alternatives] =>
    return {
      scalars := ← withDefault? ∅ (map? some number?) scalars
      alternatives := ← withDefault? ∅ (map? some (map? alternativeKey? number?)) alternatives }
  | _ => none

/-- The decision maker that a document records. -/
def person? (dialect : Dialect) (d : Document) : Option (DecisionMaker Float) := do
  let names := ["id", "origin", "destination", "time_period", "attributes"]
  match ← fields? dialect names d with
  | [id, origin, destination, period, attributes] =>
    return {
      id := ← required? word64? id
      trip := {
        origin := ← optional? word32? origin
        destination := ← optional? word32? destination
        period := ← optional? word32? period }
      attributes := ← withDefault? .empty (attributes? dialect) attributes }
  | _ => none

end Population
end DiscreteChoice
