import DiscreteChoice.Format.Document

/-!
# Tables of TOML

How the headers and the keys of a TOML text fill its tables. A table that a header opens cannot be
opened again, a table that dotted keys make cannot be opened by a header, and no key is given twice.
-/

namespace DiscreteChoice
namespace Toml

/-- How a table came about. -/
inductive TableKind where
  /-- On the way to a table that a header opens. -/
  | implied
  /-- By a header of its own. -/
  | opened
  /-- By dotted keys. -/
  | dotted
deriving Repr, DecidableEq

/-- What stands under a key. -/
inductive Item where
  | value (d : Document)
  | table (kind : TableKind) (entries : List (String × Item))
  /-- The elements of an array of tables, one for each header. -/
  | elements (tables : List (List (String × Item)))
deriving Repr, Inhabited

/-- The entries of a table. -/
abbrev Entries :=
  List (String × Item)

/-- Replaces the item of a key that occurs once. -/
def replace (entries : Entries) (key : String) (item : Item) : Entries :=
  entries.map fun entry => if entry.1 = key then (key, item) else entry

/-- Changes the table at a path, making the tables on the way that do not exist. Keys walk through
the last element of an array of tables. Dotted keys do not enter a table that a header opened. -/
def alter (way : TableKind) (change : TableKind → Entries → Option Entries) :
    TableKind → Entries → List String → Option Entries
  | kind, entries, [] => change kind entries
  | _, entries, key :: path =>
    match entries.lookup key with
    | none => do
      let inner ← alter way change way [] path
      return entries ++ [(key, .table way inner)]
    | some (.value _) => none
    | some (.table kind inner) =>
      if way = .dotted ∧ kind = .opened then none
      else do
        let inner ← alter way change kind inner path
        return replace entries key (.table kind inner)
    | some (.elements tables) =>
      match tables.getLast? with
      | none => none
      | some last => do
        let last ← alter way change .opened last path
        return replace entries key (.elements (tables.dropLast ++ [last]))

/-- Opens the table of a key by a header. -/
def openTable (key : String) (_ : TableKind) (entries : Entries) : Option Entries :=
  match entries.lookup key with
  | none => some (entries ++ [(key, .table .opened [])])
  | some (.table .implied inner) => some (replace entries key (.table .opened inner))
  | _ => none

/-- Opens a new element of the array of tables of a key. -/
def openElement (key : String) (_ : TableKind) (entries : Entries) : Option Entries :=
  match entries.lookup key with
  | none => some (entries ++ [(key, .elements [[]])])
  | some (.elements tables) => some (replace entries key (.elements (tables ++ [[]])))
  | _ => none

/-- Gives a key its value. A plain key belongs to a table of a header, the last part of a dotted key
to a table of dotted keys. -/
def insert (plain : Bool) (key : String) (item : Item) (kind : TableKind) (entries : Entries) :
    Option Entries :=
  if decide (kind = .dotted) == plain then none
  else
    match entries.lookup key with
    | none => some (entries ++ [(key, item)])
    | some _ => none

/-- Gives a dotted key its value in a table. -/
def assign (keys : List String) (item : Item) (kind : TableKind) (entries : Entries) :
    Option Entries :=
  match keys.getLast? with
  | none => none
  | some key =>
    alter .dotted (insert keys.dropLast.isEmpty key item) kind entries keys.dropLast

mutual

/-- The document of an item. -/
def Item.document : Item → Document
  | .value d => d
  | .table _ entries => .table (documentsOfEntries entries)
  | .elements tables => .array (documentsOfTables tables)

/-- The documents of the entries of a table. -/
def documentsOfEntries : List (String × Item) → List (String × Document)
  | [] => []
  | (key, item) :: entries => (key, item.document) :: documentsOfEntries entries

/-- The documents of the elements of an array of tables. -/
def documentsOfTables : List (List (String × Item)) → List Document
  | [] => []
  | entries :: tables => .table (documentsOfEntries entries) :: documentsOfTables tables

end

/-! ## Statements -/

/-- A line of a text. -/
inductive Statement where
  | header (keys : List String)
  | elementHeader (keys : List String)
  | assignment (keys : List String) (d : Document)
deriving Repr

/-- The tables of the lines so far and the path of the table that the next line belongs to. -/
structure State where
  root : Entries
  path : List String
deriving Repr

/-- The tables after one more line. -/
def State.step (state : State) : Statement → Option State
  | .header keys => do
    let key ← keys.getLast?
    let root ← alter .implied (openTable key) .opened state.root keys.dropLast
    return ⟨root, keys⟩
  | .elementHeader keys => do
    let key ← keys.getLast?
    let root ← alter .implied (openElement key) .opened state.root keys.dropLast
    return ⟨root, keys⟩
  | .assignment keys d => do
    let root ← alter .implied (assign keys (.value d)) .opened state.root state.path
    return { state with root := root }

/-- The document of a list of lines. -/
def documentOf? (statements : List Statement) : Option Document := do
  let state ← statements.foldlM State.step ⟨[], []⟩
  return .table (documentsOfEntries state.root)

end Toml
end DiscreteChoice
