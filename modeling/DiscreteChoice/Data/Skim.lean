import DiscreteChoice.Identifier
import DiscreteChoice.Numeric.Basic
import Std.Data.TreeMap

/-!
# Skim matrices

Values of pairs of zones, such as travel times, in square tables over a list of zones. A set of
matrices holds tables by name and time period, and for each name one more table that serves the
periods without a table.

Main results:

- Theorem `SkimSet.table?_insert`: a new table replaces the one of its name and period only.
-/

namespace DiscreteChoice

/-- Why data is refused. -/
inductive DataFault where
  /-- A table with the wrong number of values. -/
  | valueCount (zones found : Nat)
  | repeatedZone (zone : ZoneId)
deriving Repr, DecidableEq

/-- The description of a fault. -/
def DataFault.message : DataFault → String
  | valueCount zones found =>
    s!"skim matrix over {zones} zones expects {zones * zones} values, found {found}"
  | repeatedZone zone => s!"zone {zone.toNat} appears more than once in skim matrix"

/-- A square table over a list of zones, stored row by row. -/
structure SkimMatrix (α : Type) where
  /-- The row and column of a zone. -/
  positions : Std.TreeMap ZoneId Nat
  values : Array α

namespace SkimMatrix

variable {α : Type}

/-- How many zones a table covers. -/
def zoneCount (m : SkimMatrix α) : Nat :=
  m.positions.size

/-- Numbers the zones of a list from the given position on. No zone may occur twice. -/
def numberZones (position : Nat) (zones : List ZoneId) (positions : Std.TreeMap ZoneId Nat) :
    Except DataFault (Std.TreeMap ZoneId Nat) :=
  match zones with
  | [] => .ok positions
  | zone :: rest =>
    if positions.contains zone then .error (.repeatedZone zone)
    else numberZones (position + 1) rest (positions.insert zone position)

/-- The table over the given zones with the given values, row by row. -/
def ofRows (zones : List ZoneId) (values : Array α) : Except DataFault (SkimMatrix α) :=
  if values.size ≠ zones.length * zones.length then
    .error (.valueCount zones.length values.size)
  else do
    let positions ← numberZones 0 zones ∅
    return ⟨positions, values⟩

/-- A value of a table: its row zone, its column zone and the value. -/
structure Entry (α : Type) where
  origin : ZoneId
  destination : ZoneId
  value : α
deriving Repr

/-- The zones of a list of entries, each once, in order. -/
def zonesOf (entries : List (Entry α)) : List ZoneId :=
  (entries.foldl (fun zones e => (zones.insert e.origin ()).insert e.destination ())
    (∅ : Std.TreeMap ZoneId Unit)).keys

variable [Numeric α]

/-- The table with the given entries, the last one where several meet. The cells in between are
empty. -/
def ofEntries (entries : List (Entry α)) : Except DataFault (SkimMatrix α) := do
  let zones := zonesOf entries
  let positions ← numberZones 0 zones ∅
  let blank := Array.replicate (zones.length * zones.length) (Numeric.nan : α)
  let values := entries.foldl (fun values e =>
    match positions[e.origin]?, positions[e.destination]? with
    | some row, some column => values.setIfInBounds (row * zones.length + column) e.value
    | _, _ => values) blank
  ofRows zones values

/-- The value of a pair of zones, none for zones outside the table and for an empty cell. -/
def get? (m : SkimMatrix α) (origin destination : ZoneId) : Option α := do
  let row ← m.positions[origin]?
  let column ← m.positions[destination]?
  let value ← m.values[row * m.zoneCount + column]?
  if Numeric.isNaN value then none else some value

end SkimMatrix

/-- The tables of one name: the one without a period, and those of periods. -/
structure SkimTables (α : Type) where
  anyPeriod : Option (SkimMatrix α)
  byPeriod : Std.TreeMap TimePeriod (SkimMatrix α)

namespace SkimTables

variable {α : Type}

/-- No tables. -/
def empty : SkimTables α :=
  ⟨none, ∅⟩

/-- How many tables there are. -/
def size (tables : SkimTables α) : Nat :=
  tables.byPeriod.size + if tables.anyPeriod.isSome then 1 else 0

/-- Sets the table of a period, or the one without a period. -/
def insert (tables : SkimTables α) (period : Option TimePeriod) (m : SkimMatrix α) :
    SkimTables α :=
  match period with
  | none => { tables with anyPeriod := some m }
  | some p => { tables with byPeriod := tables.byPeriod.insert p m }

/-- The table of exactly the given period, or the one without a period. -/
def ofPeriod? (tables : SkimTables α) : Option TimePeriod → Option (SkimMatrix α)
  | none => tables.anyPeriod
  | some p => tables.byPeriod[p]?

/-- The table that serves a period: its own, or else the one without a period. -/
def serving? (tables : SkimTables α) (period : Option TimePeriod) : Option (SkimMatrix α) :=
  (tables.ofPeriod? period).or tables.anyPeriod

@[simp] theorem ofPeriod?_empty (period : Option TimePeriod) :
    (empty : SkimTables α).ofPeriod? period = none := by
  cases period <;> simp [empty, ofPeriod?]

/-- A new table replaces the one of its period only. -/
@[simp] theorem ofPeriod?_insert (tables : SkimTables α) (period other : Option TimePeriod)
    (m : SkimMatrix α) :
    (tables.insert period m).ofPeriod? other =
      if period = other then some m else tables.ofPeriod? other := by
  cases period <;> cases other <;>
    simp [insert, ofPeriod?, Std.TreeMap.getElem?_insert]

end SkimTables

/-- The tables of all matrices by name. -/
structure SkimSet (α : Type) where
  tables : Std.TreeMap String (SkimTables α)

namespace SkimSet

variable {α : Type}

/-- No matrices. -/
def empty : SkimSet α :=
  ⟨∅⟩

/-- Whether there is no matrix. -/
def isEmpty (set : SkimSet α) : Bool :=
  set.tables.isEmpty

/-- Whether there is a matrix of a name. -/
def contains (set : SkimSet α) (name : String) : Bool :=
  set.tables.contains name

/-- How many tables there are. -/
def size (set : SkimSet α) : Nat :=
  set.tables.values.foldl (fun total tables => total + tables.size) 0

/-- Sets the table of a name and period. -/
def insert (set : SkimSet α) (name : String) (period : Option TimePeriod) (m : SkimMatrix α) :
    SkimSet α :=
  ⟨set.tables.alter name fun tables? => some ((tables?.getD .empty).insert period m)⟩

/-- The table of exactly the given name and period. -/
def table? (set : SkimSet α) (name : String) (period : Option TimePeriod) :
    Option (SkimMatrix α) :=
  set.tables[name]?.bind (·.ofPeriod? period)

/-- The value of a pair of zones in a period. A period without a table is served by the table
without a period; a period with a table is not. -/
def lookup [Numeric α] (set : SkimSet α) (name : String) (origin destination : ZoneId)
    (period : Option TimePeriod) : Option α := do
  let tables ← set.tables[name]?
  let table ← tables.serving? period
  table.get? origin destination

/-- A new table replaces the one of its name and period only. -/
@[simp] theorem table?_insert (set : SkimSet α) (name other : String)
    (period otherPeriod : Option TimePeriod) (m : SkimMatrix α) :
    (set.insert name period m).table? other otherPeriod =
      if name = other ∧ period = otherPeriod then some m else set.table? other otherPeriod := by
  simp only [insert, table?, Std.TreeMap.getElem?_alter, Std.LawfulEqCmp.compare_eq_iff_eq]
  by_cases hname : name = other
  · subst hname
    cases h : set.tables[name]? with
    | some tables => simp
    | none => simp
  · simp [hname]

end SkimSet
end DiscreteChoice
