import Mathlib
import DiscreteChoice.Input.Population
import DiscreteChoice.Proofs.Run.Fates

/-!
# Populations as their columns say

A population is read cell by cell, and what a cell means is what its header means. A row is accepted
when it has an id and each of its cells is empty or can be read as it is meant. Where several
columns mean the same, the last one of them that is not empty counts, so that the order of the
columns has no meaning when their headers mean different things.

Main results:

- Theorem `ofHeader_eq_iff`: every header has one meaning.
- Theorem `Draft.exists_add_of_parse`: a cell changes what is known under its meaning only.
- Theorem `Draft.value?_of_addAll`: a row leaves what its last cell of each meaning says.
- Theorem `Rectangle.exists_table_eq_read`: a text without a fault is a rectangle of cells.
- Theorem `Rectangle.Gives.hasId`: a decision maker has the id that its row gives.
- Theorem `ofTable_exact`: when a table is read, and what its records are.
-/

namespace DiscreteChoice
namespace Population

open Text (NumberFault)

/-! ## Headers -/

/-- A header has the number of an alternative in brackets behind a name. -/
def Indexes (header name : String) (id : AlternativeId) : Prop :=
  ∃ front index, '[' ∉ front.toList ∧ header = front ++ "[" ++ index ++ "]" ∧
    Text.trim front = name ∧ Text.word32 (Text.trim index) = .ok id

/-- Characters are split at their first bracket. -/
theorem takeWhile_dropWhile_bracket_iff {cs front index : List Char} :
    cs.takeWhile (· ≠ '[') = front ∧ cs.dropWhile (· ≠ '[') = '[' :: index ↔
      '[' ∉ front ∧ cs = front ++ '[' :: index := by
  constructor
  · rintro ⟨rfl, hdrop⟩
    refine ⟨fun hmem => by simpa using List.mem_takeWhile_imp hmem, ?_⟩
    rw [← hdrop, List.takeWhile_append_dropWhile]
  · rintro ⟨hfront, rfl⟩
    have hbefore : ∀ c ∈ front, decide (c ≠ '[') = true := by
      intro c hc
      rw [decide_eq_true_eq]
      rintro rfl
      exact hfront hc
    rw [List.takeWhile_append_of_pos hbefore, List.dropWhile_append_of_pos hbefore]
    simp

/-- A header is split at its first bracket when it ends with the other one. -/
theorem indexedHeader?_eq_some_iff {header name : String} {id : AlternativeId} :
    indexedHeader? header = some (name, id) ↔ Indexes header name id := by
  have hends (front index : String) : (front ++ "[" ++ index ++ "]").toList.reverse =
      ']' :: (front.toList ++ '[' :: index.toList).reverse := by simp
  constructor
  · intro h
    unfold indexedHeader? at h
    split at h <;> try cases h
    rename_i behind hbehind
    dsimp only at h
    split at h <;> try cases h
    rename_i index hindex
    split at h <;> cases h
    rename_i hid
    rcases takeWhile_dropWhile_bracket_iff.mp ⟨rfl, hindex⟩ with ⟨hfront, hsplit⟩
    refine ⟨String.ofList (behind.reverse.takeWhile (· ≠ '[')), String.ofList index,
      by rwa [String.toList_ofList], ?_, by rw [Text.trim, String.toList_ofList],
      by rwa [Text.trim, String.toList_ofList]⟩
    rw [← String.toList_inj, ← List.reverse_inj, hbehind, hends, String.toList_ofList,
      String.toList_ofList, ← hsplit, List.reverse_reverse]
  · rintro ⟨front, index, hfront, rfl, rfl, hid⟩
    -- the last bracket ends the header, so that the first one can be looked for in front of it
    rcases takeWhile_dropWhile_bracket_iff.mpr
      ⟨hfront, Eq.refl (front.toList ++ '[' :: index.toList)⟩ with ⟨htake, hdrop⟩
    rw [Text.trim] at hid
    simp only [indexedHeader?, hends, List.reverse_reverse, hdrop, htake, hid]
    rfl

/-- What a header means. A header that is not reserved and has no alternative in brackets is the
name of an attribute of the decision maker. -/
def Means (header : String) : Column → Prop
  | .id => header = "id"
  | .origin => header = "origin"
  | .destination => header = "destination"
  | .period => header = "period"
  | .alternative name id => Indexes header name id
  | .scalar name => header = name ∧ header ∉ ["id", "origin", "destination", "period"] ∧
      ∀ name id, ¬Indexes header name id

/-- A reserved header has no alternative in brackets. -/
theorem not_indexes_of_mem {header : String}
    (h : header ∈ ["id", "origin", "destination", "period"]) (name : String)
    (id : AlternativeId) : ¬Indexes header name id := by
  have hnone : ∀ header ∈ ["id", "origin", "destination", "period"],
      indexedHeader? header = none := by decide
  rw [← indexedHeader?_eq_some_iff, hnone header h]
  exact nofun

/-- Every header has one meaning. -/
theorem ofHeader_eq_iff {header : String} {column : Column} :
    Column.ofHeader header = column ↔ Means header column := by
  by_cases hreserved : header ∈ ["id", "origin", "destination", "period"]
  · have hnot := not_indexes_of_mem hreserved
    simp only [List.mem_cons, List.not_mem_nil, or_false] at hreserved
    rcases hreserved with rfl | rfl | rfl | rfl <;>
      cases column <;> simp [Column.ofHeader, Means, hnot]
  · simp only [List.mem_cons, List.not_mem_nil, or_false, not_or] at hreserved
    cases hindexed : indexedHeader? header with
    | none => cases column <;>
        simp [Column.ofHeader, Means, ← indexedHeader?_eq_some_iff, hreserved, hindexed]
    | some entry => cases column <;>
        simp [Column.ofHeader, Means, ← indexedHeader?_eq_some_iff, hreserved, hindexed,
          Prod.ext_iff]

/-! ## Cells -/

/-- What a cell can say. -/
inductive Value where
  | id (id : DecisionMakerId)
  | number (number : UInt32)
  | real (x : Float)

/-- What a cell of a column says. -/
def Column.parse (column : Column) (cell : String) : Except NumberFault Value :=
  match column with
  | .id => do return .id (← Text.word64 cell)
  | .origin | .destination | .period => do return .number (← Text.word32 cell)
  | .scalar _ | .alternative _ _ => do return .real (← float cell)

namespace Draft

/-- What a draft has under a meaning. -/
def value? (draft : Draft) : Column → Option Value
  | .id => draft.id.map .id
  | .origin => draft.trip.origin.map .number
  | .destination => draft.trip.destination.map .number
  | .period => draft.trip.period.map .number
  | .scalar name => (draft.attributes.scalar name).map .real
  | .alternative name id => (draft.attributes.alternative name id).map .real

@[simp] theorem value?_empty (column : Column) : empty.value? column = none := by
  cases column <;> simp [empty, value?, AttributeSet.empty, AttributeSet.scalar,
    AttributeSet.alternative]

variable {column : Column} {cell : String}

/-- A cell that can be read replaces what was there under its meaning, and nothing else. -/
theorem exists_add_of_parse (draft : Draft) {value : Value} (h : column.parse cell = .ok value) :
    ∃ next, draft.add column cell = .ok next ∧
      ∀ other, next.value? other = if column = other then some value else draft.value? other := by
  -- each meaning has a reader of its own, and a place of its own in the draft
  cases column <;>
    (rcases bind_eq_ok.mp h with ⟨found, hfound, hvalue⟩
     rcases Except.ok.inj hvalue with rfl
     refine ⟨_, by rw [add, hfound, ok_bind, pure_eq_ok], fun other => ?_⟩
     cases other <;> simp [value?, apply_ite (Option.map Value.real)])

/-- A cell that cannot be read is refused. -/
theorem add_eq_error_of_parse {draft : Draft} {reason : NumberFault}
    (h : column.parse cell = .error reason) : draft.add column cell = .error reason := by
  cases column <;>
    (rcases bind_eq_error.mp h with hfound | ⟨found, -, hvalue⟩
     · rw [add, hfound, error_bind]
     · cases hvalue)

/-- What an entry says under a meaning, if it is about it. -/
def said? (column : Column) (entry : Column × String) : Option Value :=
  if entry.1 = column ∧ entry.2 ≠ "" then (column.parse entry.2).toOption else none

/-- The cells of a row are read when each of them is empty or can be read. -/
theorem exists_addAll_iff {number : Nat} {draft : Draft} {cells : List (Column × String)} :
    (∃ next, draft.addAll number cells = .ok next) ↔
      ∀ entry ∈ cells, entry.2 ≠ "" → ∃ value, entry.1.parse entry.2 = .ok value := by
  induction cells generalizing draft with
  | nil => simp [addAll]
  | cons entry cells ih =>
    rcases entry with ⟨column, cell⟩
    rw [addAll, List.forall_mem_cons]
    by_cases hcell : cell = ""
    · simp [hcell, ih]
    · rw [if_neg (by simpa using hcell)]
      cases hparse : column.parse cell with
      | error reason => simp [add_eq_error_of_parse hparse, hcell]
      | ok value =>
        rcases exists_add_of_parse draft hparse with ⟨next, hnext, -⟩
        simp [hnext, ih]

/-- Under every meaning a row leaves what its last cell about it says. -/
theorem value?_of_addAll {number : Nat} {draft next : Draft} {cells : List (Column × String)}
    (h : draft.addAll number cells = .ok next) (column : Column) :
    next.value? column = (cells.filterMap (said? column)).getLast?.or (draft.value? column) := by
  induction cells generalizing draft with
  | nil =>
    rcases Except.ok.inj h with rfl
    rfl
  | cons entry cells ih =>
    rcases entry with ⟨other, cell⟩
    rw [addAll] at h
    by_cases hcell : cell = ""
    · have hsaid : said? column (other, cell) = none := by simp [said?, hcell]
      rw [if_pos (by simpa using hcell)] at h
      rw [List.filterMap_cons_none hsaid, ih h]
    · rw [if_neg (by simpa using hcell)] at h
      cases hparse : other.parse cell with
      | error reason => simp [add_eq_error_of_parse hparse] at h
      | ok value =>
        rcases exists_add_of_parse draft hparse with ⟨after, hafter, hvalues⟩
        rw [hafter] at h
        rw [ih h, hvalues]
        split_ifs with hcolumn
        · subst hcolumn
          have hsaid : said? other (other, cell) = some value := by
            simp [said?, hcell, hparse, Except.toOption]
          rw [List.filterMap_cons_some hsaid, List.getLast?_cons]
          cases (cells.filterMap (said? other)).getLast? <;> rfl
        · have hsaid : said? column (other, cell) = none := by simp [said?, hcolumn]
          rw [List.filterMap_cons_none hsaid]

end Draft

/-! ## Rows -/

/-- The last of finitely many results. -/
theorem getLast?_filterMap_ofFn {β γ : Type} {n : Nat} (f : Fin n → β) (g : β → Option γ) :
    ((List.ofFn f).filterMap g).getLast? = Fin.findSomeRev? fun j => g (f j) := by
  induction n with
  | zero => simp
  | succ n ih =>
    rw [List.ofFn_succ', List.concat_eq_append, List.filterMap_append, List.getLast?_append, ih,
      Fin.findSomeRev?_succ]
    cases h : g (f (Fin.last n)) <;> simp [h]

/-- The record of a decision maker as what has been said of it. -/
def Draft.ofPerson (person : DecisionMaker Float) : Draft :=
  ⟨some person.id, person.trip, person.attributes⟩

theorem ofRow_eq_ok_iff {columns : List Column} {number : Nat} {cells : List String}
    {person : DecisionMaker Float} :
    ofRow columns number cells = .ok person ↔
      Draft.empty.addAll number (columns.zip cells) = .ok (Draft.ofPerson person) := by
  rw [ofRow, bind_eq_ok]
  constructor
  · rintro ⟨⟨_ | id, trip, attributes⟩, hdraft, h⟩
    · cases h
    · rcases Except.ok.inj h with rfl
      exact hdraft
  · exact fun h => ⟨Draft.ofPerson person, h, rfl⟩

/-- A table whose rows have as many cells as its header. -/
structure Rectangle (width : Nat) where
  header : Fin width → String
  rows : List (Fin width → String)

namespace Rectangle

/-- The rows as they are split. -/
def table {width : Nat} (rectangle : Rectangle width) : Csv.Table :=
  ⟨.ok (List.ofFn rectangle.header), rectangle.rows.map fun row => .ok (List.ofFn row)⟩

/-- The meanings of the columns. -/
def columns {width : Nat} (rectangle : Rectangle width) : List Column :=
  (List.ofFn rectangle.header).map Column.ofHeader

/-- A header and rows of its length make up a rectangle. -/
theorem exists_table_eq {header : List String} {rows : List (List String)}
    (h : ∀ row ∈ rows, row.length = header.length) :
    ∃ rectangle : Rectangle header.length, rectangle.table = ⟨.ok header, rows.map .ok⟩ := by
  refine ⟨⟨header.get, rows.map fun row j => row.getD j ""⟩, ?_⟩
  rw [table, List.ofFn_get, List.map_map]
  congr 1
  refine List.map_congr_left fun row hrow => congrArg Except.ok (List.ext_getElem ?_ ?_)
  · rw [List.length_ofFn, h row hrow]
  · intro i _ hi
    simp [hi]

/-- A text is read as a rectangle when neither its header nor one of its rows is at fault. -/
theorem exists_table_eq_read {bytes : List UInt8} {header : List String}
    (hheader : (Csv.read bytes).header = .ok header)
    (hrows : ∀ row ∈ (Csv.read bytes).rows, ∃ cells, row = .ok cells) :
    ∃ rectangle : Rectangle header.length, rectangle.table = Csv.read bytes := by
  rcases exists_forall₂_iff.mpr hrows with ⟨rows, hpartners⟩
  have hall : (Csv.read bytes).rows = rows.map .ok := by
    rw [← map_eq_of_forall₂ hpartners fun _ _ _ h => h, List.map_id']
  have hlength (row : List String) (hrow : row ∈ rows) : row.length = header.length :=
    Csv.length_of_mem_rows hheader (hall ▸ List.mem_map_of_mem hrow)
  rcases exists_table_eq hlength with ⟨rectangle, hrectangle⟩
  exact ⟨rectangle, by rw [hrectangle, ← hheader, ← hall]⟩

variable {width : Nat} (rectangle : Rectangle width) (row : Fin width → String)

/-- A row is accepted when it has an id and each of its cells is empty or can be read as its column
is meant. -/
def Accepts : Prop :=
  (∃ j, Means (rectangle.header j) .id ∧ row j ≠ "") ∧
    ∀ j column, Means (rectangle.header j) column → row j ≠ "" →
      ∃ value, column.parse (row j) = .ok value

/-- Under a meaning a row gives what its last cell with this meaning says that is not empty, and
nothing without such a cell. -/
def Gives (column : Column) : Option Value → Prop
  | some value => ∃ j, Means (rectangle.header j) column ∧ row j ≠ "" ∧
      column.parse (row j) = .ok value ∧
      ∀ later, j < later → Means (rectangle.header later) column → row later = ""
  | none => ∀ j, Means (rectangle.header j) column → row j = ""

/-- A row has a number as its id when it stands in the last cell below `id` that is not empty. -/
def HasId (id : DecisionMakerId) : Prop :=
  ∃ j, rectangle.header j = "id" ∧ Text.word64 (row j) = .ok id ∧
    ∀ later, j < later → rectangle.header later = "id" → row later = ""

/-- A row with the meanings of its cells. -/
def entry (j : Fin width) : Column × String :=
  (Column.ofHeader (rectangle.header j), row j)

theorem zip_columns :
    rectangle.columns.zip (List.ofFn row) = List.ofFn (rectangle.entry row) := by
  refine List.ext_getElem (by simp [columns]) fun i _ _ => ?_
  simp [columns, entry]

variable {rectangle row}

theorem said?_entry_eq_some_iff {column : Column} {j : Fin width} {value : Value} :
    Draft.said? column (rectangle.entry row j) = some value ↔
      Means (rectangle.header j) column ∧ row j ≠ "" ∧ column.parse (row j) = .ok value := by
  rw [← ofHeader_eq_iff, Draft.said?, entry]
  cases hparse : column.parse (row j) <;> simp [Except.toOption, and_assoc]

/-- The cells of a row can be read when each of them is empty or can be read as it is meant. -/
theorem exists_addAll_entry_iff {number : Nat} :
    (∃ draft, Draft.empty.addAll number (List.ofFn (rectangle.entry row)) = .ok draft) ↔
      ∀ j column, Means (rectangle.header j) column → row j ≠ "" →
        ∃ value, column.parse (row j) = .ok value := by
  simp only [Draft.exists_addAll_iff, List.forall_mem_ofFn_iff, entry, ← ofHeader_eq_iff,
    forall_eq']

/-- What has been read of a row is what the row gives. -/
theorem gives_value? {number : Nat} {draft : Draft}
    (h : Draft.empty.addAll number (List.ofFn (rectangle.entry row)) = .ok draft)
    (column : Column) : rectangle.Gives row column (draft.value? column) := by
  have hreadable := exists_addAll_entry_iff.mp ⟨draft, h⟩
  -- a cell that says nothing under its meaning is empty, since it could be read
  have hempty {j : Fin width} (hnone : Draft.said? column (rectangle.entry row j) = none)
      (hmeans : Means (rectangle.header j) column) : row j = "" := by
    by_contra hcell
    rcases hreadable j column hmeans hcell with ⟨value, hvalue⟩
    rw [said?_entry_eq_some_iff.mpr ⟨hmeans, hcell, hvalue⟩] at hnone
    cases hnone
  rw [Draft.value?_of_addAll h, Draft.value?_empty, Option.or_none, getLast?_filterMap_ofFn]
  cases hfound : Fin.findSomeRev? fun j => Draft.said? column (rectangle.entry row j) with
  | none => exact fun j => hempty (Fin.findSomeRev?_eq_none_iff.mp hfound j)
  | some value =>
    rcases Fin.findSomeRev?_eq_some_iff.mp hfound with ⟨j, hj, hlater⟩
    rcases said?_entry_eq_some_iff.mp hj with ⟨hmeans, hcell, hvalue⟩
    exact ⟨j, hmeans, hcell, hvalue, fun later hlt => hempty (hlater later hlt)⟩

/-- A row is read exactly when it is accepted. -/
theorem exists_ofRow_iff (number : Nat) :
    (∃ person, ofRow rectangle.columns number (List.ofFn row) = .ok person) ↔
      rectangle.Accepts row := by
  simp only [ofRow_eq_ok_iff, zip_columns]
  constructor
  · rintro ⟨person, h⟩
    refine ⟨?_, exists_addAll_entry_iff.mp ⟨_, h⟩⟩
    rcases gives_value? h .id with ⟨j, hmeans, hcell, -⟩
    exact ⟨j, hmeans, hcell⟩
  · rintro ⟨⟨j, hmeans, hcell⟩, hreadable⟩
    rcases exists_addAll_entry_iff.mpr hreadable with ⟨⟨id?, trip, attributes⟩, hdraft⟩
    have hgives := gives_value? hdraft .id
    cases id? with
    | none => exact absurd (hgives j hmeans) hcell
    | some id => exact ⟨⟨id, trip, attributes⟩, hdraft⟩

/-- The record of a row has what the row gives. -/
theorem gives_of_ofRow {number : Nat} {person : DecisionMaker Float}
    (h : ofRow rectangle.columns number (List.ofFn row) = .ok person) (column : Column) :
    rectangle.Gives row column ((Draft.ofPerson person).value? column) := by
  rw [ofRow_eq_ok_iff, zip_columns] at h
  exact gives_value? h column

variable (rectangle)

/-- Rows are read exactly when each of them is accepted. -/
theorem exists_ofRows_iff (file : String) (number : Nat) {rows : List (Fin width → String)} :
    (∃ people, ofRows file rectangle.columns number (rows.map fun row => .ok (List.ofFn row)) =
      .ok people) ↔ ∀ row ∈ rows, rectangle.Accepts row := by
  induction rows generalizing number with
  | nil => simp [ofRows]
  | cons row rows ih =>
    rw [List.map_cons, ofRows, List.forall_mem_cons, ← exists_ofRow_iff number, ← ih (number + 1)]
    cases ofRow rectangle.columns number (List.ofFn row) with
    | error fault => simp
    | ok person => simp [bind_eq_ok]

/-- A table is read exactly when it has a column of ids and each row is accepted. -/
theorem exists_ofTable_iff {file : String} :
    (∃ people, ofTable file rectangle.table = .ok people) ↔
      (∃ j, Means (rectangle.header j) .id) ∧ ∀ row ∈ rectangle.rows, rectangle.Accepts row := by
  have hcolumn : rectangle.columns.contains .id ↔ ∃ j, Means (rectangle.header j) .id := by
    simp [columns, ← ofHeader_eq_iff]
  rw [← hcolumn, ← exists_ofRows_iff rectangle file 0, ofTable]
  simp only [table]
  rw [← columns]
  split_ifs with hid
  · exact (and_iff_right hid).symm
  · constructor
    · rintro ⟨people, h⟩
      cases h
    · exact fun h => absurd h.1 hid

/-- The decision makers of a table have what its rows give. -/
theorem forall₂_gives_of_areOf {people : List (DecisionMaker Float)}
    (h : AreOf people rectangle.table) :
    List.Forall₂ (fun row person => ∀ column,
      rectangle.Gives row column ((Draft.ofPerson person).value? column))
      rectangle.rows people := by
  rcases h with ⟨header, hheader, hrows⟩
  rcases Except.ok.inj hheader with rfl
  rw [table, List.zipIdx_map, List.forall₂_map_left_iff] at hrows
  have hpeople := hrows.imp fun entry person hperson => by
    rcases hperson with ⟨cells, hcells, hperson⟩
    rcases Except.ok.inj hcells with rfl
    exact gives_of_ofRow hperson
  rw [← List.zipIdx_map_fst 0 rectangle.rows, List.forall₂_map_left_iff]
  exact hpeople

/-- The records of a table have what its rows give. -/
theorem forall₂_gives_of_ofTable {file : String} {people : List (DecisionMaker Float)}
    (h : ofTable file rectangle.table = .ok people) :
    List.Forall₂ (fun row person => ∀ column,
      rectangle.Gives row column ((Draft.ofPerson person).value? column))
      rectangle.rows people :=
  rectangle.forall₂_gives_of_areOf (areOf_of_ofTable h)

/-- The number that a row gives as the id is that of its decision maker. -/
theorem Gives.hasId {person : DecisionMaker Float}
    (h : rectangle.Gives row .id ((Draft.ofPerson person).value? .id)) :
    rectangle.HasId row person.id := by
  rcases h with ⟨j, hheader, -, hparse, hlater⟩
  rcases bind_eq_ok.mp hparse with ⟨id, hid, hvalue⟩
  rcases Value.id.inj (Except.ok.inj hvalue) with rfl
  exact ⟨j, hheader, hid, hlater⟩

/-- Decision makers are read from a rectangle of cells. -/
theorem exists_table_eq_of_areOf {bytes : List UInt8} {people : List (DecisionMaker Float)}
    (h : AreOf people (Csv.read bytes)) :
    ∃ (width : Nat) (rectangle : Rectangle width), rectangle.table = Csv.read bytes := by
  rcases h with ⟨header, hheader, hrows⟩
  refine ⟨header.length, exists_table_eq_read hheader fun row hrow => ?_⟩
  rw [← List.zipIdx_map_fst 0 (Csv.read bytes).rows, List.mem_map] at hrow
  rcases hrow with ⟨entry, hentry, rfl⟩
  rcases exists_forall₂_iff.mp ⟨people, hrows⟩ entry hentry with ⟨person, cells, hcells, -⟩
  exact ⟨cells, hcells⟩

/-! ## Columns in another order -/

/-- The table with its columns in another order. -/
def permute (order : Equiv.Perm (Fin width)) : Rectangle width :=
  ⟨rectangle.header ∘ order, rectangle.rows.map (· ∘ order)⟩

variable {rectangle} (order : Equiv.Perm (Fin width))

/-- A row is accepted with its cells in any order of the columns. -/
theorem accepts_permute_iff : (rectangle.permute order).Accepts (row ∘ order) ↔
    rectangle.Accepts row :=
  and_congr (order.exists_congr fun _ => Iff.rfl) (order.forall_congr fun _ => Iff.rfl)

/-- No two headers have the same meaning. -/
def IsDistinct (rectangle : Rectangle width) : Prop :=
  ∀ column i j, Means (rectangle.header i) column → Means (rectangle.header j) column → i = j

/-- Of headers with distinct meanings the order does not matter. -/
theorem Gives.permute {column : Column} {value? : Option Value} (distinct : rectangle.IsDistinct)
    (h : rectangle.Gives row column value?) :
    (rectangle.permute order).Gives (row ∘ order) column value? := by
  cases value? with
  | none => exact fun j hmeans => h (order j) hmeans
  | some value =>
    rcases h with ⟨j, hmeans, hcell, hvalue, -⟩
    refine ⟨order.symm j, by simpa [Rectangle.permute], by simpa, by simpa, ?_⟩
    intro later hlater hother
    -- no later column has this meaning, since no other one has
    have heq : order later = j := distinct column _ _ hother hmeans
    simp [← heq] at hlater

/-- A row gives one value under a meaning. -/
theorem Gives.unique {column : Column} {value? other? : Option Value}
    (h : rectangle.Gives row column value?) (hother : rectangle.Gives row column other?) :
    value? = other? := by
  cases value? with
  | none =>
    cases other? with
    | none => rfl
    | some other =>
      rcases hother with ⟨j, hmeans, hcell, -⟩
      exact absurd (h j hmeans) hcell
  | some value =>
    rcases h with ⟨i, hmeans, hcell, hvalue, hlater⟩
    cases other? with
    | none => exact absurd (hother i hmeans) hcell
    | some other =>
      rcases hother with ⟨j, hmeans', hcell', hvalue', hlater'⟩
      rcases lt_trichotomy i j with hlt | rfl | hlt
      · exact absurd (hlater j hlt hmeans') hcell'
      · rw [hvalue] at hvalue'
        rw [Except.ok.inj hvalue']
      · exact absurd (hlater' i hlt hmeans) hcell

/-- A table is read with its columns in any order when it is read at all. -/
theorem exists_ofTable_permute_iff (file other : String) :
    (∃ people, ofTable other (rectangle.permute order).table = .ok people) ↔
      ∃ people, ofTable file rectangle.table = .ok people := by
  rw [exists_ofTable_iff, exists_ofTable_iff]
  refine and_congr (order.exists_congr fun _ => Iff.rfl) ?_
  rw [permute, List.forall_mem_map]
  exact forall₂_congr fun row _ => accepts_permute_iff order

end Rectangle

/-- Two records are the same: that of one decision maker on one trip with the same attributes. -/
structure Agrees (person other : DecisionMaker Float) : Prop where
  id : person.id = other.id
  trip : person.trip = other.trip
  attributes : person.attributes.source = other.attributes.source

/-- Records that have the same under every meaning are the same. -/
theorem Agrees.of_value?_eq {person other : DecisionMaker Float}
    (h : ∀ column, (Draft.ofPerson person).value? column = (Draft.ofPerson other).value? column) :
    Agrees person other := by
  have hnumber := Option.map_injective fun m n (hmn : Value.number m = .number n) =>
    Value.number.inj hmn
  have hreal := Option.map_injective fun x y (hxy : Value.real x = .real y) => Value.real.inj hxy
  rcases person with ⟨id, ⟨origin, destination, period⟩, attributes⟩
  rcases other with ⟨id', ⟨origin', destination', period'⟩, attributes'⟩
  obtain rfl : origin = origin' := hnumber (h .origin)
  obtain rfl : destination = destination' := hnumber (h .destination)
  obtain rfl : period = period' := hnumber (h .period)
  refine ⟨Value.id.inj (Option.some.inj (h .id)), rfl, ?_⟩
  dsimp only
  rw [AttributeSet.source, AttributeSet.source, AttributeSource.mk.injEq]
  exact ⟨funext fun name => hreal (h (.scalar name)),
    funext fun name => funext fun id => hreal (h (.alternative name id))⟩

/-- A table is read exactly when it has a column of ids and each row is accepted, that is, has an id
and cells that are empty or can be read as they are meant. Each row is then the record in its place:
under every meaning the record has what the last cell of the row with this meaning says that is not
empty, and nothing without such a cell. A table with its columns in another order is read when the
table itself is, and where no two headers have the same meaning the records are the same. -/
theorem ofTable_exact {width : Nat} (file : String) (rectangle : Rectangle width) :
    ((∃ people, ofTable file rectangle.table = .ok people) ↔
      (∃ j, Means (rectangle.header j) .id) ∧ ∀ row ∈ rectangle.rows, rectangle.Accepts row) ∧
    (∀ people, ofTable file rectangle.table = .ok people →
      List.Forall₂ (fun row person => ∀ column,
        rectangle.Gives row column ((Draft.ofPerson person).value? column))
        rectangle.rows people) ∧
    ∀ (order : Equiv.Perm (Fin width)) (file' : String),
      ((∃ people, ofTable file' (rectangle.permute order).table = .ok people) ↔
        ∃ people, ofTable file rectangle.table = .ok people) ∧
      (rectangle.IsDistinct → ∀ people people',
        ofTable file rectangle.table = .ok people →
        ofTable file' (rectangle.permute order).table = .ok people' →
        List.Forall₂ Agrees people people') := by
  refine ⟨rectangle.exists_ofTable_iff, fun people h => rectangle.forall₂_gives_of_ofTable h,
    fun order file' => ⟨Rectangle.exists_ofTable_permute_iff order file file', ?_⟩⟩
  intro distinct people people' hpeople hpeople'
  have hgives := rectangle.forall₂_gives_of_ofTable hpeople
  have hgives' := (rectangle.permute order).forall₂_gives_of_ofTable hpeople'
  rw [Rectangle.permute, List.forall₂_map_left_iff] at hgives'
  refine forall₂_of_partners (fun row person person' h h' => ?_) hgives hgives'
  exact .of_value?_eq fun column => ((h column).permute order distinct).unique (h' column)

/-- Two commuters, of whom one has no income and the other one no cost of driving. -/
def commuters : Rectangle 3 :=
  ⟨!["id", "income", "cost[1]"], [!["7", "", "3.5"], !["8", "100", ""]]⟩

/-- The commuters are the same ones when the ids stand in the last column. -/
theorem ofTable_exact_commuters :
    commuters.IsDistinct ∧ ∃ people people',
      ofTable "people.csv" commuters.table = .ok people ∧
      ofTable "people.csv" (commuters.permute (Equiv.swap 0 2)).table = .ok people' ∧
      List.Forall₂ Agrees people people' ∧ people.map (·.id) = [7, 8] := by
  have hdistinct : commuters.IsDistinct := by
    intro column i j hi hj
    rw [← ofHeader_eq_iff] at hi hj
    have hheaders : ∀ i j : Fin 3, Column.ofHeader (commuters.header i) =
        Column.ofHeader (commuters.header j) → i = j := by decide
    exact hheaders i j (hi.trans hj.symm)
  rcases ofTable_exact "people.csv" commuters with ⟨-, -, horders⟩
  rcases horders (Equiv.swap 0 2) "people.csv" with ⟨hread, hsame⟩
  have hids : (ofTable "people.csv" commuters.table).map (·.map (·.id)) = .ok [7, 8] := by
    with_unfolding_all rfl
  cases hpeople : ofTable "people.csv" commuters.table with
  | error fault => simp [hpeople, Except.map] at hids
  | ok people =>
    rcases hread.mpr ⟨people, hpeople⟩ with ⟨people', hpeople'⟩
    refine ⟨hdistinct, people, people', rfl, hpeople',
      hsame hdistinct people people' hpeople hpeople', ?_⟩
    simpa [hpeople, Except.map] using hids

end Population
end DiscreteChoice
