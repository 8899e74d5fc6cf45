import Mathlib
import DiscreteChoice.Input.MatrixTable
import DiscreteChoice.Proofs.Data.Skim

/-!
# Matrix tables as their rows say

The matrices of a table answer as a reading of its rows does: the rows of the period count, or the
rows without a period where the period has none, and of these the last one for the two zones. The
rows are never refused, and a hole in the table of a period is not filled from elsewhere.

Main results:

- Theorem `mem_keysOf`: there is a table for each matrix and period with a row.
- Theorem `foldlM_addTable_eq_ok`: tables are added for all their keys, each from its rows.
- Theorem `exists_ofRows_lookup_eq`: the matrices of rows answer as the rows say.
-/

namespace DiscreteChoice
namespace MatrixTable

/-! ## What rows say -/

/-- The rows of a matrix and a period. -/
def rowsOf (rows : List Row) (name : String) (period : Option TimePeriod) : List Row :=
  rows.filter fun row => row.matrix = name ∧ row.period = period

/-- The rows that count in a period: those of the period, or else those without a period. -/
def servingRows (rows : List Row) (name : String) (period : Option TimePeriod) : List Row :=
  if rowsOf rows name period = [] then rowsOf rows name none else rowsOf rows name period

/-- The last of the rows for a pair of zones. -/
def lastRow? (rows : List Row) (origin destination : ZoneId) : Option Row :=
  (rows.filter fun row => row.entry.origin = origin ∧ row.entry.destination = destination).getLast?

/-- The value that rows say a matrix has, none without a row and for the undefined value. -/
def valueIn? (rows : List Row) (name : String) (origin destination : ZoneId)
    (period : Option TimePeriod) : Option Float :=
  match lastRow? (servingRows rows name period) origin destination with
  | none => none
  | some row => if row.entry.value.isNaN then none else some row.entry.value

/-- The last entry of rows is that of their last row. -/
theorem lastFor?_map_entry (rows : List Row) (origin destination : ZoneId) :
    SkimMatrix.lastFor? (rows.map (·.entry)) origin destination =
      (lastRow? rows origin destination).map (·.entry) := by
  rw [SkimMatrix.lastFor?, List.filter_map, List.getLast?_map]
  rfl

/-! ## The tables of rows -/

/-- There is a key for each matrix and period with a row. -/
theorem mem_keysOf {rows : List Row} {name : String} {period : Option TimePeriod} :
    (name, period) ∈ keysOf rows ↔ rowsOf rows name period ≠ [] := by
  induction rows using List.reverseRecOn with
  | nil => simp [keysOf, rowsOf]
  | append_singleton rows row ih =>
    have hkeys : keysOf (rows ++ [row]) =
        if (keysOf rows).contains (row.matrix, row.period) then keysOf rows
        else keysOf rows ++ [(row.matrix, row.period)] := by
      rw [keysOf, List.foldl_append]
      rfl
    have hrows : rowsOf (rows ++ [row]) name period =
        rowsOf rows name period ++ rowsOf [row] name period := List.filter_append ..
    rw [hkeys, hrows]
    by_cases hrow : row.matrix = name ∧ row.period = period
    · rcases hrow with ⟨rfl, rfl⟩
      by_cases hold : (row.matrix, row.period) ∈ keysOf rows <;> simp [hold, rowsOf]
    · have hkey : (name, period) ≠ (row.matrix, row.period) :=
        fun h => hrow (by simpa [eq_comm] using h)
      have hnone : rowsOf [row] name period = [] := by simp [rowsOf, hrow]
      rw [hnone, List.append_nil, ← ih]
      split <;> simp [hkey]

/-- Tables are added for all keys, each the table of its rows. -/
theorem foldlM_addTable_eq_ok (rows : List Row) (keys : List (String × Option TimePeriod))
    (set : SkimSet Float) :
    ∃ filled, keys.foldlM (addTable rows) set = .ok filled ∧
      ∀ name period, filled.table? name period =
        if (name, period) ∈ keys then
          (SkimMatrix.ofEntries (entriesOf name period rows)).toOption
        else set.table? name period := by
  induction keys generalizing set with
  | nil => exact ⟨set, rfl, fun name period => by simp⟩
  | cons key keys ih =>
    rcases SkimMatrix.ofEntries_eq_ok (by rfl) (entriesOf key.1 key.2 rows) with ⟨m, hm, -⟩
    rcases ih (set.insert key.1 key.2 m) with ⟨filled, hfilled, htables⟩
    refine ⟨filled, ?_, fun name period => ?_⟩
    · rw [List.foldlM_cons, addTable, hm]
      exact hfilled
    · rw [htables, SkimSet.table?_insert]
      by_cases hlater : (name, period) ∈ keys
      · rw [if_pos hlater, if_pos (List.mem_cons_of_mem _ hlater)]
      · rw [if_neg hlater]
        by_cases hkey : key = (name, period)
        · subst hkey
          simp [hm, Except.toOption]
        · have hparts : ¬(key.1 = name ∧ key.2 = period) := fun h => hkey (Prod.ext h.1 h.2)
          rw [if_neg hparts, if_neg (by simp [hlater, Ne.symm hkey])]

/-- The table that serves a period is the one of the rows that count in it. -/
theorem serving_table_eq {rows : List Row} {set : SkimSet Float} {name : String}
    (htables : ∀ period, set.table? name period =
      if rowsOf rows name period ≠ [] then
        (SkimMatrix.ofEntries (entriesOf name period rows)).toOption
      else none)
    (period : Option TimePeriod) :
    (set.table? name period).or (set.table? name none) =
      if servingRows rows name period = [] then none
      else (SkimMatrix.ofEntries ((servingRows rows name period).map (·.entry))).toOption := by
  have hentries (period : Option TimePeriod) :
      entriesOf name period rows = (rowsOf rows name period).map (·.entry) := rfl
  rcases SkimMatrix.ofEntries_eq_ok (by rfl) (entriesOf name period rows) with ⟨m, hm, -⟩
  rw [servingRows, htables, htables]
  by_cases hown : rowsOf rows name period = []
  · by_cases hany : rowsOf rows name none = [] <;> simp [hown, hany, hentries]
  · rw [hentries] at hm
    simp [hown, hm, hentries, Except.toOption]

/-- The matrices of rows are never refused, and a look-up answers as the rows say: from the last
row for the two zones among those of the period, or among those without a period where the period
has no row. A period with rows is not answered from elsewhere, even where it has no row for the two
zones. -/
theorem exists_ofRows_lookup_eq (rows : List Row) :
    ∃ set, ofRows rows = .ok set ∧
      ∀ name origin destination period,
        set.lookup name origin destination period =
            valueIn? rows name origin destination period ∧
          (rowsOf rows name period ≠ [] →
            lastRow? (rowsOf rows name period) origin destination = none →
            set.lookup name origin destination period = none) := by
  rcases foldlM_addTable_eq_ok rows (keysOf rows) .empty with ⟨set, hset, htables⟩
  have hvalue (name origin destination period) : set.lookup name origin destination period =
      valueIn? rows name origin destination period := by
    have htable (period : Option TimePeriod) : set.table? name period =
        if rowsOf rows name period ≠ [] then
          (SkimMatrix.ofEntries (entriesOf name period rows)).toOption
        else none := by
      rw [htables]
      simp [mem_keysOf, SkimSet.table?, SkimSet.empty]
    have hserving := serving_table_eq htable period
    rcases SkimMatrix.ofEntries_eq_ok (by rfl)
      ((servingRows rows name period).map (·.entry)) with ⟨m, hm, hget⟩
    rw [SkimSet.lookup_eq, hserving, valueIn?]
    by_cases hnone : servingRows rows name period = []
    · simp [hnone, lastRow?]
    · rw [if_neg hnone, hm]
      refine (hget origin destination).trans ?_
      rw [lastFor?_map_entry]
      cases lastRow? (servingRows rows name period) origin destination with
      | none => rfl
      | some row =>
        have hundefined : Numeric.isNaN row.entry.value = row.entry.value.isNaN := rfl
        simp only [Option.map_some, Option.filter_some, hundefined]
        cases row.entry.value.isNaN <;> rfl
  refine ⟨set, hset, fun name origin destination period =>
    ⟨hvalue name origin destination period, fun hrows hlast => ?_⟩⟩
  rw [hvalue, valueIn?, servingRows, if_neg hrows, hlast]

end MatrixTable
end DiscreteChoice
