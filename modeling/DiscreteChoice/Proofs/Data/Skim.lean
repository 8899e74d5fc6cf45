import Mathlib
import DiscreteChoice.Data.Skim

/-!
# Skim matrices from entries

A table made of entries holds the last value that was entered for a pair of zones, and nothing for
the other pairs: the zones are numbered without a gap, and a cell belongs to one pair of zones only.

Main results:

- Theorem `numberZones_eq_ok`: distinct zones are numbered in their order.
- Theorem `eq_of_cell_eq`: a cell belongs to one pair of zones only.
- Theorem `getElem?_foldl_enter`: a cell holds the last value that was entered for its zones.
- Theorem `ofEntries_eq_ok`: there is a table for all entries, and it holds them.
- Theorem `SkimSet.lookup_eq`: which table answers for a period.
-/

namespace DiscreteChoice
namespace SkimMatrix

variable {α : Type}

/-! ## The zones of entries -/

/-- The zones of entries are those that an entry names. -/
theorem mem_zonesOf {entries : List (Entry α)} {zone : ZoneId} :
    zone ∈ zonesOf entries ↔ ∃ e ∈ entries, e.origin = zone ∨ e.destination = zone := by
  rw [zonesOf, Std.TreeMap.mem_keys]
  induction entries using List.reverseRecOn with
  | nil => simp
  | append_singleton entries e ih =>
    rw [List.foldl_append, List.foldl_cons, List.foldl_nil, Std.TreeMap.mem_insert,
      Std.TreeMap.mem_insert, ih]
    simp only [Std.LawfulEqCmp.compare_eq_iff_eq, List.mem_append, List.mem_singleton]
    constructor
    · rintro (h | h | ⟨other, hother, h⟩)
      · exact ⟨e, .inr rfl, .inr h⟩
      · exact ⟨e, .inr rfl, .inl h⟩
      · exact ⟨other, .inl hother, h⟩
    · rintro ⟨other, hother | rfl, h⟩
      · exact .inr (.inr ⟨other, hother, h⟩)
      · exact h.elim (fun h => .inr (.inl h)) .inl

theorem nodup_zonesOf (entries : List (Entry α)) : (zonesOf entries).Nodup :=
  Std.TreeMap.nodup_keys

/-- Distinct zones are numbered in their order, behind those that have a number. -/
theorem numberZones_eq_ok {zones : List ZoneId} (hnodup : zones.Nodup) (position : Nat)
    {positions : Std.TreeMap ZoneId Nat} (hfresh : ∀ zone ∈ zones, zone ∉ positions) :
    ∃ numbered, numberZones position zones positions = .ok numbered ∧
      numbered.size = positions.size + zones.length ∧
      ∀ zone, numbered[zone]? =
        if zone ∈ zones then some (position + zones.idxOf zone) else positions[zone]? := by
  induction zones generalizing position positions with
  | nil => exact ⟨positions, rfl, by simp, by simp⟩
  | cons zone zones ih =>
    rcases List.nodup_cons.mp hnodup with ⟨hzone, hzones⟩
    have hnew : zone ∉ positions := hfresh zone List.mem_cons_self
    have hothers : ∀ other ∈ zones, other ∉ positions.insert zone position := by
      intro other hother
      rw [Std.TreeMap.mem_insert, Std.LawfulEqCmp.compare_eq_iff_eq, not_or]
      exact ⟨fun h => hzone (h ▸ hother), hfresh other (List.mem_cons_of_mem _ hother)⟩
    rcases ih hzones (position + 1) hothers with ⟨numbered, hnumbered, hsize, hget⟩
    refine ⟨numbered, ?_, ?_, fun other => ?_⟩
    · rw [numberZones, if_neg (by simpa using hnew), hnumbered]
    · rw [hsize, Std.TreeMap.size_insert, if_neg (by simpa using hnew), List.length_cons]
      omega
    · simp only [hget, Std.TreeMap.getElem?_insert, Std.LawfulEqCmp.compare_eq_iff_eq]
      by_cases hother : zone = other
      · subst hother
        simp [hzone]
      · by_cases hmem : other ∈ zones
        · rw [if_pos hmem, if_pos (List.mem_cons_of_mem _ hmem), List.idxOf_cons_ne _ hother]
          congr 1
          omega
        · simp [hmem, hother, Ne.symm hother]

/-! ## The values of entries -/

/-- The last of the entries for a pair of zones. -/
def lastFor? (entries : List (Entry α)) (origin destination : ZoneId) : Option (Entry α) :=
  (entries.filter fun e => e.origin = origin ∧ e.destination = destination).getLast?

theorem lastFor?_append_singleton (entries : List (Entry α)) (e : Entry α)
    (origin destination : ZoneId) :
    lastFor? (entries ++ [e]) origin destination =
      if e.origin = origin ∧ e.destination = destination then some e
      else lastFor? entries origin destination := by
  by_cases h : e.origin = origin ∧ e.destination = destination <;> simp [lastFor?, h]

/-- The place of a pair of zones in a table over a list of zones. -/
def cell (zones : List ZoneId) (origin destination : ZoneId) : Nat :=
  zones.idxOf origin * zones.length + zones.idxOf destination

section Cells

variable {zones : List ZoneId} {origin destination : ZoneId}

/-- Every pair of zones has a place in the table. -/
theorem cell_lt (horigin : origin ∈ zones) (hdestination : destination ∈ zones) :
    cell zones origin destination < zones.length * zones.length := by
  have hrow := List.idxOf_lt_length_iff.mpr horigin
  have hcolumn := List.idxOf_lt_length_iff.mpr hdestination
  calc zones.idxOf origin * zones.length + zones.idxOf destination
      < (zones.idxOf origin + 1) * zones.length := by rw [Nat.succ_mul]; omega
    _ ≤ zones.length * zones.length := Nat.mul_le_mul_right _ hrow

/-- A place in the table belongs to one pair of zones only. -/
theorem eq_of_cell_eq {otherOrigin otherDestination : ZoneId} (horigin : origin ∈ zones)
    (hdestination : destination ∈ zones) (hotherDestination : otherDestination ∈ zones)
    (h : cell zones origin destination = cell zones otherOrigin otherDestination) :
    origin = otherOrigin ∧ destination = otherDestination := by
  have hrow (place : ZoneId) {column : Nat} (hcolumn : column < zones.length) :
      (zones.idxOf place * zones.length + column) / zones.length = zones.idxOf place := by
    rw [Nat.mul_comm, Nat.mul_add_div (by omega), Nat.div_eq_of_lt hcolumn, Nat.add_zero]
  have hrows : zones.idxOf origin = zones.idxOf otherOrigin := by
    rw [← hrow origin (List.idxOf_lt_length_iff.mpr hdestination),
      ← hrow otherOrigin (List.idxOf_lt_length_iff.mpr hotherDestination)]
    exact congrArg (· / zones.length) h
  have hcolumns : zones.idxOf destination = zones.idxOf otherDestination := by
    rw [cell, cell, hrows] at h
    exact Nat.add_left_cancel h
  exact ⟨(List.idxOf_inj horigin).mp hrows, (List.idxOf_inj hdestination).mp hcolumns⟩

/-- Enters a value for its pair of zones. -/
def enter (zones : List ZoneId) (values : Array α) (e : Entry α) : Array α :=
  values.setIfInBounds (cell zones e.origin e.destination) e.value

theorem size_foldl_enter (entries : List (Entry α)) (values : Array α) :
    (entries.foldl (enter zones) values).size = values.size := by
  induction entries generalizing values with
  | nil => rfl
  | cons e entries ih => rw [List.foldl_cons, ih, enter, Array.size_setIfInBounds]

/-- A place holds the last value that was entered for its zones, or what it held before. -/
theorem getElem?_foldl_enter {entries : List (Entry α)} {values : Array α}
    (hsize : values.size = zones.length * zones.length)
    (hentries : ∀ e ∈ entries, e.origin ∈ zones ∧ e.destination ∈ zones)
    (horigin : origin ∈ zones) (hdestination : destination ∈ zones) :
    (entries.foldl (enter zones) values)[cell zones origin destination]? =
      ((lastFor? entries origin destination).map (·.value)).or
        values[cell zones origin destination]? := by
  induction entries using List.reverseRecOn with
  | nil => rfl
  | append_singleton entries e ih =>
    rcases hentries e (by simp) with ⟨heOrigin, heDestination⟩
    have hplace := cell_lt horigin hdestination
    rw [List.foldl_append, List.foldl_cons, List.foldl_nil, enter, Array.getElem?_setIfInBounds,
      size_foldl_enter, hsize, ih fun e he => hentries e (by simp [he]), lastFor?_append_singleton]
    by_cases h : e.origin = origin ∧ e.destination = destination
    · rcases h with ⟨rfl, rfl⟩
      simp [hplace]
    · have hcell : cell zones e.origin e.destination ≠ cell zones origin destination :=
        fun heq => h (eq_of_cell_eq heOrigin heDestination hdestination heq)
      rw [if_neg hcell, if_neg h]

end Cells

/-! ## Tables of entries -/

/-- The zones of entries are numbered in their order. -/
theorem numberZones_zonesOf (entries : List (Entry α)) :
    ∃ positions, numberZones 0 (zonesOf entries) ∅ = .ok positions ∧
      positions.size = (zonesOf entries).length ∧
      ∀ zone, positions[zone]? =
        if zone ∈ zonesOf entries then some ((zonesOf entries).idxOf zone) else none := by
  have hfresh : ∀ zone ∈ zonesOf entries, zone ∉ (∅ : Std.TreeMap ZoneId Nat) := by simp
  rcases numberZones_eq_ok (nodup_zonesOf entries) 0 hfresh with
    ⟨positions, hpositions, hsize, hnumber⟩
  exact ⟨positions, hpositions, by simpa using hsize, fun zone => by simpa using hnumber zone⟩

/-- No entry is the last one for zones that no entry names. -/
theorem lastFor?_eq_none {entries : List (Entry α)} {origin destination : ZoneId}
    (h : ¬(origin ∈ zonesOf entries ∧ destination ∈ zonesOf entries)) :
    lastFor? entries origin destination = none := by
  rw [lastFor?, List.getLast?_eq_none_iff, List.filter_eq_nil_iff]
  intro e he hzones
  rcases of_decide_eq_true hzones with ⟨rfl, rfl⟩
  exact h ⟨mem_zonesOf.mpr ⟨e, he, .inl rfl⟩, mem_zonesOf.mpr ⟨e, he, .inr rfl⟩⟩

variable [Numeric α]

/-- A table over numbered zones holds, for a pair of them, the value at its place. -/
theorem get?_eq_filter {m : SkimMatrix α} {zones : List ZoneId}
    (hsize : m.positions.size = zones.length)
    (hnumber : ∀ zone, m.positions[zone]? = if zone ∈ zones then some (zones.idxOf zone) else none)
    (origin destination : ZoneId) :
    m.get? origin destination =
      if origin ∈ zones ∧ destination ∈ zones then
        (m.values[cell zones origin destination]?).filter (!Numeric.isNaN ·)
      else none := by
  by_cases horigin : origin ∈ zones <;> by_cases hdestination : destination ∈ zones
  · simp only [get?, zoneCount, hsize, hnumber, horigin, hdestination,
      and_self, if_true, cell, Option.bind_eq_bind, Option.bind_some]
    cases m.values[zones.idxOf origin * zones.length + zones.idxOf destination]? with
    | none => rfl
    | some value => cases hundefined : Numeric.isNaN value <;> simp [hundefined, Option.filter]
  all_goals simp [get?, hnumber, horigin, hdestination]

/-- There is a table for all entries, and it holds the last value for a pair of zones, if there is
one and it is defined. -/
theorem ofEntries_eq_ok (hnan : Numeric.isNaN (Numeric.nan : α) = true)
    (entries : List (Entry α)) :
    ∃ m, ofEntries entries = .ok m ∧ ∀ origin destination, m.get? origin destination =
      ((lastFor? entries origin destination).map (·.value)).filter (!Numeric.isNaN ·) := by
  have hentries : ∀ e ∈ entries, e.origin ∈ zonesOf entries ∧ e.destination ∈ zonesOf entries :=
    fun e he => ⟨mem_zonesOf.mpr ⟨e, he, .inl rfl⟩, mem_zonesOf.mpr ⟨e, he, .inr rfl⟩⟩
  rcases numberZones_zonesOf entries with ⟨positions, hpositions, hsize, hnumber⟩
  generalize hblank : Array.replicate ((zonesOf entries).length * (zonesOf entries).length)
    (Numeric.nan : α) = blank
  have hblankSize : blank.size = (zonesOf entries).length * (zonesOf entries).length := by
    rw [← hblank, Array.size_replicate]
  refine ⟨⟨positions, entries.foldl (enter (zonesOf entries)) blank⟩, ?_,
    fun origin destination => ?_⟩
  · have hfold (add : Array α → Entry α → Array α)
        (hadd : ∀ values, ∀ e ∈ entries, add values e = enter (zonesOf entries) values e) :
        entries.foldl add blank = entries.foldl (enter (zonesOf entries)) blank :=
      List.foldl_ext _ _ _ hadd
    have hrows : ofRows (zonesOf entries) (entries.foldl (enter (zonesOf entries)) blank) =
        .ok ⟨positions, entries.foldl (enter (zonesOf entries)) blank⟩ := by
      rw [ofRows, if_neg (by rw [size_foldl_enter, hblankSize]; simp), hpositions]
      rfl
    rw [ofEntries, hpositions]
    simp only [bind, Except.bind, hblank]
    rw [hfold _ fun values e he => ?_, hrows]
    rw [hnumber, hnumber, if_pos (hentries e he).1, if_pos (hentries e he).2]
    rfl
  · rw [get?_eq_filter hsize hnumber]
    by_cases h : origin ∈ zonesOf entries ∧ destination ∈ zonesOf entries
    · rw [if_pos h, getElem?_foldl_enter hblankSize hentries h.1 h.2, ← hblank,
        Array.getElem?_replicate, if_pos (cell_lt h.1 h.2)]
      -- A place without a value holds the undefined one, which is none.
      cases lastFor? entries origin destination with
      | none => simp [hnan]
      | some e => rfl
    · rw [if_neg h, lastFor?_eq_none h]
      rfl

end SkimMatrix

/-- A period is served by its own table, or else by the one without a period. -/
theorem SkimSet.lookup_eq {α : Type} [Numeric α] (set : SkimSet α) (name : String)
    (origin destination : ZoneId) (period : Option TimePeriod) :
    set.lookup name origin destination period =
      ((set.table? name period).or (set.table? name none)).bind (·.get? origin destination) := by
  rw [SkimSet.lookup, SkimSet.table?, SkimSet.table?]
  cases set.tables[name]? <;> rfl

end DiscreteChoice
