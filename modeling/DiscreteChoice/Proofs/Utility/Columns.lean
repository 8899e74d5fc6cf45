import Mathlib
import DiscreteChoice.Utility.Vector

/-!
# Utility vectors in columns

A utility vector can be kept in two columns of one length: a number for every position, which is
undefined where the alternative is unavailable, and a flag that says whether it is available. The
columns are built from a mask in two passes, and each question is answered from the columns in its
own way. The entries of a vector are these columns side by side, so that all answers agree.

Main results:

- Theorem `UtilityVector.columns_ofMask`: the two passes build the columns of the vector of a mask.
- Theorem `UtilityVector.available_columns`: the columns list the available alternatives of the
  vector.
- Theorem `UtilityVector.ofMask_views`: what the vector of a mask answers, whatever the length of the
  mask is.
-/

namespace DiscreteChoice

open Numeric

/-- The numbers and the flags of a row of alternatives. -/
@[ext]
structure UtilityColumns (α : Type) where
  utilities : List α
  flags : List Bool

namespace UtilityColumns

variable {α : Type}

/-- Whether the flag of a position is set. There is none behind the end. -/
def isAvailable (columns : UtilityColumns α) (position : Nat) : Bool :=
  columns.flags[position]?.getD false

/-- The number at a position whose flag is set. -/
def utility? (columns : UtilityColumns α) (position : Nat) : Option α :=
  if columns.isAvailable position then columns.utilities[position]? else none

/-- How many flags are set. -/
def availableCount (columns : UtilityColumns α) : Nat :=
  columns.flags.countP id

/-- The positions whose flags are set with their numbers, in order. -/
def available (columns : UtilityColumns α) : List (Nat × α) :=
  ((columns.utilities.zip columns.flags).zipIdx.filter fun entry => entry.1.2).map
    fun entry => (entry.2, entry.1.1)

variable [Numeric α]

/-- The columns of given utilities. The first pass keeps the flags of the finite utilities, where the
mask goes on with unset flags when it is too short; the second pass keeps the utilities whose flags
are set. -/
def ofMask (utilities : List α) (mask : List Bool) : UtilityColumns α :=
  let padded := mask ++ List.replicate utilities.length false
  let flags := List.zipWith (fun u flag => flag && isFinite u) utilities padded
  ⟨List.zipWith (fun u flag => if flag then u else nan) utilities flags, flags⟩

end UtilityColumns

namespace UtilityVector

variable {α : Type}

/-! ## What is listed -/

/-- The positions of the entries are those of the list. -/
theorem mem_available {v : UtilityVector α} {position : Nat} {u : α} :
    (position, u) ∈ v.available ↔ v.utility? position = some u := by
  have hentry {entry : Option α} :
      (entry, position) ∈ v.entries.toList.zipIdx ↔ v.entries[position]? = some entry := by
    rw [List.mk_mem_zipIdx_iff_getElem?, Array.getElem?_toList]
  rw [available, List.mem_filterMap, utility?, Option.join_eq_some_iff, ← hentry]
  constructor
  · rintro ⟨⟨entry, other⟩, hmem, hsome⟩
    rcases Option.map_eq_some_iff.mp hsome with ⟨u', rfl, hpair⟩
    cases hpair
    exact hmem
  · intro hmem
    exact ⟨_, hmem, rfl⟩

/-- The available alternatives are listed by increasing position. -/
theorem pairwise_available (v : UtilityVector α) :
    v.available.Pairwise fun first second => first.1 < second.1 := by
  have hpositions : v.entries.toList.zipIdx.Pairwise fun first second => first.2 < second.2 := by
    apply List.pairwise_map.mp
    rw [List.zipIdx_map_snd]
    exact List.pairwise_lt_range'
  apply hpositions.filterMap
  rintro first second hlt _ hfirst _ hsecond
  rcases Option.map_eq_some_iff.mp hfirst with ⟨u, -, rfl⟩
  rcases Option.map_eq_some_iff.mp hsecond with ⟨u', -, rfl⟩
  exact hlt

/-- As many alternatives are listed as are available. -/
theorem length_available (v : UtilityVector α) : v.available.length = v.availableCount := by
  have hsome : (fun entry : Option α × Nat => (entry.1.map fun u => (entry.2, u)).isSome) =
      Option.isSome ∘ Prod.fst := by
    funext entry
    simp
  rw [available, List.length_filterMap_eq_countP, hsome, ← List.countP_map, List.zipIdx_map_fst,
    availableCount]

variable [Numeric α]

/-! ## The columns of a vector -/

/-- The numbers and the flags of a vector. -/
def columns (v : UtilityVector α) : UtilityColumns α :=
  ⟨v.utilities.toList, v.entries.toList.map Option.isSome⟩

/-- The flag of a position says whether it is available. -/
@[simp] theorem isAvailable_columns (v : UtilityVector α) (position : Nat) :
    v.columns.isAvailable position = v.isAvailable position := by
  rw [UtilityColumns.isAvailable, columns, List.getElem?_map, Array.getElem?_toList, isAvailable,
    utility?]
  cases v.entries[position]? <;> rfl

/-- The number at a position is the utility there. -/
theorem utility?_columns (v : UtilityVector α) (position : Nat) :
    v.columns.utility? position = v.utility? position := by
  rw [UtilityColumns.utility?, isAvailable_columns, isAvailable, columns, utilities, Array.toList_map,
    List.getElem?_map, Array.getElem?_toList, utility?]
  rcases v.entries[position]? with _ | _ | u <;> rfl

/-- As many flags are set as alternatives are available. -/
theorem availableCount_columns (v : UtilityVector α) :
    v.columns.availableCount = v.availableCount := by
  rw [UtilityColumns.availableCount, columns, List.countP_map, Function.id_comp, availableCount]

/-- The columns list the available alternatives of the vector. -/
theorem available_columns (v : UtilityVector α) : v.columns.available = v.available := by
  have hrows : v.columns.utilities.zip v.columns.flags =
      v.entries.toList.map fun entry => (entry.getD nan, entry.isSome) := by
    rw [columns, utilities, Array.toList_map, List.zip_map']
  rw [UtilityColumns.available, hrows, List.zipIdx_map, List.filter_map, List.map_map, available,
    ← List.filterMap_eq_map, List.filterMap_filter]
  apply List.filterMap_congr
  rintro ⟨entry, position⟩ -
  cases entry <;> rfl

/-! ## The vector of a mask -/

section OfMask

variable (id : DecisionMakerId) (utilities : Array α) (mask : Array Bool)

@[simp] theorem size_ofMask : (ofMask id utilities mask).size = utilities.size := by
  simp [size, ofMask]

/-- The entry of a position. -/
theorem getElem?_entries_ofMask (position : Nat) :
    (ofMask id utilities mask).entries[position]? = utilities[position]?.map fun u =>
      if mask[position]?.getD false && isFinite u then some u else none := by
  rw [ofMask, Array.getElem?_mapIdx]

/-- A mask is read as unset behind its end, however far it is continued. -/
theorem getElem?_padded {mask : List Bool} {position count : Nat} (h : position < count) :
    (mask ++ List.replicate count false)[position]? = some (mask[position]?.getD false) := by
  rw [List.getElem?_append]
  split_ifs with hmask
  · rw [List.getElem?_eq_getElem hmask, Option.getD_some]
  · rw [List.getElem?_replicate, if_pos (by omega), List.getElem?_eq_none (by omega),
      Option.getD_none]

/-- The first pass sets the flags of the available alternatives. -/
theorem flags_columns_ofMask : (ofMask id utilities mask).columns.flags =
    (UtilityColumns.ofMask utilities.toList mask.toList).flags := by
  apply List.ext_getElem?
  intro position
  rw [columns, UtilityColumns.ofMask, List.getElem?_map, Array.getElem?_toList,
    getElem?_entries_ofMask, List.getElem?_zipWith, Array.getElem?_toList]
  cases hu : utilities[position]? with
  | none => rfl
  | some u =>
    have hroom : position < utilities.toList.length := by
      simpa using (Array.getElem?_eq_some_iff.mp hu).1
    rw [getElem?_padded hroom, Array.getElem?_toList, Option.map_some, Option.map_some]
    cases hflag : mask[position]?.getD false && isFinite u <;> simp [hflag]

/-- The two passes build the columns of the vector of a mask. -/
theorem columns_ofMask : (ofMask id utilities mask).columns =
    UtilityColumns.ofMask utilities.toList mask.toList := by
  have hflags := flags_columns_ofMask id utilities mask
  have hutilities : (ofMask id utilities mask).columns.utilities =
      (UtilityColumns.ofMask utilities.toList mask.toList).utilities := by
    change _ = List.zipWith _ _ (UtilityColumns.ofMask utilities.toList mask.toList).flags
    rw [← hflags]
    apply List.ext_getElem?
    intro position
    rw [columns, UtilityVector.utilities, Array.toList_map, List.getElem?_map, List.getElem?_zipWith,
      List.getElem?_map, Array.getElem?_toList, Array.getElem?_toList, getElem?_entries_ofMask]
    cases utilities[position]? with
    | none => rfl
    | some u =>
      rw [Option.map_some, Option.map_some, Option.map_some]
      cases hflag : mask[position]?.getD false && isFinite u <;> simp
  exact UtilityColumns.ext hutilities hflags

/-- The utility of a position is the given one when it is available. -/
theorem utility?_ofMask_eq (position : Nat) : (ofMask id utilities mask).utility? position =
    if (ofMask id utilities mask).isAvailable position then utilities[position]? else none := by
  rw [isAvailable, utility?_ofMask]
  cases utilities[position]? with
  | none => simp
  | some u => cases mask[position]?.getD false && isFinite u <;> simp

/-- The number of a position is the given one when it is available, and undefined otherwise. -/
theorem getElem?_utilities_ofMask (position : Nat) :
    (ofMask id utilities mask).utilities[position]? = utilities[position]?.map fun u =>
      if (ofMask id utilities mask).isAvailable position then u else nan := by
  rw [isAvailable, utility?_ofMask, UtilityVector.utilities, Array.getElem?_map,
    getElem?_entries_ofMask]
  cases utilities[position]? with
  | none => rfl
  | some u =>
    cases hflag : mask[position]?.getD false && isFinite u <;>
      simp only [Option.map_some, Option.bind_some, hflag] <;> rfl

/-- An alternative is available when it has a finite utility and the mask says so. -/
theorem isAvailable_ofMask_iff {position : Nat} :
    (ofMask id utilities mask).isAvailable position = true ↔
      ∃ u, utilities[position]? = some u ∧ mask[position]? = some true ∧ isFinite u = true := by
  rw [isAvailable, utility?_ofMask]
  cases utilities[position]? with
  | none => simp
  | some u => cases mask[position]? <;> simp

end OfMask

/-- What the vector of a mask answers, whatever the length of the mask is. It is as long as the given
utilities; an alternative is available when it has a utility that is finite and the mask says so;
then the given utility is answered, and otherwise nothing, with an undefined value in its place; the
list has the available alternatives by increasing position, and as many as are counted. Two columns
that are built from the mask in two passes give the same answers. -/
theorem ofMask_views (id : DecisionMakerId) (utilities : Array α) (mask : Array Bool) :
    let v := ofMask id utilities mask
    let columns := UtilityColumns.ofMask utilities.toList mask.toList
    v.size = utilities.size ∧ v.utilities.size = utilities.size ∧
    (∀ position,
      (v.isAvailable position = true ↔
        ∃ u, utilities[position]? = some u ∧ mask[position]? = some true ∧ isFinite u = true) ∧
      v.utility? position = (if v.isAvailable position then utilities[position]? else none) ∧
      (v.utilities[position]? =
        utilities[position]?.map fun u => if v.isAvailable position then u else nan) ∧
      ∀ u, (position, u) ∈ v.available ↔
        v.isAvailable position = true ∧ utilities[position]? = some u) ∧
    v.available.Pairwise (fun first second => first.1 < second.1) ∧
    v.available.length = v.availableCount ∧
    columns.utilities = v.utilities.toList ∧ columns.available = v.available ∧
    columns.availableCount = v.availableCount ∧
    ∀ position, columns.isAvailable position = v.isAvailable position ∧
      columns.utility? position = v.utility? position := by
  intro v columns
  have hcolumns : v.columns = columns := columns_ofMask id utilities mask
  refine ⟨size_ofMask id utilities mask, ?_,
    fun position => ⟨isAvailable_ofMask_iff id utilities mask, utility?_ofMask_eq id utilities mask _,
      getElem?_utilities_ofMask id utilities mask position, fun u => ?_⟩,
    pairwise_available v, length_available v, ?_, ?_, ?_, fun position => ⟨?_, ?_⟩⟩
  · rw [UtilityVector.utilities, Array.size_map]
    exact size_ofMask id utilities mask
  · rw [mem_available, utility?_ofMask_eq, Option.ite_none_right_eq_some]
  · rw [← hcolumns]; rfl
  · rw [← hcolumns, available_columns]
  · rw [← hcolumns, availableCount_columns]
  · rw [← hcolumns, isAvailable_columns]
  · rw [← hcolumns, utility?_columns]

end UtilityVector
end DiscreteChoice
