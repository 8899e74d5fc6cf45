import DiscreteChoice.Identifier
import DiscreteChoice.Numeric.Basic

/-!
# Utility vectors

One entry per alternative in model order: the utility of an available alternative, and nothing for
an unavailable one.

Main results:

- Theorem `lt_size_of_utility?`: only alternatives of the vector have a utility.
- Theorem `map_utility?_range`: the entries are the utilities of all positions in order.
- Theorem `utility?_ofMask`: an alternative is available when its mask says so and its utility is
  finite.
-/

namespace DiscreteChoice

/-- The utilities of the available alternatives of one decision by position. -/
structure UtilityVector (α : Type) where
  id : DecisionMakerId
  entries : Array (Option α)
deriving Repr

namespace UtilityVector

variable {α : Type}

/-- How many alternatives there are, available or not. -/
def size (v : UtilityVector α) : Nat :=
  v.entries.size

/-- The utility of the alternative at a position, if it is available. -/
def utility? (v : UtilityVector α) (position : Nat) : Option α :=
  v.entries[position]?.join

/-- Whether the alternative at a position is available. -/
def isAvailable (v : UtilityVector α) (position : Nat) : Bool :=
  (v.utility? position).isSome

/-- Only alternatives of the vector have a utility. -/
theorem lt_size_of_utility? {v : UtilityVector α} {position : Nat} {u : α}
    (h : v.utility? position = some u) : position < v.size := by
  rw [utility?, Option.join_eq_some_iff] at h
  exact (Array.getElem?_eq_some_iff.mp h).1

/-- The utilities of all positions are the entries of the vector. -/
theorem map_utility?_range (v : UtilityVector α) :
    (List.range v.size).map v.utility? = v.entries.toList := by
  apply List.ext_getElem
  · simp [size]
  · intro position _ hposition
    have hbound : position < v.entries.size := by simpa using hposition
    simp [utility?, hbound]

/-- The positions of the available alternatives with their utilities, in order. -/
def available (v : UtilityVector α) : List (Nat × α) :=
  v.entries.toList.zipIdx.filterMap fun entry => entry.1.map fun u => (entry.2, u)

/-- The utilities of the available alternatives, in order. -/
def availableUtilities (v : UtilityVector α) : List α :=
  v.entries.toList.filterMap fun entry => entry

/-- How many alternatives are available. -/
def availableCount (v : UtilityVector α) : Nat :=
  v.entries.toList.countP Option.isSome

variable [Numeric α]

/-- All utilities, an undefined value for an unavailable alternative. -/
def utilities (v : UtilityVector α) : Array α :=
  v.entries.map fun entry => entry.getD Numeric.nan

/-- The vector of given utilities, in which an alternative is available when the mask says so and its
utility is finite. Positions behind the end of the mask are unavailable. -/
def ofMask (id : DecisionMakerId) (utilities : Array α) (mask : Array Bool) : UtilityVector α :=
  ⟨id, utilities.mapIdx fun position u =>
    if mask[position]?.getD false && Numeric.isFinite u then some u else none⟩

/-- The vector of given utilities, every finite one available. -/
def ofUtilities (id : DecisionMakerId) (utilities : Array α) : UtilityVector α :=
  ofMask id utilities (Array.replicate utilities.size true)

/-- An alternative is available when its mask says so and its utility is finite. -/
theorem utility?_ofMask (id : DecisionMakerId) (utilities : Array α) (mask : Array Bool)
    (position : Nat) :
    (ofMask id utilities mask).utility? position =
      utilities[position]?.bind fun u =>
        if mask[position]?.getD false && Numeric.isFinite u then some u else none := by
  simp only [utility?, ofMask, Array.getElem?_mapIdx]
  cases utilities[position]? <;> rfl

end UtilityVector
end DiscreteChoice
