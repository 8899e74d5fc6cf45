import DiscreteChoice.Identifier
import DiscreteChoice.Numeric.Basic
import Std.Data.TreeMap

/-!
# Zone data

Values of zones by field.

Main results:

- Theorem `ZoneData.lookup_insert`: a new value replaces the old one of its field and zone only, and
  an undefined value counts as none.
-/

namespace DiscreteChoice

/-- The values of zones by field. -/
structure ZoneData (α : Type) where
  fields : Std.TreeMap String (Std.TreeMap ZoneId α)

namespace ZoneData

variable {α : Type}

/-- No data. -/
def empty : ZoneData α :=
  ⟨∅⟩

/-- Whether there is no field. -/
def isEmpty (zones : ZoneData α) : Bool :=
  zones.fields.isEmpty

/-- The names of the fields in order. -/
def fieldNames (zones : ZoneData α) : List String :=
  zones.fields.keys

/-- Sets the value of a zone in a field. -/
def insert (zones : ZoneData α) (field : String) (zone : ZoneId) (value : α) : ZoneData α :=
  ⟨zones.fields.alter field fun values? => some ((values?.getD ∅).insert zone value)⟩

/-- The value of a zone in a field. An undefined value counts as none. -/
def lookup [Numeric α] (zones : ZoneData α) (field : String) (zone : ZoneId) : Option α :=
  (zones.fields[field]?.bind (·[zone]?)).filter fun value => !Numeric.isNaN value

/-- A new value replaces the old one of its field and zone only, and an undefined value counts as
none. -/
@[simp] theorem lookup_insert [Numeric α] (zones : ZoneData α) (field other : String)
    (zone otherZone : ZoneId) (value : α) :
    (zones.insert field zone value).lookup other otherZone =
      if field = other ∧ zone = otherZone then
        if Numeric.isNaN value then none else some value
      else zones.lookup other otherZone := by
  simp only [insert, lookup, Std.TreeMap.getElem?_alter, Std.LawfulEqCmp.compare_eq_iff_eq]
  by_cases hfield : field = other
  · subst hfield
    by_cases hzone : zone = otherZone
    · cases h : Numeric.isNaN value <;> simp [hzone, h, Option.filter]
    · cases h : zones.fields[field]? <;> simp [hzone, Std.TreeMap.getElem?_insert]
  · simp [hfield]

end ZoneData
end DiscreteChoice
