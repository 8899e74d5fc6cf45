import DiscreteChoice.Identifier
import Std.Data.TreeMap

/-!
# Attributes of decision makers

What is known of a decision maker: values of its own, and values that vary by alternative.

Main results:

- Theorem `AttributeSet.scalar_insertScalar`: a new value replaces the old one of its name only.
- Theorem `AttributeSet.alternative_insertAlternative`: likewise for the values of alternatives.
-/

namespace DiscreteChoice

/-- A source of attributes. -/
structure AttributeSource (α : Type) where
  /-- The value of an attribute of the decision maker. -/
  scalar : String → Option α
  /-- The value of an attribute for an alternative. -/
  alternative : String → AlternativeId → Option α

/-- The attributes of one decision maker. -/
structure AttributeSet (α : Type) where
  scalars : Std.TreeMap String α
  alternatives : Std.TreeMap String (Std.TreeMap AlternativeId α)

/-- The source whose scalars are the entries of a table, and which has no other attribute. -/
def AttributeSource.ofScalars {α : Type} (scalars : Std.TreeMap String α) : AttributeSource α where
  scalar name := scalars[name]?
  alternative _ _ := none

namespace AttributeSet

variable {α : Type}

/-- No attributes. -/
def empty : AttributeSet α :=
  ⟨∅, ∅⟩

/-- Whether there is no attribute. -/
def isEmpty (attributes : AttributeSet α) : Bool :=
  attributes.scalars.isEmpty && attributes.alternatives.isEmpty

/-- The value of an attribute of the decision maker. -/
def scalar (attributes : AttributeSet α) (name : String) : Option α :=
  attributes.scalars[name]?

/-- The value of an attribute for an alternative. -/
def alternative (attributes : AttributeSet α) (name : String) (id : AlternativeId) : Option α :=
  attributes.alternatives[name]?.bind (·[id]?)

/-- The attributes as a source. -/
def source (attributes : AttributeSet α) : AttributeSource α :=
  ⟨attributes.scalar, attributes.alternative⟩

/-- Sets an attribute of the decision maker. -/
def insertScalar (attributes : AttributeSet α) (name : String) (value : α) : AttributeSet α :=
  { attributes with scalars := attributes.scalars.insert name value }

/-- Sets an attribute for an alternative. -/
def insertAlternative (attributes : AttributeSet α) (name : String) (id : AlternativeId)
    (value : α) : AttributeSet α :=
  { attributes with
    alternatives := attributes.alternatives.alter name fun values? =>
      some ((values?.getD ∅).insert id value) }

/-- A new value replaces the old one of its name only. -/
@[simp] theorem scalar_insertScalar (attributes : AttributeSet α) (name other : String)
    (value : α) :
    (attributes.insertScalar name value).scalar other =
      if name = other then some value else attributes.scalar other := by
  simp [insertScalar, scalar, Std.TreeMap.getElem?_insert]

@[simp] theorem alternative_insertScalar (attributes : AttributeSet α) (name other : String)
    (value : α) (id : AlternativeId) :
    (attributes.insertScalar name value).alternative other id = attributes.alternative other id :=
  rfl

@[simp] theorem scalar_insertAlternative (attributes : AttributeSet α) (name other : String)
    (value : α) (id : AlternativeId) :
    (attributes.insertAlternative name id value).scalar other = attributes.scalar other :=
  rfl

/-- A new value replaces the old one of its name and alternative only. -/
@[simp] theorem alternative_insertAlternative (attributes : AttributeSet α) (name other : String)
    (id otherId : AlternativeId) (value : α) :
    (attributes.insertAlternative name id value).alternative other otherId =
      if name = other ∧ id = otherId then some value
      else attributes.alternative other otherId := by
  simp only [insertAlternative, alternative, Std.TreeMap.getElem?_alter,
    Std.LawfulEqCmp.compare_eq_iff_eq]
  by_cases hname : name = other
  · subst hname
    by_cases hid : id = otherId
    · simp [hid]
    · cases h : attributes.alternatives[name]? <;>
        simp [hid, Std.TreeMap.getElem?_insert]
  · simp [hname]

end AttributeSet
end DiscreteChoice
