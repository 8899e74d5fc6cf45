import DiscreteChoice.Data.Skim
import DiscreteChoice.Data.Zones

/-!
# Model data

The data that all decisions of a model share.
-/

namespace DiscreteChoice

/-- The matrices and the zone data that all decisions share. -/
structure ModelData (α : Type) where
  matrices : SkimSet α
  zones : ZoneData α

/-- No data. -/
def ModelData.empty {α : Type} : ModelData α :=
  ⟨.empty, .empty⟩

end DiscreteChoice
