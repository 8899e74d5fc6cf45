import DiscreteChoice.Identifier

/-!
# Nestings as they are written

A nest has a name, a scale and members, which are alternatives or further nests.
-/

namespace DiscreteChoice

mutual

/-- A nest as it is written. -/
inductive NestConfig (α : Type) where
  | nest (name : String) (scale : α) (members : List (NestMember α))

/-- A member of a nest: an alternative or a nest. -/
inductive NestMember (α : Type) where
  | alternative (id : AlternativeId)
  | nested (nest : NestConfig α)

end

end DiscreteChoice
