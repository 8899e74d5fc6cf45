/-!
# Identifiers

The numbers by which decision makers, alternatives, zones and time periods are known. They are
labels: only equality and order matter.
-/

namespace DiscreteChoice

/-- The number of a decision maker. -/
abbrev DecisionMakerId := UInt64

/-- The number of an alternative. -/
abbrev AlternativeId := UInt32

/-- The number of a zone. -/
abbrev ZoneId := UInt32

/-- The number of a time period. -/
abbrev TimePeriod := UInt32

end DiscreteChoice
