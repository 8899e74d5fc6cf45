import DiscreteChoice.Utility.Trace

/-!
# Log entries

What is logged while decisions are evaluated.
-/

namespace DiscreteChoice

/-- What deserves attention although the work goes on. -/
inductive Warning (α : Type) where
  | missingVariable (id : DecisionMakerId) (name source : String)
  | undefinedAvailability (alternative : String) (id : DecisionMakerId)
  | excludedUtility (alternative : String) (utility : α) (id : DecisionMakerId)
  | renormalizing (id : DecisionMakerId) (total : α)
  | decisionFailed (id : DecisionMakerId) (reason : String)
  | unrecordedFailures (count : Nat)
deriving Repr

/-- What is logged. -/
inductive LogEntry (α : Type) where
  | warning (w : Warning α)
  | trace (t : UtilityTrace α)
deriving Repr

variable {α : Type} [NumberText α]

/-- The text of a warning. -/
def Warning.message : Warning α → String
  | missingVariable id name source =>
    s!"decision maker {id.toNat} is missing variable '{name}' used in `{source}`"
  | undefinedAvailability alternative id =>
    s!"availability of alternative '{alternative}' is undefined for decision maker {id.toNat}, " ++
      "treating as unavailable"
  | excludedUtility alternative utility id =>
    s!"utility of alternative '{alternative}' is {NumberText.plain utility} " ++
      s!"for decision maker {id.toNat}, treating as unavailable"
  | renormalizing id total =>
    s!"probabilities for decision maker {id.toNat} sum to {NumberText.plain total}, renormalizing"
  | decisionFailed id reason => s!"decision maker {id.toNat} failed: {reason}"
  | unrecordedFailures count =>
    s!"{count} decision makers failed, set failures_file to record them"

/-- The lines of an entry, each with its level in front. -/
def LogEntry.lines : LogEntry α → List String
  | warning w => ["WARN " ++ w.message]
  | trace t => t.lines.map ("INFO " ++ ·)

end DiscreteChoice
