import DiscreteChoice.Choice.Chooser
import DiscreteChoice.Format.Json

/-!
# Outcomes as documents

An outcome with everything that is known about it. The trace is left out when there is none.
-/

namespace DiscreteChoice

namespace Document

/-- A document, or null when there is none. -/
def ofOption : Option Document → Document
  | some d => d
  | none => null

end Document

open Document (ofOption)

/-- A term of a utility. -/
def Contribution.document (c : Contribution Float) : Document :=
  .table [
    ("description", ofOption (c.description.map .text)),
    ("expression", .text c.expression),
    ("value", .float c.value),
    ("coefficient", .float c.coefficient),
    ("contribution", .float c.amount)]

/-- An alternative of a trace. -/
def Assessment.document (a : Assessment Float) : Document :=
  .table [
    ("id", .integer a.id.toNat),
    ("name", .text a.name),
    ("available", .bool a.isAvailable),
    ("utility", ofOption (a.utility.map .float)),
    ("terms", .array (a.terms.map Contribution.document))]

/-- The utilities of a decision. -/
def UtilityTrace.document (trace : UtilityTrace Float) : Document :=
  .table [
    ("decision_maker_id", .integer trace.id.toNat),
    ("model", .text trace.model),
    ("alternatives", .array (trace.alternatives.map Assessment.document))]

/-- An outcome. -/
def Outcome.document (outcome : Outcome Float) : Document :=
  .table ([
    ("decision_maker_id", .integer outcome.id.toNat),
    ("chosen", ofOption (outcome.chosen.map fun id => .integer id.toNat)),
    ("probabilities", ofOption (outcome.probabilities.map fun ps =>
      .array (ps.toList.map .float))),
    ("logsum", ofOption (outcome.logsum.map .float))] ++
    (outcome.trace.map fun trace => ("trace", trace.document)).toList)

end DiscreteChoice
