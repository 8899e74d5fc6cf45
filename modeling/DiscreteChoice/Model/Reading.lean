import DiscreteChoice.Format.Decode
import DiscreteChoice.Model.Config

/-!
# Reading models

Model specifications from documents.
-/

namespace DiscreteChoice

open Decode

/-- A factor: a number or the name of a constant. -/
def Coefficient.ofDocument? (d : Document) : Option (Coefficient Float) :=
  ((number? d).map .number).or ((text? d).map .named)

/-- A term of a utility. -/
def TermConfig.ofDocument? (dialect : Dialect) (d : Document) : Option (TermConfig Float) := do
  match ← fields? dialect ["description", "expression", "coefficient"] d with
  | [description, expression, coefficient] =>
    return {
      description := ← optional? text? description
      expression := ← required? text? expression
      coefficient := ← withDefault? (.number 1) Coefficient.ofDocument? coefficient }
  | _ => none

/-- An alternative. -/
def AlternativeConfig.ofDocument? (dialect : Dialect) (d : Document) :
    Option (AlternativeConfig Float) := do
  match ← fields? dialect ["id", "name", "utility", "terms", "availability", "zone"] d with
  | [id, name, utility, terms, availability, zone] =>
    return {
      id := ← required? word32? id
      name := ← required? text? name
      utility := ← optional? text? utility
      terms := ← withDefault? [] (list? (TermConfig.ofDocument? dialect)) terms
      availability := ← optional? text? availability
      zone := ← optional? word32? zone }
  | _ => none

/-- A nest, in a document with at most the given height. A member is an alternative, or a nest whose
arrays have no surplus items, whatever the format. -/
def NestConfig.decode? : Nat → Dialect → Document → Option (NestConfig Float)
  | 0, _, _ => none
  | height + 1, dialect, d => do
    match ← fields? dialect ["name", "theta", "children"] d with
    | [name, scale, members] =>
      let name ← required? text? name
      let scale ← withDefault? 1 number? scale
      let member? (d : Document) : Option (NestMember Float) :=
        if isKeepable d then
          ((word32? d).map .alternative).or ((decode? height .json d).map .nested)
        else none
      let members ← required? (list? member?) members
      return .nest name scale members
    | _ => none

/-- A nest. -/
def NestConfig.ofDocument? (dialect : Dialect) (d : Document) : Option (NestConfig Float) :=
  decode? (d.height + 1) dialect d

/-- A model specification. -/
def ModelConfig.ofDocument? (dialect : Dialect) (d : Document) : Option (ModelConfig Float) := do
  match ← fields? dialect ["name", "variables", "constants", "alternatives", "nests"] d with
  | [name, scopes, constants, alternatives, nests] =>
    return {
      name := ← required? text? name
      scopes := ← withDefault? ∅ (map? some (word? dialect Scope.ofName?)) scopes
      constants := ← withDefault? ∅ (map? some number?) constants
      alternatives := ← required? (list? (AlternativeConfig.ofDocument? dialect)) alternatives
      nests := ← optional? (NestConfig.ofDocument? dialect) nests }
  | _ => none

end DiscreteChoice
