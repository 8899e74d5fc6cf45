import DiscreteChoice.Choice.Error
import DiscreteChoice.Logit.LogSumExp
import DiscreteChoice.Nest.Tree
import DiscreteChoice.Utility.Vector

/-!
# The nested logit model

The composite utility of a nest with scale `s` is the logarithm of the sum of the exponentials of
`s` times its members, divided by `s`. It is computed from the back of the tree, so that the
composites of the nests inside a nest are known. The probability of an alternative is the product of
the probabilities of the branches that lead to it, which are computed from the front.

Main results:

- Theorem `size_composites`: there is one composite utility per nest.
-/

namespace DiscreteChoice
namespace Logit

open Numeric

variable {α : Type} [Numeric α]

/-- The value of a member of a nest: the utility of an available alternative, or the composite
utility of a nest with an available alternative in it. -/
def childValue? (v : UtilityVector α) (composites : Array (Option α)) : Child → Option α
  | .alternative position => v.utility? position
  | .nest index => composites[index]?.join

/-- The members of a nest that have a value, with their values. -/
def memberValues (v : UtilityVector α) (composites : Array (Option α)) (children : List Child) :
    List (Child × α) :=
  children.filterMap fun child => (childValue? v composites child).map fun value => (child, value)

/-- The values of the members of a nest, multiplied by its scale. -/
def scaledValues (nest : Nest α) (members : List (Child × α)) : List α :=
  members.map fun member => nest.scale * member.2

/-- The composite utility of a nest, none when none of its members has a value. -/
def composite? (v : UtilityVector α) (composites : Array (Option α)) (nest : Nest α) :
    Option α :=
  (logSumExp? (scaledValues nest (memberValues v composites nest.children))).map (· / nest.scale)

/-- The composite utilities of all nests. -/
def composites (tree : NestTree α) (v : UtilityVector α) : Array (Option α) :=
  tree.nests.toList.zipIdx.foldr
    (fun entry found => found.setIfInBounds entry.2 (composite? v found entry.1))
    (Array.replicate tree.size none)

/-- The logsum at the root. -/
def nestedLogsum (tree : NestTree α) (v : UtilityVector α) : Except (ChoiceError α) α :=
  match (composites tree v)[0]?.join with
  | some logsum => .ok logsum
  | none => .error (.nothingAvailable v.id)

/-- The probabilities with which alternatives and nests are reached. -/
structure Reach (α : Type) where
  alternatives : Array α
  nests : Array α
deriving Repr

/-- Sets the probability of a member of a nest. -/
def Reach.assign (reach : Reach α) (child : Child) (probability : α) : Reach α :=
  match child with
  | .alternative position =>
    { reach with alternatives := reach.alternatives.setIfInBounds position probability }
  | .nest index => { reach with nests := reach.nests.setIfInBounds index probability }

/-- Divides the probability of a nest among its members. A nest that is not reached, or in which
nothing is available, gives nothing to them. -/
def Reach.divide (v : UtilityVector α) (composites : Array (Option α)) (reach : Reach α)
    (index : Nat) (nest : Nest α) : Reach α :=
  let own := reach.nests[index]?.getD 0
  if eq own 0 then reach
  else
    let members := memberValues v composites nest.children
    match logSumExp? (scaledValues nest members) with
    | none => reach
    | some denominator =>
      members.foldl (fun reach member =>
        reach.assign member.1 (own * exp (nest.scale * member.2 - denominator))) reach

/-- Nothing is reached but the root. -/
def Reach.atRoot (tree : NestTree α) (v : UtilityVector α) : Reach α where
  alternatives := Array.replicate v.size 0
  nests := (Array.replicate tree.size 0).setIfInBounds 0 1

/-- The probabilities of all alternatives, zero for the unavailable ones, and the logsum at the
root. -/
def nestedProbabilities (tree : NestTree α) (v : UtilityVector α) :
    Except (ChoiceError α) (Array α × α) := do
  let logsum ← nestedLogsum tree v
  let composites := composites tree v
  let reach := tree.nests.toList.zipIdx.foldl
    (fun reach entry => reach.divide v composites entry.2 entry.1) (Reach.atRoot tree v)
  return (reach.alternatives, logsum)

/-- There is one composite utility per nest. -/
@[simp] theorem size_composites (tree : NestTree α) (v : UtilityVector α) :
    (composites tree v).size = tree.size := by
  have keep (entries : List (Nest α × Nat)) (start : Array (Option α)) :
      (entries.foldr
        (fun entry found => found.setIfInBounds entry.2 (composite? v found entry.1)) start).size =
        start.size := by
    induction entries with
    | nil => rfl
    | cons entry entries ih => simp [ih]
  simp [composites, keep]

end Logit
end DiscreteChoice
