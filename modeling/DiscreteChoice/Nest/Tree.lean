import DiscreteChoice.CompileError
import DiscreteChoice.Nest.Config
import Std.Data.TreeMap
import Std.Data.TreeSet

/-!
# Nest trees

The nesting of a model as a row of nests. The root comes first, and every nest before the nests
inside it, so that a walk from the back meets each nest after all of its members.
-/

namespace DiscreteChoice

/-- A member of a nest: an alternative by its position in the model, or a nest by its index in the
tree. -/
inductive Child where
  | alternative (position : Nat)
  | nest (index : Nat)
deriving Repr, DecidableEq

/-- A nest with its scale and its members. -/
structure Nest (α : Type) where
  name : String
  scale : α
  children : List Child
deriving Repr

/-- The nests of a model, the root first. -/
structure NestTree (α : Type) where
  nests : Array (Nest α)
deriving Repr

namespace NestTree

variable {α : Type}

/-- The nest at an index. -/
def nest? (tree : NestTree α) (index : Nat) : Option (Nest α) :=
  tree.nests[index]?

/-- How many nests there are. -/
def size (tree : NestTree α) : Nat :=
  tree.nests.size

variable [Numeric α]

/-- The tree with one nest of scale one that holds all alternatives. -/
def flat (alternatives : Nat) : NestTree α :=
  ⟨#[⟨"root", 1, (List.range alternatives).map .alternative⟩]⟩

/-- Whether a tree is a single nest of scale one. -/
def isFlat (tree : NestTree α) : Bool :=
  match tree.nests.toList with
  | [root] => Numeric.eq root.scale 1
  | _ => false

/-! ## Building a tree -/

/-- The nests of a tree so far, with the names and the positions that are taken. -/
structure Builder (α : Type) where
  nests : Array (Nest α)
  names : Std.TreeSet String
  placed : Std.TreeSet Nat

namespace Builder

/-- The builder before the first nest. -/
def empty : Builder α :=
  ⟨#[], ∅, ∅⟩

/-- Adds a nest without its members, and takes its name. -/
def openNest (b : Builder α) (name : String) (scale : α) : Builder α :=
  { b with nests := b.nests.push ⟨name, scale, []⟩, names := b.names.insert name }

/-- Gives the nest at an index its members. -/
def closeNest (b : Builder α) (index : Nat) (name : String) (scale : α) (children : List Child) :
    Builder α :=
  { b with nests := b.nests.setIfInBounds index ⟨name, scale, children⟩ }

/-- Places the alternative of an id in the nest of a name. -/
def place (positions : Std.TreeMap AlternativeId Nat) (b : Builder α) (nest : String)
    (id : AlternativeId) : Except (CompileError α) (Child × Builder α) :=
  match positions[id]? with
  | none => .error (.invalidModel (.unknownAlternative nest id))
  | some position =>
    if b.placed.contains position then .error (.invalidModel (.placedTwice id))
    else .ok (.alternative position, { b with placed := b.placed.insert position })

mutual

/-- Adds a nest with everything in it, and answers its index. -/
def addNest (positions : Std.TreeMap AlternativeId Nat) (b : Builder α) :
    NestConfig α → Except (CompileError α) (Nat × Builder α)
  | .nest name scale members =>
    if !(Numeric.lt 0 scale && Numeric.le scale 1) then .error (.nestScale name scale)
    else if b.names.contains name then .error (.invalidModel (.repeatedNest name))
    else if members.isEmpty then .error (.invalidModel (.emptyNest name))
    else do
      let index := b.nests.size
      let (children, b) ← addMembers positions (b.openNest name scale) name members
      return (index, b.closeNest index name scale children)

/-- Adds a member of the nest of a name. -/
def addMember (positions : Std.TreeMap AlternativeId Nat) (b : Builder α) (nest : String) :
    NestMember α → Except (CompileError α) (Child × Builder α)
  | .alternative id => place positions b nest id
  | .nested config => do
    let (index, b) ← addNest positions b config
    return (.nest index, b)

/-- Adds the members of the nest of a name in order. -/
def addMembers (positions : Std.TreeMap AlternativeId Nat) (b : Builder α) (nest : String) :
    List (NestMember α) → Except (CompileError α) (List Child × Builder α)
  | [] => .ok ([], b)
  | member :: members => do
    let (child, b) ← addMember positions b nest member
    let (children, b) ← addMembers positions b nest members
    return (child :: children, b)

end

end Builder

/-- Builds the tree of a nesting. The positions of all alternatives are given by id, and each
alternative has to be a member of exactly one nest. -/
def ofConfig (config : NestConfig α) (positions : Std.TreeMap AlternativeId Nat) :
    Except (CompileError α) (NestTree α) := do
  let (_, b) ← Builder.addNest positions .empty config
  let unplaced := positions.toList.filterMap fun entry =>
    if b.placed.contains entry.2 then none else some entry.1
  if unplaced.isEmpty then return ⟨b.nests⟩
  else .error (.invalidModel (.unplaced unplaced))

end NestTree
end DiscreteChoice
