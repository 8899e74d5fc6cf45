import Mathlib
import DiscreteChoice.Nest.Tree
import DiscreteChoice.Proofs.Outcome

/-!
# Nestings as trees

What a row of nests stands for: a tree whose leaves are the positions of the alternatives. A written
nesting is such a tree once its ids are replaced by positions, and a row of nests unfolds to at most
one.

Main results:

- Theorem `Nesting.induction`: what holds of a nest whenever it holds of its members holds of every
  nesting.
- Theorem `NestTree.Unfolds.unique`: a member of a nest unfolds to one nesting only.
-/

namespace DiscreteChoice

/-- A nesting whose alternatives are known by their positions. -/
inductive Nesting (α : Type) where
  | alternative (position : Nat)
  | nest (name : String) (scale : α) (members : List (Nesting α))

variable {α : Type}

namespace Nesting

/-- What holds of a nest whenever it holds of its members holds of every nesting. -/
@[elab_as_elim]
theorem induction {motive : Nesting α → Prop}
    (alternative : ∀ position, motive (.alternative position))
    (nest : ∀ name scale members, (∀ member ∈ members, motive member) →
      motive (.nest name scale members)) : (nesting : Nesting α) → motive nesting
  | .alternative position => alternative position
  | .nest name scale members =>
    nest name scale members fun member _ => induction alternative nest member

/-- The positions of the alternatives in a nesting, in order. -/
def positions : Nesting α → List Nat
  | .alternative position => [position]
  | .nest _ _ members => members.flatMap positions

/-- The scales of all nests in a nesting. -/
def scales : Nesting α → List α
  | .alternative _ => []
  | .nest _ scale members => scale :: members.flatMap scales

/-- The scales of all nests in a nesting have a property. -/
def HasScales (property : α → Prop) (nesting : Nesting α) : Prop :=
  ∀ scale ∈ nesting.scales, property scale

/-- The scale of a nest has a property, and so have those in its members. -/
theorem hasScales_nest {property : α → Prop} {name : String} {scale : α}
    {members : List (Nesting α)} : (nest name scale members).HasScales property ↔
      property scale ∧ ∀ member ∈ members, member.HasScales property := by
  simp only [HasScales, scales, List.mem_cons, List.mem_flatMap]
  constructor
  · intro h
    refine ⟨h scale (.inl rfl), ?_⟩
    intro member hmember inner hinner
    exact h inner (.inr ⟨member, hmember, hinner⟩)
  · rintro ⟨hscale, hmembers⟩ inner (rfl | ⟨member, hmember, hinner⟩)
    · exact hscale
    · exact hmembers member hmember inner hinner

variable {name : String} {scale : α} {members : List (Nesting α)} {member : Nesting α}

/-- The positions in a member are positions in its nest. -/
theorem positions_subset (hmember : member ∈ members) :
    member.positions ⊆ (nest name scale members).positions := by
  intro position hposition
  rw [positions]
  exact List.mem_flatMap.mpr ⟨member, hmember, hposition⟩

/-- No alternative is in a member of a nest twice when none is in the nest twice. -/
theorem nodup_of_mem (hnodup : (nest name scale members).positions.Nodup)
    (hmember : member ∈ members) : member.positions.Nodup := by
  rw [positions, List.nodup_flatMap] at hnodup
  exact hnodup.1 member hmember

/-- The other members of a nest have no alternative in common with a member. -/
theorem exists_split (hnodup : (nest name scale members).positions.Nodup)
    (hmember : member ∈ members) :
    ∃ before after, members = before ++ member :: after ∧
      ∀ other ∈ before ++ after, ∀ position ∈ other.positions, position ∉ member.positions := by
  rcases List.append_of_mem hmember with ⟨before, after, rfl⟩
  rw [positions, List.flatMap_append, List.flatMap_cons] at hnodup
  rcases List.nodup_append.mp hnodup with ⟨-, hrest, hbefore⟩
  rcases List.nodup_append.mp hrest with ⟨-, -, hafter⟩
  refine ⟨before, after, rfl, ?_⟩
  intro other hother position hposition hmem
  rcases List.mem_append.mp hother with hother | hother
  · exact hbefore position (List.mem_flatMap.mpr ⟨other, hother, hposition⟩) position
      (List.mem_append_left _ hmem) rfl
  · exact hafter position hmem position (List.mem_flatMap.mpr ⟨other, hother, hposition⟩) rfl

end Nesting

/-! ## Written nestings -/

mutual

/-- All nests of a written nesting, each before those inside it. -/
def NestConfig.nests : NestConfig α → List (NestConfig α)
  | .nest name scale members => .nest name scale members :: members.flatMap NestMember.nests

/-- All nests of a member. -/
def NestMember.nests : NestMember α → List (NestConfig α)
  | .alternative _ => []
  | .nested config => config.nests

end

mutual

/-- The ids that a written nesting names, in order. -/
def NestConfig.ids : NestConfig α → List AlternativeId
  | .nest _ _ members => members.flatMap NestMember.ids

/-- The ids that a member names. -/
def NestMember.ids : NestMember α → List AlternativeId
  | .alternative id => [id]
  | .nested config => config.ids

end

mutual

/-- Replaces the ids of a written nesting by the positions of the alternatives. An id without a
position, which no accepted nesting names, gets the first one. -/
def NestConfig.resolve (positions : Std.TreeMap AlternativeId Nat) : NestConfig α → Nesting α
  | .nest name scale members => .nest name scale (members.map (NestMember.resolve positions))

/-- Replaces the ids of a member. -/
def NestMember.resolve (positions : Std.TreeMap AlternativeId Nat) : NestMember α → Nesting α
  | .alternative id => .alternative (positions.getD id 0)
  | .nested config => config.resolve positions

end

namespace NestConfig

/-- The name of a written nest. -/
def name : NestConfig α → String
  | .nest name _ _ => name

/-- The scale of a written nest. -/
def scale : NestConfig α → α
  | .nest _ scale _ => scale

/-- The members of a written nest. -/
def members : NestConfig α → List (NestMember α)
  | .nest _ _ members => members

end NestConfig

mutual

/-- The positions in a resolved nesting are those of the ids that were named. -/
theorem NestConfig.positions_resolve (positions : Std.TreeMap AlternativeId Nat) :
    (config : NestConfig α) →
      (config.resolve positions).positions = config.ids.map (positions.getD · 0)
  | .nest name scale members => by
    simp only [NestConfig.resolve, Nesting.positions, NestConfig.ids, List.flatMap_map,
      List.map_flatMap]
    exact List.flatMap_congr fun member _ => NestMember.positions_resolve positions member

/-- The positions in a resolved member are those of the ids that were named. -/
theorem NestMember.positions_resolve (positions : Std.TreeMap AlternativeId Nat) :
    (member : NestMember α) →
      (member.resolve positions).positions = member.ids.map (positions.getD · 0)
  | .alternative id => by simp [NestMember.resolve, Nesting.positions, NestMember.ids]
  | .nested config => by
    simpa [NestMember.resolve, NestMember.ids] using NestConfig.positions_resolve positions config

end

/-! ## Rows of nests -/

namespace NestTree

/-- A member of a nest unfolds to a nesting: an alternative to its position, and a nest to its name,
its scale and what its members unfold to. -/
inductive Unfolds (nests : Array (Nest α)) : Child → Nesting α → Prop where
  | alternative {position : Nat} : Unfolds nests (.alternative position) (.alternative position)
  | nest {index : Nat} {nest : Nest α} {members : List (Nesting α)} :
      nests[index]? = some nest → List.Forall₂ (Unfolds nests) nest.children members →
      Unfolds nests (.nest index) (.nest nest.name nest.scale members)

/-- Members that unfold to one nesting each unfold to one list of nestings. -/
theorem unique_of_members {nests : Array (Nest α)} {children : List Child}
    {members members' : List (Nesting α)} (h : List.Forall₂ (Unfolds nests) children members)
    (h' : List.Forall₂ (Unfolds nests) children members')
    (hunique : ∀ member ∈ members, ∀ child other, Unfolds nests child member →
      Unfolds nests child other → member = other) : members = members' := by
  induction h generalizing members' with
  | nil =>
    cases h'
    rfl
  | cons hfirst _ ih =>
    cases h' with
    | cons hfirst' hrest' =>
      rw [hunique _ List.mem_cons_self _ _ hfirst hfirst',
        ih hrest' fun member hmember => hunique member (List.mem_cons_of_mem _ hmember)]

/-- A member of a nest unfolds to one nesting only. -/
theorem Unfolds.unique {nests : Array (Nest α)} {child : Child} {nesting nesting' : Nesting α}
    (h : Unfolds nests child nesting) (h' : Unfolds nests child nesting') : nesting = nesting' := by
  induction nesting using Nesting.induction generalizing child nesting' with
  | alternative position =>
    cases h
    cases h'
    rfl
  | nest name scale members ih =>
    cases h with
    | nest hnest hmembers =>
      cases h' with
      | nest hnest' hmembers' =>
        rcases Option.some.inj (hnest.symm.trans hnest') with rfl
        rw [unique_of_members hmembers hmembers' fun member hmember _ _ h h' =>
          ih member hmember h h']

/-- The scales in a nesting are those of the nests that it is unfolded from. -/
theorem Unfolds.hasScales {property : α → Prop} {nests : Array (Nest α)} {child : Child}
    {nesting : Nesting α} (h : Unfolds nests child nesting)
    (hscales : ∀ nest ∈ nests, property nest.scale) : nesting.HasScales property := by
  induction nesting using Nesting.induction generalizing child with
  | alternative position => simp [Nesting.HasScales, Nesting.scales]
  | nest name scale members ih =>
    cases h with
    | nest hnest hmembers =>
      refine Nesting.hasScales_nest.mpr ⟨hscales _ (Array.mem_of_getElem? hnest), ?_⟩
      intro member hmember
      rcases exists_mem_of_forall₂ hmembers hmember with ⟨inner, -, hinner⟩
      exact ih member hmember hinner

end NestTree
end DiscreteChoice
