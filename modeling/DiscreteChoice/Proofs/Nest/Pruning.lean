import DiscreteChoice.Proofs.Nest.Layout

/-!
# Pruned nestings

A nesting is pruned by dropping alternatives, and with them the nests in which nothing is left. What is
left can be arranged as a row of nests again, each nest in front of those inside it, in which the nests
have other places than before.

Main results:

- Theorem `Nesting.prune_eq_none_iff`: a nest is dropped when nothing in it is kept.
- Theorem `Nesting.positions_of_prune`: what is left are the alternatives that are kept.
- Theorem `Nesting.arranges_layOut`: every nesting can be arranged.
- Theorem `NestTree.LaysOut.exists_isPruned`: every tree of all alternatives can be pruned.
-/

namespace DiscreteChoice

variable {α : Type}

namespace Nesting

/-! ## Pruning -/

/-- Drops the alternatives that are not kept, and the nests in which nothing is left. -/
def prune (keep : Nat → Bool) : Nesting α → Option (Nesting α)
  | .alternative position => if keep position then some (.alternative position) else none
  | .nest name scale members =>
    let left := members.filterMap (prune keep)
    if left.isEmpty then none else some (.nest name scale left)

variable {keep : Nat → Bool} {nesting pruned : Nesting α} {name : String} {scale : α}
  {members : List (Nesting α)}

/-- A nest is dropped when its members are, and has the members that are left otherwise. -/
theorem prune_nest_eq_some_iff : (nest name scale members).prune keep = some pruned ↔
    members.filterMap (prune keep) ≠ [] ∧
      nest name scale (members.filterMap (prune keep)) = pruned := by
  rw [prune]
  simp [List.isEmpty_iff]

/-- A nest is dropped when nothing in it is kept. -/
theorem prune_eq_none_iff :
    nesting.prune keep = none ↔ ∀ position ∈ nesting.positions, keep position = false := by
  induction nesting using Nesting.induction with
  | alternative position => simp [prune, positions]
  | nest name scale members ih =>
    have hmembers : (nest name scale members).prune keep = none ↔
        ∀ member ∈ members, member.prune keep = none := by
      rw [prune]
      simp [List.isEmpty_iff, List.filterMap_eq_nil_iff]
    rw [hmembers, positions]
    constructor
    · intro h position hposition
      rcases List.mem_flatMap.mp hposition with ⟨member, hmember, hposition⟩
      exact (ih member hmember).mp (h member hmember) position hposition
    · intro h member hmember
      refine (ih member hmember).mpr fun position hposition => h position ?_
      exact List.mem_flatMap.mpr ⟨member, hmember, hposition⟩

/-- The alternatives in what is left of a list of members are those that are kept. -/
theorem flatMap_positions_filterMap_prune
    (ih : ∀ member ∈ members, ∀ pruned, member.prune keep = some pruned →
      pruned.positions = member.positions.filter keep) :
    (members.filterMap (prune keep)).flatMap positions =
      (members.flatMap positions).filter keep := by
  induction members with
  | nil => rfl
  | cons member members ihRest =>
    have hrest := ihRest fun other hother => ih other (List.mem_cons_of_mem _ hother)
    rw [List.flatMap_cons, List.filter_append, ← hrest]
    cases hmember : member.prune keep with
    | none =>
      have hdropped : member.positions.filter keep = [] := by
        rw [List.filter_eq_nil_iff]
        exact fun position hposition => by
          simp [prune_eq_none_iff.mp hmember position hposition]
      rw [List.filterMap_cons_none hmember, hdropped, List.nil_append]
    | some pruned =>
      rw [List.filterMap_cons_some hmember, List.flatMap_cons,
        ih member List.mem_cons_self pruned hmember]

/-- What is left are the alternatives that are kept, in the same order. -/
theorem positions_of_prune (h : nesting.prune keep = some pruned) :
    pruned.positions = nesting.positions.filter keep := by
  induction nesting using Nesting.induction generalizing pruned with
  | alternative position =>
    rw [prune] at h
    split at h
    · rename_i hkeep
      rcases Option.some.inj h with rfl
      simp [positions, hkeep]
    · cases h
  | nest name scale members ih =>
    rcases prune_nest_eq_some_iff.mp h with ⟨-, rfl⟩
    rw [positions, positions,
      flatMap_positions_filterMap_prune fun member hmember _ hpruned => ih member hmember hpruned]

/-- The scales that are left are scales of the nesting. -/
theorem HasScales.prune {property : α → Prop} (hscales : nesting.HasScales property)
    (h : nesting.prune keep = some pruned) : pruned.HasScales property := by
  induction nesting using Nesting.induction generalizing pruned with
  | alternative position =>
    rw [Nesting.prune] at h
    split at h
    · rcases Option.some.inj h with rfl
      exact hscales
    · cases h
  | nest name scale members ih =>
    rcases prune_nest_eq_some_iff.mp h with ⟨-, rfl⟩
    rcases hasScales_nest.mp hscales with ⟨hscale, hmembers⟩
    refine hasScales_nest.mpr ⟨hscale, fun member hmember => ?_⟩
    rcases List.mem_filterMap.mp hmember with ⟨other, hother, hleft⟩
    exact ih other hother (hmembers other hother) hleft

/-! ## Arranging -/

mutual

/-- A nesting as a member of a nest, with the nests that it brings along. Their places begin at the
given one. -/
def lay (start : Nat) : Nesting α → Child × List (Nest α)
  | .alternative position => (.alternative position, [])
  | .nest name scale members =>
    let inner := layAll (start + 1) members
    (.nest start, ⟨name, scale, inner.1⟩ :: inner.2)

/-- Nestings as the members of a nest, with the nests that they bring along one after the other. -/
def layAll (start : Nat) : List (Nesting α) → List Child × List (Nest α)
  | [] => ([], [])
  | member :: members =>
    let first := lay start member
    let rest := layAll (start + first.2.length) members
    (first.1 :: rest.1, first.2 ++ rest.2)

end

/-- The row of nests that a nesting brings along. -/
def layOut (nesting : Nesting α) : NestTree α :=
  ⟨(nesting.lay 0).2.toArray⟩

variable [Numeric α]

/-- The scale is one that a nest may have. -/
def IsScale (scale : α) : Prop :=
  (Numeric.lt 0 scale && Numeric.le scale 1) = true

open NestTree

/-- Nests whose places begin at the given one are well-formed, and the members that bring them along
unfold to the given nestings: each alternative in these and each of the nests is listed once. -/
structure Laid (start : Nat) (nests : List (Nest α)) (children : List Child)
    (members : List (Nesting α)) : Prop where
  formed {i : Nat} {nest : Nest α} : nests[i]? = some nest →
    nest.IsFormed (start + i) (start + nests.length)
  later {inner : Nat} : .nest inner ∈ children → start ≤ inner ∧ inner < start + nests.length
  unfolds (all : Array (Nest α)) : (∀ i < nests.length, all[start + i]? = nests[i]?) →
    List.Forall₂ (Unfolds all) children members
  counts (child : Child) : (nests.flatMap (·.children)).count child + children.count child =
    ((members.flatMap positions).map Child.alternative).count child +
      ((List.range' start nests.length).map Child.nest).count child

/-- No members bring nothing along. -/
theorem Laid.nil (start : Nat) : Laid start ([] : List (Nest α)) [] [] where
  formed h := by cases h
  later h := by cases h
  unfolds _ _ := .nil
  counts child := by simp

/-- An alternative brings nothing along. -/
theorem Laid.alternative (start position : Nat) :
    Laid start ([] : List (Nest α)) [.alternative position] [.alternative position] where
  formed h := by cases h
  later h := by simp at h
  unfolds _ _ := .cons .alternative .nil
  counts child := by simp [positions]

/-- The nests of two members stand one after the other. -/
theorem Laid.cons {start : Nat} {nests nests' : List (Nest α)} {child : Child}
    {children : List Child} {member : Nesting α} {members : List (Nesting α)}
    (hfirst : Laid start nests [child] [member])
    (hrest : Laid (start + nests.length) nests' children members) :
    Laid start (nests ++ nests') (child :: children) (member :: members) where
  formed {i nest} h := by
    rw [List.length_append]
    by_cases hi : i < nests.length
    · rw [List.getElem?_append_left hi] at h
      exact (hfirst.formed h).mono (by omega)
    · rw [List.getElem?_append_right (by omega)] at h
      have hnest := hrest.formed h
      have hplace : start + nests.length + (i - nests.length) = start + i := by omega
      rwa [hplace, Nat.add_assoc] at hnest
  later {inner} h := by
    rw [List.length_append]
    rcases List.mem_cons.mp h with rfl | h
    · have := hfirst.later List.mem_cons_self
      omega
    · have := hrest.later h
      omega
  unfolds all hall := by
    have hfirst' := hfirst.unfolds all fun i hi => by
      rw [hall i (by simp; omega), List.getElem?_append_left hi]
    have hrest' := hrest.unfolds all fun i hi => by
      rw [Nat.add_assoc, hall _ (by simp; omega), List.getElem?_append_right (by omega),
        Nat.add_sub_cancel_left]
    cases hfirst' with
    | cons hmember _ => exact .cons hmember hrest'
  counts other := by
    have hfirst' := hfirst.counts other
    have hrest' := hrest.counts other
    rw [List.length_append, ← List.range'_append_1]
    simp only [List.flatMap_append, List.map_append, List.count_append, List.flatMap_cons,
      List.flatMap_nil, List.append_nil, List.count_cons, List.count_nil] at *
    omega

/-- A nest stands in front of what its members bring along. -/
theorem Laid.nest {start : Nat} {nests : List (Nest α)} {children : List Child}
    {members : List (Nesting α)} (name : String) {scale : α} (hscale : IsScale scale)
    (h : Laid (start + 1) nests children members) :
    Laid start (⟨name, scale, children⟩ :: nests) [.nest start] [.nest name scale members] where
  formed {i nest} hnest := by
    rw [List.length_cons]
    cases i with
    | zero =>
      rcases Option.some.inj hnest with rfl
      refine ⟨hscale, fun inner hinner => ?_⟩
      have := h.later hinner
      omega
    | succ i =>
      have hinner := h.formed hnest
      have hplace : start + 1 + i = start + (i + 1) := by omega
      have hend : start + 1 + nests.length = start + (nests.length + 1) := by omega
      rwa [hplace, hend] at hinner
  later {inner} hinner := by
    obtain rfl : inner = start := by simpa using hinner
    simp
  unfolds all hall := by
    have hself : all[start]? = some ⟨name, scale, children⟩ := hall 0 (by simp)
    refine .cons (.nest hself (h.unfolds all fun i hi => ?_)) .nil
    have hinner := hall (i + 1) (by simpa using hi)
    rwa [List.getElem?_cons_succ, Nat.add_comm i, ← Nat.add_assoc] at hinner
  counts child := by
    have hcounts := h.counts child
    rw [List.length_cons, List.range'_succ]
    simp only [List.flatMap_cons, List.flatMap_nil, List.append_nil, List.map_cons,
      List.count_append, List.count_cons, List.count_nil, positions] at *
    omega

mutual

/-- A nesting is laid as a member. -/
theorem laid_lay (start : Nat) : (nesting : Nesting α) → nesting.HasScales IsScale →
    Laid start (lay start nesting).2 [(lay start nesting).1] [nesting]
  | .alternative position, _ => by
    rw [lay]
    exact .alternative start position
  | .nest name scale members, hscales => by
    rcases hasScales_nest.mp hscales with ⟨hscale, hmembers⟩
    rw [lay]
    exact .nest name hscale (laid_layAll (start + 1) members hmembers)

/-- Nestings are laid as members. -/
theorem laid_layAll (start : Nat) : (members : List (Nesting α)) →
    (∀ member ∈ members, member.HasScales IsScale) →
    Laid start (layAll start members).2 (layAll start members).1 members
  | [], _ => by
    rw [layAll]
    exact .nil start
  | member :: members, hscales => by
    rw [layAll]
    exact (laid_lay start member (hscales member List.mem_cons_self)).cons
      (laid_layAll _ members fun other hother => hscales other (List.mem_cons_of_mem _ hother))

end

/-- A nest with scales that nests may have can be arranged, if no alternative is in it twice. -/
theorem arranges_layOut (hscales : (nest name scale members).HasScales IsScale)
    (hnodup : (nest name scale members).positions.Nodup) :
    (nest name scale members).layOut.Arranges (nest name scale members) := by
  have hlaid := laid_lay 0 _ hscales
  have hchild : ((nest name scale members).lay 0).1 = .nest 0 := by rw [lay]
  have hsize : ((nest name scale members).lay 0).2.length = (nest name scale members).layOut.size := by
    simp [layOut, size]
  have hpos : 0 < (nest name scale members).layOut.size := by
    rw [← hsize, lay]
    simp
  rw [hchild] at hlaid
  refine ⟨⟨hpos, ?_, fun hposition => absurd hposition (Nat.not_lt_zero _)⟩, ?_, hnodup, ?_⟩
  · intro index nest hnest
    have hformed := hlaid.formed (by simpa [layOut, nest?] using hnest)
    rwa [hsize, Nat.zero_add, Nat.zero_add] at hformed
  · have hunfolds := hlaid.unfolds (nest name scale members).layOut.nests fun i _ => by
      simp [layOut]
    cases hunfolds with
    | cons hroot _ => exact hroot
  · rw [List.perm_iff_count]
    intro child
    have hcounts := hlaid.counts child
    have hrange : List.range' 0 (nest name scale members).layOut.size =
        0 :: List.range' 1 ((nest name scale members).layOut.size - 1) := by
      conv_lhs => rw [← Nat.sub_add_cancel hpos, List.range'_succ]
    rw [hsize, hrange] at hcounts
    have hlisted : allChildren (nest name scale members).layOut.nests =
        ((nest name scale members).lay 0).2.flatMap (·.children) := by
      simp [allChildren, layOut]
    rw [hlisted]
    simp only [List.flatMap_cons, List.flatMap_nil, List.append_nil, List.map_cons,
      List.count_cons, List.count_nil, List.count_append] at *
    omega

end Nesting

/-! ## Pruned trees -/

namespace NestTree

variable [Numeric α] {tree : NestTree α} {nesting : Nesting α} {count : Nat} {keep : Nat → Bool}

/-- A tree is what is left of another one when the alternatives that are not kept are taken out of their
nests, and nests in which nothing is left out of theirs. The nests may stand in any places in which each
comes before those inside it. -/
def IsPruned (tree : NestTree α) (keep : Nat → Bool) (pruned : NestTree α) : Prop :=
  ∃ nesting left, Unfolds tree.nests (.nest 0) nesting ∧ nesting.prune keep = some left ∧
    pruned.Arranges left

/-- Every tree of all alternatives can be pruned, if one of them is kept. -/
theorem LaysOut.exists_isPruned (h : tree.LaysOut nesting count)
    (hkeep : ∃ position < count, keep position = true) : ∃ pruned, tree.IsPruned keep pruned := by
  have hsome : nesting.prune keep ≠ none := by
    rw [ne_eq, Nesting.prune_eq_none_iff]
    intro hnone
    rcases hkeep with ⟨position, hbound, hposition⟩
    rw [hnone position (h.mem_positions.mpr hbound)] at hposition
    cases hposition
  rcases Option.ne_none_iff_exists'.mp hsome with ⟨left, hleft⟩
  have hscales : nesting.HasScales Nesting.IsScale := h.hasScales fun _ hscale => hscale
  have hnodup : left.positions.Nodup := by
    rw [Nesting.positions_of_prune hleft]
    exact h.nodup_positions.filter _
  cases h.unfolds with
  | nest hroot hmembers =>
    rcases Nesting.prune_nest_eq_some_iff.mp hleft with ⟨-, rfl⟩
    exact ⟨_, _, _, h.unfolds, hleft, Nesting.arranges_layOut (hscales.prune hleft) hnodup⟩

end NestTree
end DiscreteChoice
