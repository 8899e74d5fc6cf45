import DiscreteChoice.Proofs.Nest.Acceptance
import DiscreteChoice.Proofs.Nest.Formed
import DiscreteChoice.Proofs.Numeric.DoubleOrder

/-!
# The layout of nestings

An accepted nesting is laid out as a row of nests from which it can be read again: what the first nest
unfolds to is the nesting with its ids replaced by positions, and every position and every other nest is
listed as a member once, by a nest in front of it.

Main results:

- Theorem `NestTree.Builder.Builds.addNest`: adding a nest adds what it stands for.
- Theorem `NestTree.IsBuilt.laysOut`: every tree that can be built lays out a nesting.
- Theorems `Model.isBuilt_nests` and `Model.isFormed_nests`: the nesting of every compiled model can be
  built, and is well-formed.
- Theorem `NestTree.ofConfig_valid_layout`: exactly the valid nestings are accepted, and their trees
  unfold to them.
-/

namespace DiscreteChoice

variable {α : Type}

namespace NestTree

/-- Everything that is listed as a member of a nest, in order. -/
def allChildren (nests : Array (Nest α)) : List Child :=
  nests.toList.flatMap (·.children)

variable [Numeric α]

namespace Builder

variable {positions : Std.TreeMap AlternativeId Nat} {b b' b'' : Builder α}

omit [Numeric α] in
/-- How often something is listed changes with the members of a nest. -/
theorem count_allChildren_setIfInBounds {nests : Array (Nest α)} {index : Nat} {old : Nest α}
    (new : Nest α) (h : nests[index]? = some old) (child : Child) :
    (allChildren (nests.setIfInBounds index new)).count child + old.children.count child =
      (allChildren nests).count child + new.children.count child := by
  rcases nests with ⟨nests⟩
  simp only [allChildren, List.setIfInBounds_toArray, List.getElem?_toArray] at h ⊢
  induction nests generalizing index with
  | nil => cases h
  | cons first nests ih =>
    cases index with
    | zero =>
      obtain rfl : first = old := Option.some.inj h
      simp only [List.set_cons_zero, List.flatMap_cons, List.count_append]
      omega
    | succ index =>
      have hrest := ih h
      simp only [List.set_cons_succ, List.flatMap_cons, List.count_append]
      omega

/-- The members are added behind the nests of a builder: whatever keeps what was added, they unfold to
the given nestings, and each position in these and each added nest is listed once more, if the members
are. -/
structure Builds (b b' : Builder α) (children : List Child) (members : List (Nesting α)) :
    Prop extends Adds b b' children where
  unfolds {nests : Array (Nest α)} :
    (∀ index, b.nests.size ≤ index → index < b'.nests.size → nests[index]? = b'.nests[index]?) →
    List.Forall₂ (Unfolds nests) children members
  counts (child : Child) : (allChildren b'.nests).count child + children.count child =
    (allChildren b.nests).count child +
      ((members.flatMap Nesting.positions).map Child.alternative).count child +
      ((List.range' b.nests.size (b'.nests.size - b.nests.size)).map Child.nest).count child

/-- Adding no members changes nothing. -/
theorem Builds.nil (b : Builder α) : Builds b b [] [] where
  toAdds := .nil b
  unfolds _ := .nil
  counts child := by simp

/-- Adding members one after the other. -/
theorem Builds.cons {child : Child} {children : List Child} {member : Nesting α}
    {members : List (Nesting α)} (hfirst : Builds b b' [child] [member])
    (hrest : Builds b' b'' children members) :
    Builds b b'' (child :: children) (member :: members) where
  toAdds := hfirst.toAdds.cons hrest.toAdds
  unfolds {nests} hnests := by
    have hle := hfirst.size_le
    have hle' := hrest.size_le
    have hfirst' := hfirst.unfolds fun index hindex hbound => by
      rw [hnests index hindex (by omega), hrest.kept hbound]
    have hrest' := hrest.unfolds fun index hindex hbound => hnests index (by omega) hbound
    cases hfirst' with
    | cons hmember _ => exact .cons hmember hrest'
  counts other := by
    have hfirst' := hfirst.counts other
    have hrest' := hrest.counts other
    have hsplit : List.range' b.nests.size (b''.nests.size - b.nests.size) =
        List.range' b.nests.size (b'.nests.size - b.nests.size) ++
          List.range' b'.nests.size (b''.nests.size - b'.nests.size) := by
      have hle := hfirst.size_le
      have hle' := hrest.size_le
      have happend := List.range'_append_1 (s := b.nests.size)
        (m := b'.nests.size - b.nests.size) (n := b''.nests.size - b'.nests.size)
      rw [Nat.add_sub_cancel' hle] at happend
      rw [happend]
      congr 1
      omega
    rw [hsplit]
    simp only [List.map_append, List.count_append, List.flatMap_cons, List.flatMap_nil,
      List.append_nil, List.count_cons, List.count_nil] at *
    omega

/-- Placing an alternative adds it. -/
theorem Builds.place {name : String} {id : AlternativeId} {child : Child}
    (h : place positions b name id = .ok (child, b')) :
    Builds b b' [child] [.alternative (positions.getD id 0)] := by
  have hadds := Adds.place h
  unfold Builder.place at h
  split at h
  · simp at h
  · rename_i position hposition
    split at h
    · simp at h
    · rcases Prod.mk.inj (Except.ok.inj h) with ⟨rfl, rfl⟩
      have hget : positions.getD id 0 = position := by
        rw [Std.TreeMap.getD_eq_getD_getElem?, hposition, Option.getD_some]
      rw [hget]
      exact ⟨hadds, fun _ => .cons .alternative .nil, fun _ => by simp [Nesting.positions]⟩

/-- Closing a nest adds it, with everything that was added since it was opened. -/
theorem Builds.close {name : String} {scale : α} {children : List Child}
    {members : List (Nesting α)}
    (hscale : (Numeric.lt 0 scale && Numeric.le scale 1) = true)
    (h : Builds (b.openNest name scale) b' children members) :
    Builds b (b'.closeNest b.nests.size name scale children) [.nest b.nests.size]
      [.nest name scale members] := by
  have hopened : (b.openNest name scale).nests.size = b.nests.size + 1 := by simp [openNest]
  have hsize := h.size_le
  rw [hopened] at hsize
  have hopen : b'.nests[b.nests.size]? = some ⟨name, scale, []⟩ := by
    rw [h.kept (by omega)]
    simp [openNest]
  have hclosed : (b'.closeNest b.nests.size name scale children).nests.size = b'.nests.size := by
    simp [closeNest]
  refine ⟨h.toAdds.close hscale, ?_, ?_⟩
  · intro nests hnests
    rw [hclosed] at hnests
    have hself : nests[b.nests.size]? = some ⟨name, scale, children⟩ := by
      rw [hnests _ le_rfl hsize, closeNest_self hsize]
    refine .cons (.nest hself (h.unfolds ?_)) .nil
    intro index hindex hbound
    rw [hnests index (by omega) hbound, closeNest_ne (by omega)]
  · intro child
    have hcounts := h.counts child
    have hset := count_allChildren_setIfInBounds ⟨name, scale, children⟩ hopen child
    have hlisted : allChildren (b.openNest name scale).nests = allChildren b.nests := by
      simp [allChildren, openNest]
    have hrange : List.range' b.nests.size (b'.nests.size - b.nests.size) =
        b.nests.size :: List.range' (b.nests.size + 1) (b'.nests.size - (b.nests.size + 1)) := by
      rw [← List.range'_succ]
      congr 1
      omega
    rw [hlisted, hopened] at hcounts
    rw [hclosed, hrange, closeNest]
    simp only [List.flatMap_cons, List.flatMap_nil, List.append_nil, List.map_cons,
      List.count_cons, List.count_nil, Nesting.positions] at *
    omega

mutual

/-- Adding a nest adds what it stands for. -/
theorem Builds.addNest {b b' : Builder α} {index : Nat} :
    (config : NestConfig α) → addNest positions b config = .ok (index, b') →
      index = b.nests.size ∧ Builds b b' [.nest index] [config.resolve positions]
  | .nest name scale members, h => by
    rw [Builder.addNest] at h
    split_ifs at h with hscale hname hempty
    simp only [bind_eq_ok, pure_eq_ok, Except.ok.injEq, Prod.mk.injEq] at h
    rcases h with ⟨⟨children, inner⟩, hmembers, rfl, rfl⟩
    rw [NestConfig.resolve]
    exact ⟨rfl, .close (by simpa using hscale) (Builds.addMembers members hmembers)⟩

/-- Adding a member adds what it stands for. -/
theorem Builds.addMember {b b' : Builder α} {name : String} {child : Child} :
    (member : NestMember α) → addMember positions b name member = .ok (child, b') →
      Builds b b' [child] [member.resolve positions]
  | .alternative id, h => by
    rw [Builder.addMember] at h
    rw [NestMember.resolve]
    exact .place h
  | .nested config, h => by
    simp only [Builder.addMember, bind_eq_ok, pure_eq_ok, Except.ok.injEq, Prod.mk.injEq] at h
    rcases h with ⟨⟨index, inner⟩, hnest, rfl, rfl⟩
    rw [NestMember.resolve]
    exact (Builds.addNest config hnest).2

/-- Adding members adds what they stand for. -/
theorem Builds.addMembers {b b' : Builder α} {name : String} {children : List Child} :
    (members : List (NestMember α)) → addMembers positions b name members = .ok (children, b') →
      Builds b b' children (members.map (NestMember.resolve positions))
  | [], h => by
    rw [Builder.addMembers, Except.ok.injEq, Prod.mk.injEq] at h
    rcases h with ⟨rfl, rfl⟩
    exact .nil b
  | member :: members, h => by
    simp only [Builder.addMembers, bind_eq_ok, pure_eq_ok, Except.ok.injEq, Prod.mk.injEq] at h
    rcases h with ⟨⟨child, first⟩, hmember, ⟨others, last⟩, hmembers, rfl, rfl⟩
    rw [List.map_cons]
    exact .cons (Builds.addMember member hmember) (Builds.addMembers members hmembers)

end

end Builder

/-! ## Trees of nestings -/

/-- A tree lays out a nesting of a number of alternatives: it unfolds to the nesting, which has every
alternative once, and lists every alternative and every nest but the first once. -/
structure LaysOut (tree : NestTree α) (nesting : Nesting α) (count : Nat) : Prop where
  formed : tree.IsFormed count
  unfolds : Unfolds tree.nests (.nest 0) nesting
  positions : nesting.positions.Perm (List.range count)
  listed : (allChildren tree.nests).Perm
    (nesting.positions.map Child.alternative ++ (List.range' 1 (tree.size - 1)).map Child.nest)

/-- A tree arranges a nesting, of whichever alternatives: it unfolds to the nesting, which has no
alternative twice, and lists every alternative in it and every nest but the first once. -/
structure Arranges (tree : NestTree α) (nesting : Nesting α) : Prop where
  formed : tree.IsFormed 0
  unfolds : Unfolds tree.nests (.nest 0) nesting
  nodup : nesting.positions.Nodup
  listed : (allChildren tree.nests).Perm
    (nesting.positions.map Child.alternative ++ (List.range' 1 (tree.size - 1)).map Child.nest)

/-- A tree of a number of alternatives can be built: it is the flat one, or that of an accepted
nesting. -/
inductive IsBuilt (count : Nat) : NestTree α → Prop where
  | flat : IsBuilt count (flat count)
  | ofConfig {positions : Std.TreeMap AlternativeId Nat} {config : NestConfig α}
      {tree : NestTree α} : Numbering positions count → ofConfig config positions = .ok tree →
      IsBuilt count tree

variable {positions : Std.TreeMap AlternativeId Nat} {config : NestConfig α} {count : Nat}
  {tree : NestTree α}

/-- The nesting has the positions below the count. -/
theorem LaysOut.mem_positions {nesting : Nesting α} (h : tree.LaysOut nesting count)
    {position : Nat} : position ∈ nesting.positions ↔ position < count := by
  rw [h.positions.mem_iff, List.mem_range]

/-- The nesting has no position twice. -/
theorem LaysOut.nodup_positions {nesting : Nesting α} (h : tree.LaysOut nesting count) :
    nesting.positions.Nodup :=
  h.positions.nodup_iff.mpr List.nodup_range

/-- What lays out a nesting of all alternatives arranges it. -/
theorem LaysOut.arranges {nesting : Nesting α} (h : tree.LaysOut nesting count) :
    tree.Arranges nesting where
  formed := ⟨h.formed.root, h.formed.nest, fun hposition => absurd hposition (Nat.not_lt_zero _)⟩
  unfolds := h.unfolds
  nodup := h.nodup_positions
  listed := h.listed

/-- The scales of a nesting that a tree lays out have what the check of a scale implies. -/
theorem LaysOut.hasScales {nesting : Nesting α} {property : α → Prop} (h : tree.LaysOut nesting count)
    (hproperty : ∀ scale, (Numeric.lt 0 scale && Numeric.le scale 1) = true → property scale) :
    nesting.HasScales property := by
  refine h.unfolds.hasScales ?_
  intro nest hnest
  rcases Array.mem_iff_getElem?.mp hnest with ⟨index, hindex⟩
  exact hproperty _ (h.formed.nest hindex).scale

/-- The tree of an accepted nesting lays it out. -/
theorem LaysOut.ofConfig (numbering : Numbering positions count)
    (h : ofConfig config positions = .ok tree) : tree.LaysOut (config.resolve positions) count := by
  rcases exists_ofConfig_iff_admits.mp ⟨tree, h⟩ with ⟨hadmits, hplaced⟩
  rcases ofConfig_eq_ok.mp h with ⟨index, b, hnest, rfl, -⟩
  rcases Builder.Builds.addNest config hnest with ⟨rfl, hbuilds⟩
  have hsize : 0 < b.nests.size := (hbuilds.later List.mem_cons_self).2
  refine ⟨.ofConfig h fun position hposition => numbering.onto hposition, ?_, ?_, ?_⟩
  · cases hbuilds.unfolds fun _ _ _ => rfl with
    | cons hroot _ => exact hroot
  · rw [NestConfig.positions_resolve, ← positionsOf_eq_map hadmits.known]
    refine (List.perm_ext_iff_of_nodup hadmits.placed.1 List.nodup_range).mpr fun position => ?_
    rw [List.mem_range]
    constructor
    · intro hposition
      rcases List.mem_filterMap.mp hposition with ⟨id, -, hid⟩
      exact numbering.bounded hid
    · intro hposition
      rcases numbering.onto hposition with ⟨id, hid⟩
      exact hplaced id position hid
  · rw [List.perm_iff_count]
    intro child
    have hcounts := hbuilds.counts child
    have hrange : List.range' 0 b.nests.size = 0 :: List.range' 1 (b.nests.size - 1) := by
      conv_lhs => rw [← Nat.sub_add_cancel hsize, List.range'_succ]
    have hempty : allChildren (Builder.empty : Builder α).nests = [] := rfl
    have hnone : (Builder.empty : Builder α).nests.size = 0 := rfl
    rw [hempty, hnone, Nat.sub_zero, hrange] at hcounts
    simp only [List.flatMap_cons, List.flatMap_nil, List.append_nil, List.map_cons,
      List.count_cons, List.count_nil, List.count_append, size] at *
    omega

/-- The flat tree lays out a nest of all alternatives. -/
theorem LaysOut.flat (hone : (Numeric.lt (0 : α) 1 && Numeric.le (1 : α) 1) = true) (count : Nat) :
    (flat count : NestTree α).LaysOut
      (.nest "root" 1 ((List.range count).map .alternative)) count := by
  have hroot : (NestTree.flat count : NestTree α).nests[0]? =
      some ⟨"root", 1, (List.range count).map .alternative⟩ := rfl
  have hpositions : (Nesting.nest "root" (1 : α)
      ((List.range count).map .alternative)).positions = List.range count := by
    simp [Nesting.positions, List.flatMap_map]
  refine ⟨isFormed_flat hone count, .nest hroot ?_, ?_, ?_⟩
  · rw [List.forall₂_map_left_iff, List.forall₂_map_right_iff, List.forall₂_same]
    exact fun _ _ => .alternative
  · rw [hpositions]
  · rw [hpositions]
    simp [allChildren, NestTree.flat, size]

/-- Every tree that can be built lays out a nesting. -/
theorem IsBuilt.laysOut (hone : (Numeric.lt (0 : α) 1 && Numeric.le (1 : α) 1) = true)
    (built : tree.IsBuilt count) : ∃ nesting, tree.LaysOut nesting count := by
  cases built with
  | flat => exact ⟨_, .flat hone count⟩
  | ofConfig numbering h => exact ⟨_, .ofConfig numbering h⟩

/-! ## Where members are listed -/

/-- The nest at an index has a member, once, and no other nest of the tree has it. -/
def ListsOnce (tree : NestTree α) (index : Nat) (child : Child) : Prop :=
  index < tree.size ∧ ∀ other nest, tree.nest? other = some nest →
    nest.children.count child = if other = index then 1 else 0

omit [Numeric α] in
/-- What is listed once in a row of nests is a member of one nest. -/
theorem exists_index_of_count {nests : List (Nest α)} {child : Child}
    (h : (nests.flatMap (·.children)).count child = 1) :
    ∃ index < nests.length, ∀ other nest, nests[other]? = some nest →
      nest.children.count child = if other = index then 1 else 0 := by
  induction nests with
  | nil => simp at h
  | cons first nests ih =>
    rw [List.flatMap_cons, List.count_append] at h
    by_cases hfirst : first.children.count child = 1
    · have hrest : (nests.flatMap (·.children)).count child = 0 := by omega
      refine ⟨0, by simp, ?_⟩
      intro other nest hnest
      cases other with
      | zero =>
        obtain rfl : first = nest := by simpa using hnest
        simpa using hfirst
      | succ other =>
        have hmem : nest ∈ nests := List.mem_of_getElem? (by simpa using hnest)
        have hnone := List.count_eq_zero.mp hrest
        rw [if_neg (by omega), List.count_eq_zero]
        exact fun hchild => hnone (List.mem_flatMap.mpr ⟨nest, hmem, hchild⟩)
    · rcases ih (by omega) with ⟨index, hindex, hothers⟩
      refine ⟨index + 1, by simpa using hindex, ?_⟩
      intro other nest hnest
      cases other with
      | zero =>
        obtain rfl : first = nest := by simpa using hnest
        rw [if_neg (by omega)]
        omega
      | succ other => simpa using hothers other nest (by simpa using hnest)

omit [Numeric α] in
/-- What is listed once in a tree is a member of one nest. -/
theorem exists_listsOnce {child : Child} (h : (allChildren tree.nests).count child = 1) :
    ∃ index, tree.ListsOnce index child := by
  rcases exists_index_of_count h with ⟨index, hindex, hothers⟩
  refine ⟨index, by simpa [size] using hindex, ?_⟩
  intro other nest hnest
  exact hothers other nest (by simpa [nest?] using hnest)

section

variable {nesting : Nesting α} {index : Nat} {nest : Nest α} {child : Child}

/-- Every alternative of a nesting is a member of one nest. -/
theorem Arranges.listsOnce_alternative (h : tree.Arranges nesting) {position : Nat}
    (hposition : position ∈ nesting.positions) :
    ∃ index, tree.ListsOnce index (.alternative position) := by
  apply exists_listsOnce
  have hother : Child.alternative position ∉ (List.range' 1 (tree.size - 1)).map Child.nest := by
    simp
  rw [h.listed.count_eq, List.count_append, List.count_eq_zero_of_not_mem hother,
    List.count_map_of_injective _ _ (fun _ _ => Child.alternative.inj)]
  exact List.count_eq_one_of_mem h.nodup hposition

/-- Every nest but the first is a member of one nest, which comes before it. -/
theorem Arranges.listsOnce_nest (h : tree.Arranges nesting) {inner : Nat} (hpos : 0 < inner)
    (hinner : inner < tree.size) : ∃ index < inner, tree.ListsOnce index (.nest inner) := by
  have hcount : (allChildren tree.nests).count (.nest inner) = 1 := by
    have hother : Child.nest inner ∉ nesting.positions.map Child.alternative := by simp
    rw [h.listed.count_eq, List.count_append, List.count_eq_zero_of_not_mem hother, Nat.zero_add,
      List.count_map_of_injective _ _ (fun _ _ => Child.nest.inj)]
    exact List.count_eq_one_of_mem (List.nodup_range' 1) (List.mem_range'_1.mpr ⟨hpos, by omega⟩)
  rcases exists_listsOnce hcount with ⟨index, hindex, hothers⟩
  refine ⟨index, ?_, hindex, hothers⟩
  have hnest : tree.nest? index = some tree.nests[index] := Array.getElem?_eq_getElem hindex
  have hone := hothers index _ hnest
  rw [if_pos rfl] at hone
  have hmem : .nest inner ∈ tree.nests[index].children := by
    rw [← List.one_le_count_iff, hone]
  exact ((h.formed.nest hnest).later inner hmem).1

/-- Members are alternatives of the nesting, or nests that come later. -/
theorem Arranges.mem_children (h : tree.Arranges nesting) (hnest : tree.nest? index = some nest)
    (hchild : child ∈ nest.children) :
    (∃ position ∈ nesting.positions, child = .alternative position) ∨
      ∃ inner, index < inner ∧ inner < tree.size ∧ child = .nest inner := by
  cases child with
  | nest inner =>
    rcases (h.formed.nest hnest).later inner hchild with ⟨hlater, hbound⟩
    exact .inr ⟨inner, hlater, hbound, rfl⟩
  | alternative position =>
    have hlisted : .alternative position ∈ allChildren tree.nests :=
      List.mem_flatMap.mpr ⟨nest, List.mem_of_getElem? (by simpa [nest?] using hnest), hchild⟩
    exact .inl ⟨position, by simpa using h.listed.mem_iff.mp hlisted, rfl⟩

/-- A member of a nest is listed there once, and nowhere else. -/
theorem Arranges.listsOnce (h : tree.Arranges nesting) (hnest : tree.nest? index = some nest)
    (hchild : child ∈ nest.children) : tree.ListsOnce index child := by
  have hsome : ∃ owner, tree.ListsOnce owner child := by
    rcases h.mem_children hnest hchild with ⟨position, hposition, rfl⟩ | ⟨inner, hlater, hbound, rfl⟩
    · exact h.listsOnce_alternative hposition
    · rcases h.listsOnce_nest (by omega) hbound with ⟨owner, -, howner⟩
      exact ⟨owner, howner⟩
  rcases hsome with ⟨owner, howner⟩
  have hcount := howner.2 index nest hnest
  have hpos := List.count_pos_iff.mpr hchild
  have hself : index = owner := by
    by_contra hne
    rw [if_neg hne] at hcount
    omega
  rwa [hself]

omit [Numeric α] in
/-- What a nest lists once it has as a member, and no other nest has it. -/
theorem ListsOnce.mem_iff {owner : Nat} (h : tree.ListsOnce owner child)
    (hnest : tree.nest? index = some nest) : child ∈ nest.children ↔ index = owner := by
  rw [← List.count_pos_iff, h.2 index nest hnest]
  split <;> simp_all

/-- No member is listed twice in a nest. -/
theorem Arranges.nodup_children (h : tree.Arranges nesting) (hnest : tree.nest? index = some nest) :
    nest.children.Nodup := by
  rw [List.nodup_iff_count_le_one]
  intro child
  by_cases hchild : child ∈ nest.children
  · rw [(h.listsOnce hnest hchild).2 index nest hnest, if_pos rfl]
  · rw [List.count_eq_zero_of_not_mem hchild]
    exact Nat.zero_le 1

/-- Every alternative is a member of one nest. -/
theorem LaysOut.listsOnce_alternative (h : tree.LaysOut nesting count) {position : Nat}
    (hposition : position < count) : ∃ index, tree.ListsOnce index (.alternative position) :=
  h.arranges.listsOnce_alternative (h.mem_positions.mpr hposition)

/-- Every nest but the first is a member of one nest, which comes before it. -/
theorem LaysOut.listsOnce_nest (h : tree.LaysOut nesting count) {inner : Nat} (hpos : 0 < inner)
    (hinner : inner < tree.size) : ∃ index < inner, tree.ListsOnce index (.nest inner) :=
  h.arranges.listsOnce_nest hpos hinner

end

open LawfulNumeric in
/-- Where the ids of the alternatives stand for the positions below a count, exactly the valid nestings
are accepted. Their trees unfold to them and to nothing else, and every position and every nest but the
first is a member of one nest, once, a nest of one that comes before it. -/
theorem ofConfig_valid_layout [LawfulNumeric α] (numbering : Numbering positions count)
    (config : NestConfig α) :
    ((∃ tree, ofConfig config positions = .ok tree) ↔ config.IsValid positions) ∧
    ∀ tree, ofConfig config positions = .ok tree →
      (∀ nesting, Unfolds tree.nests (.nest 0) nesting ↔ nesting = config.resolve positions) ∧
      (∀ inner, 0 < inner → inner < tree.size →
        ∃ index < inner, tree.ListsOnce index (.nest inner)) ∧
      (∀ position < count, ∃ index, tree.ListsOnce index (.alternative position)) := by
  refine ⟨exists_ofConfig_iff numbering, ?_⟩
  intro tree h
  have hlays := LaysOut.ofConfig numbering h
  refine ⟨?_, fun inner hpos hinner => hlays.listsOnce_nest hpos hinner,
    fun position hposition => hlays.listsOnce_alternative hposition⟩
  intro nesting
  constructor
  · exact fun hunfolds => hunfolds.unique hlays.unfolds
  · rintro rfl
    exact hlays.unfolds

/-- The way on foot, and two ways of transit in a nest of their own. -/
def walkAndTransit (scale : α) : NestConfig α :=
  .nest "root" 1 [.alternative 10, .nested (.nest "transit" scale [.alternative 30, .alternative 20])]

/-- The positions of the three alternatives. -/
def walkAndTransitPositions : Std.TreeMap AlternativeId Nat :=
  (((∅ : Std.TreeMap AlternativeId Nat).insert 10 0).insert 20 1).insert 30 2

/-- The root, and the transit nest behind it. -/
def walkAndTransitTree (scale : α) : NestTree α :=
  ⟨#[⟨"root", 1, [.alternative 0, .nest 1]⟩, ⟨"transit", scale, [.alternative 2, .alternative 1]⟩]⟩

theorem numbering_walkAndTransitPositions : Numbering walkAndTransitPositions 3 :=
  ((Numbering.empty.insert (by decide)).insert (by decide)).insert (by decide)

theorem ofConfig_walkAndTransit (hone : (Numeric.lt (0 : α) 1 && Numeric.le (1 : α) 1) = true)
    {scale : α} (hscale : (Numeric.lt 0 scale && Numeric.le scale 1) = true) :
    ofConfig (walkAndTransit scale) walkAndTransitPositions = .ok (walkAndTransitTree scale) := by
  simp only [ofConfig, walkAndTransit, Builder.addNest, Builder.addMembers, Builder.addMember, hone,
    hscale]
  with_unfolding_all rfl

/-- What the tree of the three alternatives unfolds to. -/
theorem resolve_walkAndTransit (scale : α) :
    (walkAndTransit scale).resolve walkAndTransitPositions =
      .nest "root" 1 [.alternative 0, .nest "transit" scale [.alternative 2, .alternative 1]] := by
  simp only [walkAndTransit, NestConfig.resolve, NestMember.resolve, List.map_cons, List.map_nil]
  rfl

/-- The nesting is valid, and the transit nest comes behind the root with its members as they are
written. -/
theorem walkAndTransit_valid_layout :
    Numbering walkAndTransitPositions 3 ∧
      (walkAndTransit (0.5 : Float)).IsValid walkAndTransitPositions ∧
      ∃ tree, ofConfig (walkAndTransit (0.5 : Float)) walkAndTransitPositions = .ok tree ∧
        tree.size = 2 ∧
        Unfolds tree.nests (.nest 0) (.nest "root" 1
          [.alternative 0, .nest "transit" 0.5 [.alternative 2, .alternative 1]]) ∧
        (∃ index < 1, tree.ListsOnce index (.nest 1)) ∧
        ∃ index, tree.ListsOnce index (.alternative 2) := by
  have hone : (Numeric.lt (0 : Float) 1 && Numeric.le (1 : Float) 1) = true := by
    with_unfolding_all rfl
  have hscale : (Numeric.lt 0 (0.5 : Float) && Numeric.le (0.5 : Float) 1) = true := by
    with_unfolding_all rfl
  have htree := ofConfig_walkAndTransit hone hscale
  rcases ofConfig_valid_layout numbering_walkAndTransitPositions (walkAndTransit (0.5 : Float)) with
    ⟨hvalid, hlayout⟩
  rcases hlayout _ htree with ⟨hunfolds, hnests, halternatives⟩
  refine ⟨numbering_walkAndTransitPositions, hvalid.mp ⟨_, htree⟩, _, htree, rfl, ?_,
    hnests 1 (by decide) (by decide), halternatives 2 (by decide)⟩
  rw [hunfolds, resolve_walkAndTransit]

end NestTree

/-- The nesting of every compiled model can be built. -/
theorem Model.isBuilt_nests [Numeric α] {config : ModelConfig α} {model : Model α}
    (h : compile config = .ok model) : model.nests.IsBuilt model.size := by
  simp only [compile, bind_eq_ok] at h
  rcases h with ⟨schema, -, alternatives, -, h⟩
  rw [assemble] at h
  split_ifs at h
  simp only [bind_eq_ok] at h
  rcases h with ⟨positions, hpositions, h⟩
  have numbering := numbering_numberAlternatives hpositions .empty
  rw [Nat.zero_add] at numbering
  split at h
  · simp only [bind_eq_ok, pure_eq_ok, Except.ok.injEq] at h
    rcases h with ⟨tree, htree, rfl⟩
    exact .ofConfig numbering htree
  · rcases Except.ok.inj h with rfl
    exact .flat

/-- The nesting of every compiled model is a well-formed tree of its alternatives. -/
theorem Model.isFormed_nests [Numeric α] [LawfulNumeric α] {config : ModelConfig α} {model : Model α}
    (h : compile config = .ok model) : model.nests.IsFormed model.size := by
  rcases (isBuilt_nests h).laysOut LawfulNumeric.isScale_one with ⟨_, hlays⟩
  exact hlays.formed

end DiscreteChoice
