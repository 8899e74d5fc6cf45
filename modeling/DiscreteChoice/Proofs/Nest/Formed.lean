import DiscreteChoice.Proofs.Nest.Acceptance

/-!
# The shape of compiled nestings

A compiled nesting is a tree in which every nest comes before the nests inside it, every scale is in
(0, 1], and every alternative is somewhere below the root. Building adds nests behind those that are
there, and closing a nest gives members to one that had none, so that what was below a nest stays
below it.

Main results:

- Theorem `NestTree.Builder.Adds.addNest`: what adding a nest does to a builder.
- Theorem `NestTree.IsFormed.ofConfig`: a nesting that is accepted gives a well-formed tree.
- Theorem `NestTree.isFormed_flat`: so is the flat tree.
-/

namespace DiscreteChoice

variable {α : Type}

/-- A nest at an index of a tree has a scale in (0, 1], and the nests inside it come later. -/
structure Nest.IsFormed [Numeric α] (nest : Nest α) (index size : Nat) : Prop where
  scale : (Numeric.lt 0 nest.scale && Numeric.le nest.scale 1) = true
  later (inner : Nat) : .nest inner ∈ nest.children → index < inner ∧ inner < size

/-- A larger tree has room for the same nest. -/
theorem Nest.IsFormed.mono [Numeric α] {nest : Nest α} {index size size' : Nat}
    (h : nest.IsFormed index size) (hsize : size ≤ size') : nest.IsFormed index size' where
  scale := h.scale
  later inner hinner := by
    have := h.later inner hinner
    omega

namespace NestTree

/-- An alternative is a member of a nest, or of a nest inside it. -/
inductive Within (nests : Array (Nest α)) (position : Nat) : Child → Prop where
  | here : Within nests position (.alternative position)
  | inside {index : Nat} {nest : Nest α} {child : Child} :
      nests[index]? = some nest → child ∈ nest.children → Within nests position child →
      Within nests position (.nest index)

/-- Replacing nests without members keeps what is within what. -/
theorem Within.mono {nests nests' : Array (Nest α)}
    (h : ∀ (index : Nat) (nest : Nest α), nests[index]? = some nest → nest.children ≠ [] →
      nests'[index]? = some nest)
    {position : Nat} {child : Child} (hwithin : Within nests position child) :
    Within nests' position child := by
  induction hwithin with
  | here => exact .here
  | inside hnest hmem _ ih => exact .inside (h _ _ hnest (List.ne_nil_of_mem hmem)) hmem ih

/-- In a well-formed tree every nest is well-formed and every alternative is below the root. -/
structure IsFormed [Numeric α] (tree : NestTree α) (alternatives : Nat) : Prop where
  root : 0 < tree.size
  nest {index : Nat} {nest : Nest α} : tree.nest? index = some nest → nest.IsFormed index tree.size
  within {position : Nat} : position < alternatives → Within tree.nests position (.nest 0)

/-- What holds of a nest whenever it holds of the nests inside it holds of every nest. -/
@[elab_as_elim]
theorem IsFormed.induction [Numeric α] {tree : NestTree α} {alternatives : Nat}
    (formed : tree.IsFormed alternatives) {motive : Nat → Prop}
    (step : ∀ (index : Nat) (nest : Nest α), tree.nest? index = some nest →
      (∀ inner, .nest inner ∈ nest.children → motive inner) → motive index)
    {index : Nat} (hindex : index < tree.size) : motive index := by
  -- the nests inside a nest come later, so that less of the tree is left behind them
  induction hleft : tree.size - index using Nat.strong_induction_on generalizing index with
  | _ left ih =>
    have hnest : tree.nest? index = some tree.nests[index] := Array.getElem?_eq_getElem hindex
    apply step index _ hnest
    intro inner hinner
    rcases (formed.nest hnest).later inner hinner with ⟨hafter, hbound⟩
    exact ih (tree.size - inner) (by omega) hbound rfl

namespace Builder

variable [Numeric α] {b b' b'' : Builder α}

/-- The members are added behind the nests of a builder: what was there stays, what is new is
well-formed, and what is newly placed is within the members. -/
structure Adds (b b' : Builder α) (children : List Child) : Prop where
  size_le : b.nests.size ≤ b'.nests.size
  kept {index : Nat} : index < b.nests.size → b'.nests[index]? = b.nests[index]?
  formed {index : Nat} {nest : Nest α} : b.nests.size ≤ index → b'.nests[index]? = some nest →
    nest.IsFormed index b'.nests.size
  later {inner : Nat} : .nest inner ∈ children → b.nests.size ≤ inner ∧ inner < b'.nests.size
  placed {position : Nat} : b'.placed.contains position = true →
    b.placed.contains position = true ∨ ∃ child ∈ children, Within b'.nests position child

/-- Adding no members changes nothing. -/
theorem Adds.nil (b : Builder α) : Adds b b [] where
  size_le := le_rfl
  kept _ := rfl
  formed hindex hnest := by
    have := (Array.getElem?_eq_some_iff.mp hnest).1
    omega
  later hinner := by cases hinner
  placed h := .inl h

/-- What was within what stays so when members are added. -/
theorem Adds.within (h : Adds b b' children) {position : Nat} {child : Child}
    (hwithin : Within b.nests position child) : Within b'.nests position child := by
  refine hwithin.mono ?_
  intro index nest hnest _
  rw [h.kept (Array.getElem?_eq_some_iff.mp hnest).1, hnest]

/-- Adding members one after the other. -/
theorem Adds.cons {child : Child} {children : List Child} (hfirst : Adds b b' [child])
    (hrest : Adds b' b'' children) : Adds b b'' (child :: children) where
  size_le := hfirst.size_le.trans hrest.size_le
  kept hindex := by
    rw [hrest.kept (hindex.trans_le hfirst.size_le), hfirst.kept hindex]
  formed {index nest} hindex hnest := by
    by_cases hold : index < b'.nests.size
    · rw [hrest.kept hold] at hnest
      exact (hfirst.formed hindex hnest).mono hrest.size_le
    · exact hrest.formed (by omega) hnest
  later {inner} hinner := by
    have := hfirst.size_le
    have := hrest.size_le
    rcases List.mem_cons.mp hinner with rfl | hinner
    · have := hfirst.later List.mem_cons_self
      omega
    · have := hrest.later hinner
      omega
  placed {position} hplaced := by
    rcases hrest.placed hplaced with hplaced | ⟨other, hother, hwithin⟩
    · rcases hfirst.placed hplaced with hplaced | ⟨other, hother, hwithin⟩
      · exact .inl hplaced
      · rcases List.mem_singleton.mp hother with rfl
        exact .inr ⟨other, List.mem_cons_self, hrest.within hwithin⟩
    · exact .inr ⟨other, List.mem_cons_of_mem _ hother, hwithin⟩

/-- Placing an alternative adds it. -/
theorem Adds.place {positions : Std.TreeMap AlternativeId Nat} {name : String} {id : AlternativeId}
    {child : Child} (h : place positions b name id = .ok (child, b')) : Adds b b' [child] := by
  unfold Builder.place at h
  split at h
  · simp at h
  · rename_i position hposition
    split at h
    · simp at h
    · rcases Prod.mk.inj (Except.ok.inj h) with ⟨rfl, rfl⟩
      refine ⟨le_rfl, fun _ => rfl, (Adds.nil b).formed, by simp, ?_⟩
      intro other hother
      rw [Std.TreeSet.contains_insert, Bool.or_eq_true, beq_iff_eq, Nat.compare_eq_eq] at hother
      rcases hother with rfl | hother
      · exact .inr ⟨_, List.mem_singleton_self _, .here⟩
      · exact .inl hother

omit [Numeric α] in
/-- The nest that was closed has its members. -/
theorem closeNest_self {index : Nat} {name : String} {scale : α} {children : List Child}
    (h : index < b.nests.size) :
    (b.closeNest index name scale children).nests[index]? = some ⟨name, scale, children⟩ :=
  Array.getElem?_setIfInBounds_self_of_lt h

omit [Numeric α] in
/-- Closing a nest leaves all others as they are. -/
theorem closeNest_ne {index other : Nat} {name : String} {scale : α} {children : List Child}
    (h : index ≠ other) :
    (b.closeNest index name scale children).nests[other]? = b.nests[other]? :=
  Array.getElem?_setIfInBounds_ne h

/-- Closing a nest adds it, with everything that was added since it was opened. -/
theorem Adds.close {name : String} {scale : α} {children : List Child}
    (hscale : (Numeric.lt 0 scale && Numeric.le scale 1) = true)
    (h : Adds (b.openNest name scale) b' children) :
    Adds b (b'.closeNest b.nests.size name scale children) [.nest b.nests.size] := by
  have hsize : b.nests.size + 1 ≤ b'.nests.size := by
    simpa [openNest] using h.size_le
  have hopened : b'.nests[b.nests.size]? = some ⟨name, scale, []⟩ := by
    rw [h.kept (by simp [openNest])]
    simp [openNest]
  have hwithin {position : Nat} {child : Child} (hwithin : Within b'.nests position child) :
      Within (b'.closeNest b.nests.size name scale children).nests position child := by
    refine hwithin.mono ?_
    intro index nest hnest hmembers
    rw [closeNest_ne, hnest]
    rintro rfl
    rw [hopened] at hnest
    rcases Option.some.inj hnest with rfl
    exact hmembers rfl
  have hsize' : (b'.closeNest b.nests.size name scale children).nests.size = b'.nests.size := by
    simp [closeNest]
  refine ⟨?_, ?_, ?_, ?_, ?_⟩
  · omega
  · intro index hindex
    rw [closeNest_ne (by omega), h.kept (by simp [openNest]; omega)]
    simp [openNest, Array.getElem?_push, Nat.ne_of_lt hindex]
  · intro index nest hindex hnest
    rw [hsize']
    by_cases hself : b.nests.size = index
    · subst hself
      rw [closeNest_self hsize] at hnest
      rcases Option.some.inj hnest with rfl
      refine ⟨hscale, ?_⟩
      intro inner hinner
      have hlater := h.later hinner
      simp only [openNest, Array.size_push] at hlater
      omega
    · rw [closeNest_ne hself] at hnest
      exact h.formed (by simp [openNest]; omega) hnest
  · intro inner hinner
    rcases Child.nest.inj (List.mem_singleton.mp hinner) with rfl
    omega
  · intro position hplaced
    rcases h.placed hplaced with hplaced | ⟨child, hchild, hbelow⟩
    · exact .inl hplaced
    · exact .inr ⟨_, List.mem_singleton_self _, .inside (closeNest_self hsize) hchild (hwithin hbelow)⟩

mutual

/-- Adding a nest adds it and everything in it. -/
theorem Adds.addNest {positions : Std.TreeMap AlternativeId Nat} {b b' : Builder α} {index : Nat} :
    (config : NestConfig α) → addNest positions b config = .ok (index, b') →
      index = b.nests.size ∧ Adds b b' [.nest index]
  | .nest name scale members, h => by
    rw [Builder.addNest] at h
    split at h
    · simp at h
    · rename_i hscale
      split at h
      · simp at h
      · split at h
        · simp at h
        · simp only [bind_eq_ok, pure_eq_ok, Except.ok.injEq, Prod.mk.injEq] at h
          rcases h with ⟨⟨children, inner⟩, hmembers, rfl, rfl⟩
          exact ⟨rfl, .close (by simpa using hscale) (Adds.addMembers members hmembers)⟩

/-- Adding a member adds it. -/
theorem Adds.addMember {positions : Std.TreeMap AlternativeId Nat} {b b' : Builder α}
    {name : String} {child : Child} :
    (member : NestMember α) → addMember positions b name member = .ok (child, b') →
      Adds b b' [child]
  | .alternative id, h => by
    rw [Builder.addMember] at h
    exact .place h
  | .nested config, h => by
    simp only [Builder.addMember, bind_eq_ok, pure_eq_ok, Except.ok.injEq, Prod.mk.injEq] at h
    rcases h with ⟨⟨index, inner⟩, hnest, rfl, rfl⟩
    exact (Adds.addNest config hnest).2

/-- Adding members adds them. -/
theorem Adds.addMembers {positions : Std.TreeMap AlternativeId Nat} {b b' : Builder α}
    {name : String} {children : List Child} :
    (members : List (NestMember α)) → addMembers positions b name members = .ok (children, b') →
      Adds b b' children
  | [], h => by
    rw [Builder.addMembers, Except.ok.injEq, Prod.mk.injEq] at h
    rcases h with ⟨rfl, rfl⟩
    exact .nil b
  | member :: members, h => by
    simp only [Builder.addMembers, bind_eq_ok, pure_eq_ok, Except.ok.injEq, Prod.mk.injEq] at h
    rcases h with ⟨⟨child, first⟩, hmember, ⟨others, last⟩, hmembers, rfl, rfl⟩
    exact .cons (Adds.addMember member hmember) (Adds.addMembers members hmembers)

end

end Builder

variable [Numeric α]

/-- A nesting that is accepted gives a well-formed tree of the alternatives with a position. -/
theorem IsFormed.ofConfig {config : NestConfig α} {positions : Std.TreeMap AlternativeId Nat}
    {tree : NestTree α} (h : ofConfig config positions = .ok tree) {alternatives : Nat}
    (hpositions : ∀ position < alternatives, ∃ id : AlternativeId, positions[id]? = some position) :
    tree.IsFormed alternatives := by
  rcases ofConfig_eq_ok.mp h with ⟨index, b, hnest, rfl, hplaced⟩
  rcases Builder.Adds.addNest config hnest with ⟨rfl, hadds⟩
  refine ⟨(hadds.later List.mem_cons_self).2, hadds.formed (Nat.zero_le _), ?_⟩
  intro position hposition
  rcases hpositions position hposition with ⟨id, hid⟩
  rcases hadds.placed (hplaced id position hid) with hbefore | ⟨child, hchild, hwithin⟩
  · simp [Builder.empty] at hbefore
  · rcases List.mem_singleton.mp hchild with rfl
    exact hwithin

/-- The root of the flat tree is its only nest. -/
theorem nest?_flat {alternatives index : Nat} {nest : Nest α} :
    (flat alternatives : NestTree α).nest? index = some nest ↔
      index = 0 ∧ nest = ⟨"root", 1, (List.range alternatives).map .alternative⟩ := by
  cases index with
  | zero => simp [nest?, flat, eq_comm]
  | succ index => simp [nest?, flat]

/-- The flat tree of all alternatives is well-formed when one is a scale. -/
theorem isFormed_flat (hone : (Numeric.lt (0 : α) 1 && Numeric.le (1 : α) 1) = true)
    (alternatives : Nat) : (flat alternatives : NestTree α).IsFormed alternatives where
  root := Nat.one_pos
  nest hnest := by
    rcases nest?_flat.mp hnest with ⟨rfl, rfl⟩
    exact ⟨hone, by simp⟩
  within {position} hposition := by
    refine .inside (nest?_flat.mpr ⟨rfl, rfl⟩) ?_ .here
    exact List.mem_map_of_mem (List.mem_range.mpr hposition)

end NestTree
end DiscreteChoice
