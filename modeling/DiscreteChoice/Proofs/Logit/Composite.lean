import DiscreteChoice.Logit.Nested
import DiscreteChoice.Proofs.Logit.Availability
import DiscreteChoice.Proofs.Logit.LogSumExp
import DiscreteChoice.Proofs.Nest.Formed

/-!
# Composite utilities

The composite utilities are worked out from the back, so that each of them is that of the nests inside
it. A nest with nothing available in it has none. So has a nest in which the largest value of a member
is infinite, which happens when the composite utility of a nest inside it is too large to be written:
what is available in such a nest is lost, and with it every nest that holds nothing else.

Main results:

- Theorem `Logit.composites_spec`: every composite utility is that of the members of its nest.
- Theorem `Logit.drops_iff`: when a nest with an available alternative has no composite utility.
- Theorem `Logit.exists_drops_iff`: no nest is lost unless a composite utility overflows.
-/

namespace DiscreteChoice
namespace Logit

open Numeric LawfulNumeric RoundingNumeric

variable {α : Type} [Numeric α]

/-! ## The recursive equation -/

/-- The composite utility of a nest depends on those of the nests inside it only. -/
theorem composite?_congr {v : UtilityVector α} {found found' : Array (Option α)} {nest : Nest α}
    (h : ∀ index, .nest index ∈ nest.children → found[index]? = found'[index]?) :
    composite? v found nest = composite? v found' nest := by
  have hvalues : memberValues v found nest.children = memberValues v found' nest.children := by
    apply List.filterMap_congr
    intro child hchild
    cases child with
    | alternative position => rfl
    | nest index => rw [childValue?, childValue?, h index hchild]
  rw [composite?, composite?, hvalues]

/-- Working out composite utilities from the back of a list changes nothing in front of it, and each
is that of the composite utilities behind it. -/
theorem foldr_composite?_spec (v : UtilityVector α) (nests : List (Nest α)) (offset : Nat)
    (start : Array (Option α)) (hsize : offset + nests.length ≤ start.size)
    (hlater : ∀ (i : Nat) (nest : Nest α), nests[i]? = some nest →
      ∀ index, .nest index ∈ nest.children → offset + i < index) :
    let found := (nests.zipIdx offset).foldr
      (fun entry found => found.setIfInBounds entry.2 (composite? v found entry.1)) start
    found.size = start.size ∧ (∀ index < offset, found[index]? = start[index]?) ∧
      ∀ (i : Nat) (nest : Nest α), nests[i]? = some nest →
        found[offset + i]? = some (composite? v found nest) := by
  induction nests generalizing offset with
  | nil => simp
  | cons nest nests ih =>
    have hlength : offset + 1 + nests.length ≤ start.size := by
      rw [List.length_cons] at hsize
      omega
    have hlaterRest : ∀ (i : Nat) (other : Nest α), nests[i]? = some other →
        ∀ index, .nest index ∈ other.children → offset + 1 + i < index := by
      intro i other hother index hindex
      have hnext : (nest :: nests)[i + 1]? = some other := hother
      have := hlater (i + 1) other hnext index hindex
      omega
    rcases ih (offset + 1) hlength hlaterRest with ⟨hrest, hbefore, hbehind⟩
    rw [List.zipIdx_cons, List.foldr_cons]
    generalize (nests.zipIdx (offset + 1)).foldr
      (fun entry found => found.setIfInBounds entry.2 (composite? v found entry.1)) start = behind
      at hrest hbefore hbehind
    have hroom : offset < behind.size := by omega
    -- setting the composite utility of a nest leaves those of the nests inside it as they are
    have hset {other : Nest α} (hother : ∀ index, .nest index ∈ other.children → offset < index) :
        composite? v (behind.setIfInBounds offset (composite? v behind nest)) other =
          composite? v behind other := by
      apply composite?_congr
      intro index hindex
      exact Array.getElem?_setIfInBounds_ne (Nat.ne_of_lt (hother index hindex))
    refine ⟨by simpa using hrest, ?_, ?_⟩
    · intro index hindex
      rw [Array.getElem?_setIfInBounds_ne (Nat.ne_of_gt hindex), hbefore index (by omega)]
    · intro i other hother
      cases i with
      | zero =>
        obtain rfl : nest = other := by simpa using hother
        rw [Nat.add_zero, Array.getElem?_setIfInBounds_self_of_lt hroom,
          hset (hlater 0 nest rfl)]
      | succ i =>
        have hnext : nests[i]? = some other := by simpa using hother
        have hfound := hbehind i other hnext
        rw [Nat.add_assoc, Nat.add_comm 1] at hfound
        rw [Array.getElem?_setIfInBounds_ne (by omega), hfound]
        simp only
        rw [hset]
        intro index hindex
        have := hlater (i + 1) other hother index hindex
        omega

/-- Every composite utility is that of the members of its nest. -/
theorem composites_spec {tree : NestTree α} {count : Nat} (formed : tree.IsFormed count)
    (v : UtilityVector α) {index : Nat} {nest : Nest α} (hnest : tree.nest? index = some nest) :
    childValue? v (composites tree v) (.nest index) = composite? v (composites tree v) nest := by
  have hspec := foldr_composite?_spec v tree.nests.toList 0 (Array.replicate tree.size none)
    (by simp [NestTree.size]) ?_
  · have hfound := hspec.2.2 index nest (by simpa [NestTree.nest?] using hnest)
    rw [Nat.zero_add] at hfound
    rw [childValue?]
    exact congrArg Option.join hfound
  · intro i other hother inner hinner
    have hnest : tree.nest? i = some other := by simpa [NestTree.nest?] using hother
    have := (formed.nest hnest).later inner hinner
    omega

/-- The scaled values of the members are those of the members that have one. -/
theorem scaledValues_memberValues (v : UtilityVector α) (found : Array (Option α)) (nest : Nest α)
    (children : List Child) : scaledValues nest (memberValues v found children) =
      (children.filterMap (childValue? v found)).map (nest.scale * ·) := by
  induction children with
  | nil => rfl
  | cons child children ih =>
    cases hvalue : childValue? v found child with
    | none => simpa [memberValues, hvalue] using ih
    | some x => simpa [memberValues, scaledValues, hvalue] using ih

/-! ## Lost nests -/

/-- There is an available alternative in a nest, or the alternative is available. -/
def Holds (tree : NestTree α) (v : UtilityVector α) (child : Child) : Prop :=
  ∃ position, NestTree.Within tree.nests position child ∧ v.isAvailable position = true

/-- The largest value of a member of a nest is the composite utility of a nest inside it, and is
infinite. -/
def Overflows (tree : NestTree α) (v : UtilityVector α) (index : Nat) : Prop :=
  ∃ nest inner largest, tree.nest? index = some nest ∧ .nest inner ∈ nest.children ∧
    childValue? v (composites tree v) (.nest inner) = some largest ∧ isFinite largest = false ∧
    ∀ child ∈ nest.children, ∀ x, childValue? v (composites tree v) child = some x →
      le x largest = true

/-- What is available in a nest is lost: the largest value of a member is infinite, or only nests have
something available in them, and in all of those it is lost. -/
inductive Drops (tree : NestTree α) (v : UtilityVector α) : Nat → Prop where
  | overflow {index : Nat} : Overflows tree v index → Drops tree v index
  | members {index : Nat} {nest : Nest α} : tree.nest? index = some nest →
      Holds tree v (.nest index) →
      (∀ position, .alternative position ∈ nest.children → v.isAvailable position = false) →
      (∀ inner, .nest inner ∈ nest.children → Holds tree v (.nest inner) → Drops tree v inner) →
      Drops tree v index

/-! ## When a composite utility is missing -/

section

variable [RoundingNumeric α]

/-- The values of members stay defined when they are scaled. -/
theorem isNaN_scaledValues {nest : Nest α} (hscale : IsScale nest.scale)
    {members : List (Child × α)} (hmembers : ∀ member ∈ members, isNaN member.2 = false) :
    ∀ x ∈ scaledValues nest members, isNaN x = false := by
  intro x hx
  rcases List.mem_map.mp hx with ⟨member, hmember, rfl⟩
  exact (hscale.denotes_mul (hmembers member hmember)).1

/-- The largest scaled value is infinite when the largest value of a member is. -/
theorem isFinite_maximum?_scaledValues {nest : Nest α} (hscale : IsScale nest.scale)
    {members : List (Child × α)} (hmembers : ∀ member ∈ members, isNaN member.2 = false)
    {largest : α} (hmax : maximum? (scaledValues nest members) = some largest) :
    isFinite largest = false ↔ ∃ member ∈ members, isFinite member.2 = false ∧
      ∀ other ∈ members, le other.2 member.2 = true := by
  rcases maximum?_spec (isNaN_scaledValues hscale hmembers) hmax with ⟨hmem, hle⟩
  rcases List.mem_map.mp hmem with ⟨first, hfirst, rfl⟩
  have hnan := hmembers first hfirst
  have hbound {other : Child × α} (hother : other ∈ members) :
      value (nest.scale * other.2) ≤ value (nest.scale * first.2) :=
    hle _ (List.mem_map_of_mem hother)
  rw [hscale.isFinite_mul hnan]
  constructor
  · intro hinfinite
    refine ⟨first, hfirst, hinfinite, ?_⟩
    intro other hother
    have hothernan := hmembers other hother
    refine (le_iff _ _).mpr ⟨hothernan, hnan, ?_⟩
    rcases (isFinite_eq_false_iff hnan).mp hinfinite with htop | hbot
    · rw [htop]
      exact le_top
    · have hscaled := hbound hother
      rw [(hscale.mul_eq_bot_iff hnan).mpr hbot, le_bot_iff,
        hscale.mul_eq_bot_iff hothernan] at hscaled
      rw [hscaled]
      exact bot_le
  · rintro ⟨member, hmember, hinfinite, hlargest⟩
    have hmembernan := hmembers member hmember
    rw [isFinite_eq_false_iff hnan]
    rcases (isFinite_eq_false_iff hmembernan).mp hinfinite with htop | hbot
    · have hscaled := hbound hmember
      rw [(hscale.mul_eq_top_iff hmembernan).mpr htop, top_le_iff,
        hscale.mul_eq_top_iff hnan] at hscaled
      exact .inl hscaled
    · have hfirstle := ((le_iff _ _).mp (hlargest first hfirst)).2.2
      rw [hbot, le_bot_iff] at hfirstle
      exact .inr hfirstle

omit [Numeric α] [RoundingNumeric α] in
/-- No member is left when none has a value. -/
theorem memberValues_eq_nil_iff {v : UtilityVector α} {found : Array (Option α)}
    {children : List Child} :
    memberValues v found children = [] ↔
      ∀ child ∈ children, childValue? v found child = none := by
  simp [memberValues, List.filterMap_eq_nil_iff]

/-- A nest has no composite utility when no member has a value, or when the largest one is
infinite. -/
theorem composite?_eq_none_iff {v : UtilityVector α} {found : Array (Option α)} {nest : Nest α}
    (hscale : IsScale nest.scale)
    (hdefined : ∀ child ∈ nest.children, ∀ x, childValue? v found child = some x →
      isNaN x = false) :
    composite? v found nest = none ↔
      (∀ child ∈ nest.children, childValue? v found child = none) ∨
        ∃ member ∈ memberValues v found nest.children, isFinite member.2 = false ∧
          ∀ other ∈ memberValues v found nest.children, le other.2 member.2 = true := by
  have hmembers : ∀ member ∈ memberValues v found nest.children, isNaN member.2 = false := by
    intro member hmember
    rcases mem_memberValues.mp hmember with ⟨hchild, hvalue⟩
    exact hdefined member.1 hchild member.2 hvalue
  rw [composite?, Option.map_eq_none_iff, logSumExp?_eq_none_iff, ← memberValues_eq_nil_iff]
  cases hmax : maximum? (scaledValues nest (memberValues v found nest.children)) with
  | none =>
    have hnone : memberValues v found nest.children = [] :=
      List.map_eq_nil_iff.mp (maximum?_eq_none_iff.mp hmax)
    simp [hnone]
  | some largest =>
    have hsome : memberValues v found nest.children ≠ [] := by
      intro hnone
      simp [hnone, scaledValues, maximum?] at hmax
    rw [or_iff_right hsome, ← isFinite_maximum?_scaledValues hscale hmembers hmax]
    simp

variable {tree : NestTree α} {count : Nat} {v : UtilityVector α}

omit [Numeric α] [RoundingNumeric α] in
/-- The utility of an available alternative is one of those of the vector. -/
theorem mem_availableUtilities_of_utility? {position : Nat} {u : α}
    (h : v.utility? position = some u) : u ∈ v.availableUtilities := by
  rw [UtilityVector.utility?, Option.join_eq_some_iff] at h
  exact mem_availableUtilities.mpr (Array.mem_of_getElem? h)

omit [RoundingNumeric α] in
/-- Only nests of the tree have a composite utility. -/
theorem lt_size_of_childValue {index : Nat} {x : α}
    (h : childValue? v (composites tree v) (.nest index) = some x) : index < tree.size := by
  rw [childValue?, Option.join_eq_some_iff] at h
  rw [← size_composites tree v]
  exact (Array.getElem?_eq_some_iff.mp h).1

/-- The values of members are defined. -/
theorem isNaN_childValue (functions : LawfulFunctions α) (formed : tree.IsFormed count)
    (hfinite : ∀ u ∈ v.availableUtilities, isFinite u = true) {child : Child} {x : α}
    (h : childValue? v (composites tree v) child = some x) : isNaN x = false := by
  have halternative {position : Nat} {u : α} (hu : v.utility? position = some u) :
      isNaN u = false :=
    isNaN_of_isFinite (hfinite u (mem_availableUtilities_of_utility? hu))
  cases child with
  | alternative position => exact halternative h
  | nest index =>
    suffices hnests : ∀ x, childValue? v (composites tree v) (.nest index) = some x →
        isNaN x = false from hnests x h
    refine formed.induction ?_ (lt_size_of_childValue h)
    intro index nest hnest ih x h
    rw [composites_spec formed v hnest, composite?, Option.map_eq_some_iff] at h
    rcases h with ⟨logsum, hlogsum, rfl⟩
    have hscale := IsScale.of_check (formed.nest hnest).scale
    have hmembers : ∀ member ∈ memberValues v (composites tree v) nest.children,
        isNaN member.2 = false := by
      rintro ⟨child, y⟩ hmember
      rcases mem_memberValues.mp hmember with ⟨hchild, hy⟩
      cases child with
      | alternative position => exact halternative hy
      | nest inner => exact ih inner hchild y hy
    have hscaled := isNaN_scaledValues hscale hmembers
    exact hscale.isNaN_div (logSumExp?_spec functions hscaled hlogsum).1

omit [RoundingNumeric α] in
/-- What has a value has something available in it. -/
theorem holds_of_childValue (formed : tree.IsFormed count) {child : Child} {x : α}
    (h : childValue? v (composites tree v) child = some x) : Holds tree v child := by
  have halternative {position : Nat} {u : α} (hu : v.utility? position = some u) :
      Holds tree v (.alternative position) :=
    ⟨position, .here, by simp [UtilityVector.isAvailable, hu]⟩
  cases child with
  | alternative position => exact halternative h
  | nest index =>
    suffices hnests : ∀ x, childValue? v (composites tree v) (.nest index) = some x →
        Holds tree v (.nest index) from hnests x h
    refine formed.induction ?_ (lt_size_of_childValue h)
    intro index nest hnest ih x h
    rw [composites_spec formed v hnest, composite?, Option.map_eq_some_iff] at h
    rcases h with ⟨logsum, hlogsum, -⟩
    -- a log-sum-exp has an entry, which is that of a member with a value
    cases hmembers : memberValues v (composites tree v) nest.children with
    | nil => simp [hmembers, scaledValues] at hlogsum
    | cons member members =>
      have hmember : member ∈ memberValues v (composites tree v) nest.children := by
        simp [hmembers]
      rcases member with ⟨child, y⟩
      rcases mem_memberValues.mp hmember with ⟨hchild, hy⟩
      have hholds : Holds tree v child := by
        cases child with
        | alternative position => exact halternative hy
        | nest inner => exact ih inner hchild y hy
      rcases hholds with ⟨position, hwithin, havailable⟩
      exact ⟨position, .inside hnest hchild hwithin, havailable⟩

/-- What is available in a nest is lost when the nest has no composite utility. -/
theorem drops_iff (functions : LawfulFunctions α) (formed : tree.IsFormed count)
    (hfinite : ∀ u ∈ v.availableUtilities, isFinite u = true) {index : Nat}
    (hindex : index < tree.size) :
    Drops tree v index ↔ Holds tree v (.nest index) ∧
      childValue? v (composites tree v) (.nest index) = none := by
  refine formed.induction ?_ hindex
  intro index nest hnest ih
  have hscale := IsScale.of_check (formed.nest hnest).scale
  have hdefined : ∀ child ∈ nest.children, ∀ x,
      childValue? v (composites tree v) child = some x → isNaN x = false :=
    fun child _ x hx => isNaN_childValue functions formed hfinite hx
  rw [composites_spec formed v hnest, composite?_eq_none_iff hscale hdefined]
  constructor
  · intro hdrops
    cases hdrops with
    | overflow hoverflows =>
      rcases hoverflows with ⟨other, inner, largest, hother, hinner, hvalue, hinfinite, hle⟩
      obtain rfl : nest = other := Option.some.inj (hnest.symm.trans hother)
      rcases holds_of_childValue formed hvalue with ⟨position, hwithin, havailable⟩
      have hmember : (.nest inner, largest) ∈ memberValues v (composites tree v) nest.children :=
        mem_memberValues.mpr ⟨hinner, hvalue⟩
      refine ⟨⟨position, .inside hnest hinner hwithin, havailable⟩, .inr ⟨_, hmember, hinfinite, ?_⟩⟩
      intro other hother
      rcases mem_memberValues.mp hother with ⟨hchild, hx⟩
      exact hle other.1 hchild other.2 hx
    | members hother hholds halternatives hnests =>
      rcases Option.some.inj (hnest.symm.trans hother) with rfl
      refine ⟨hholds, .inl ?_⟩
      intro child hchild
      by_contra hvalue
      rcases Option.ne_none_iff_exists'.mp hvalue with ⟨x, hx⟩
      cases child with
      | alternative position =>
        have hunavailable := halternatives position hchild
        have hutility : v.utility? position = some x := hx
        simp [UtilityVector.isAvailable, hutility] at hunavailable
      | nest inner =>
        have hinner := hnests inner hchild (holds_of_childValue formed hx)
        exact hvalue ((ih inner hchild).mp hinner).2
  · rintro ⟨hholds, hnone | ⟨⟨child, largest⟩, hmember, hinfinite, hle⟩⟩
    · refine .members hnest hholds ?_ ?_
      · intro position hposition
        have hutility : v.utility? position = none := hnone _ hposition
        simp [UtilityVector.isAvailable, hutility]
      · intro inner hinner hinnerHolds
        exact (ih inner hinner).mpr ⟨hinnerHolds, hnone _ hinner⟩
    · rcases mem_memberValues.mp hmember with ⟨hchild, hvalue⟩
      cases child with
      | alternative position =>
        have hutility : v.utility? position = some largest := hvalue
        rw [hfinite largest (mem_availableUtilities_of_utility? hutility)] at hinfinite
        cases hinfinite
      | nest inner =>
        refine .overflow ⟨nest, inner, largest, hnest, hchild, hvalue, hinfinite, ?_⟩
        intro other hother x hx
        have hotherMember : (other, x) ∈ memberValues v (composites tree v) nest.children :=
          mem_memberValues.mpr ⟨hother, hx⟩
        exact hle _ hotherMember

end

/-- No nest is lost unless a composite utility overflows. -/
theorem exists_drops_iff {tree : NestTree α} {v : UtilityVector α} :
    (∃ index, Drops tree v index) ↔ ∃ index, Overflows tree v index := by
  constructor
  · rintro ⟨index, hdrops⟩
    induction hdrops with
    | overflow hoverflows => exact ⟨_, hoverflows⟩
    | members hnest hholds halternatives _ ih =>
      rcases hholds with ⟨position, hwithin, havailable⟩
      cases hwithin with
      | inside hother hchild hwithin =>
        rcases Option.some.inj (hnest.symm.trans hother) with rfl
        rename_i child
        cases child with
        | alternative other =>
          cases hwithin with
          | here => simp [halternatives position hchild] at havailable
        | nest inner => exact ih inner hchild ⟨position, hwithin, havailable⟩
  · rintro ⟨index, hoverflows⟩
    exact ⟨index, .overflow hoverflows⟩

end Logit
end DiscreteChoice
