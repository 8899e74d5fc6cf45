import DiscreteChoice.Logit.Probability
import DiscreteChoice.Proofs.Logit.Composite

/-!
# Probabilities are shares of one

Both models give every alternative a share of one. In the nested model the share of a nest is
multiplied by the exponential of how far a member is below the log-sum-exp of its nest, which is a
share again. There are no probabilities when nothing is available or when everything that is available
is lost below the root.

Main results:

- Theorem `Logit.Reach.Shares.divide`: dividing the share of a nest leaves shares.
- Theorem `Logit.probabilities_spec`: both models have probabilities unless the root is lost.
- Theorem `Logit.probabilities_of_drops`: there are none when the root is lost.
-/

namespace DiscreteChoice
namespace Logit

open Numeric LawfulNumeric RoundingNumeric

variable {α : Type} [Numeric α] [RoundingNumeric α]

/-! ## The nested model -/

/-- Alternatives and nests are reached with shares of one. -/
structure Reach.Shares (reach : Reach α) : Prop where
  alternatives : ∀ p ∈ reach.alternatives, IsShare p
  nests : ∀ p ∈ reach.nests, IsShare p

/-- Setting an entry to a share leaves shares. -/
theorem isShare_setIfInBounds {xs : Array α} (hxs : ∀ x ∈ xs, IsShare x) {share : α}
    (hshare : IsShare share) (index : Nat) : ∀ x ∈ xs.setIfInBounds index share, IsShare x := by
  intro x hx
  rcases Array.mem_or_eq_of_mem_setIfInBounds hx with hx | rfl
  · exact hxs x hx
  · exact hshare

/-- At the root there are shares. -/
theorem Reach.Shares.atRoot (tree : NestTree α) (v : UtilityVector α) :
    (Reach.atRoot tree v).Shares where
  alternatives p hp := by
    rw [(Array.mem_replicate.mp hp).2]
    exact isShare_zero
  nests := by
    apply isShare_setIfInBounds _ isShare_one
    intro p hp
    rw [(Array.mem_replicate.mp hp).2]
    exact isShare_zero

/-- Reaching a member with a share leaves shares. -/
theorem Reach.Shares.assign {reach : Reach α} (h : reach.Shares) {share : α}
    (hshare : IsShare share) (child : Child) : (reach.assign child share).Shares := by
  cases child with
  | alternative position =>
    exact ⟨isShare_setIfInBounds h.alternatives hshare position, h.nests⟩
  | nest index => exact ⟨h.alternatives, isShare_setIfInBounds h.nests hshare index⟩

/-- Reaching members with shares leaves shares. -/
theorem Reach.Shares.assignAll (share : Child × α → α) {members : List (Child × α)}
    (hshares : ∀ member ∈ members, IsShare (share member)) {reach : Reach α} (h : reach.Shares) :
    (members.foldl (fun reach member => reach.assign member.1 (share member)) reach).Shares := by
  induction members generalizing reach with
  | nil => exact h
  | cons member members ih =>
    have hfirst := h.assign (hshares member List.mem_cons_self) member.1
    exact ih (fun other hother => hshares other (List.mem_cons_of_mem _ hother)) hfirst

/-- A nest has a share, which is zero where there is none. -/
theorem Reach.Shares.nest {reach : Reach α} (h : reach.Shares) (index : Nat) :
    IsShare (reach.nests[index]?.getD 0) := by
  cases hindex : reach.nests[index]? with
  | none => exact isShare_zero
  | some own => exact h.nests own (Array.mem_of_getElem? hindex)

/-- Dividing the share of a nest leaves shares. -/
theorem Reach.Shares.divide (functions : LawfulFunctions α) {reach : Reach α} (h : reach.Shares)
    {v : UtilityVector α} {found : Array (Option α)} {nest : Nest α} (hscale : IsScale nest.scale)
    (hdefined : ∀ child x, childValue? v found child = some x → isNaN x = false) (index : Nat) :
    (reach.divide v found index nest).Shares := by
  have hown := h.nest index
  have hmembers : ∀ member ∈ memberValues v found nest.children, isNaN member.2 = false := by
    intro member hmember
    exact hdefined member.1 member.2 (mem_memberValues.mp hmember).2
  have hscaled := isNaN_scaledValues hscale hmembers
  unfold Reach.divide
  simp only
  split
  · exact h
  · split
    · exact h
    · rename_i denominator hdenominator
      rcases logSumExp?_spec functions hscaled hdenominator with ⟨hnan, hbot, hle⟩
      refine h.assignAll _ ?_
      intro member hmember
      have hmem : nest.scale * member.2 ∈ scaledValues nest (memberValues v found nest.children) :=
        List.mem_map_of_mem hmember
      rcases hle _ hmem with ⟨hbelow, htop⟩
      rcases sub_nonpos (hscaled _ hmem) hnan htop hbot hbelow with ⟨hsub, hnonpos⟩
      exact hown.mul (functions.isShare_exp _ hsub hnonpos)

variable {tree : NestTree α} {count : Nat} {v : UtilityVector α}

/-- In the end there are shares. -/
theorem Reach.shares_final (functions : LawfulFunctions α) (formed : tree.IsFormed count)
    (hfinite : ∀ u ∈ v.availableUtilities, isFinite u = true) : (Reach.final tree v).Shares := by
  apply Reach.final_induction (motive := fun _ reach => reach.Shares) (.atRoot tree v)
  intro stage reach nest hnest hreach
  exact hreach.divide functions (.of_check (formed.nest hnest).scale)
    (fun child x hx => isNaN_childValue functions formed hfinite hx) stage

/-- The nested model has shares of one and a logsum when the root has a composite utility. -/
theorem nestedProbabilities_of_some (functions : LawfulFunctions α) (formed : tree.IsFormed count)
    (hfinite : ∀ u ∈ v.availableUtilities, isFinite u = true) {logsum : α}
    (hroot : childValue? v (composites tree v) (.nest 0) = some logsum) :
    ∃ p, nestedProbabilities tree v = .ok (p, logsum) ∧ ∀ q ∈ p, IsShare q := by
  have hshares := Reach.shares_final functions formed hfinite
  have hlogsum : nestedLogsum tree v = .ok logsum := by
    rw [childValue?] at hroot
    rw [nestedLogsum, hroot]
  refine ⟨_, ?_, hshares.alternatives⟩
  rw [nestedProbabilities_eq, hlogsum]
  rfl

/-! ## Both models -/

omit [RoundingNumeric α] in
/-- A flat tree loses nothing. -/
theorem not_drops_of_isFlat (formed : tree.IsFormed count) (hflat : tree.isFlat = true)
    (index : Nat) : ¬Drops tree v index := by
  intro hdrops
  rcases exists_drops_iff.mp ⟨index, hdrops⟩ with ⟨outer, nest, inner, -, hnest, hinner, -⟩
  have hsize : tree.size = 1 := by
    unfold NestTree.isFlat at hflat
    split at hflat
    · rename_i root hroot
      rw [NestTree.size, ← Array.length_toList, hroot, List.length_singleton]
    · cases hflat
  have := (formed.nest hnest).later inner hinner
  omega

omit [RoundingNumeric α] in
/-- Something that is available is below the root. -/
theorem holds_root (formed : tree.IsFormed count) (hsize : v.size ≤ count)
    (hsome : v.availableUtilities ≠ []) : Holds tree v (.nest 0) := by
  rcases List.exists_mem_of_ne_nil _ hsome with ⟨u, hu⟩
  rcases Array.mem_iff_getElem?.mp (mem_availableUtilities.mp hu) with ⟨position, hposition⟩
  have hbound : position < v.size := (Array.getElem?_eq_some_iff.mp hposition).1
  refine ⟨position, formed.within (hbound.trans_le hsize), ?_⟩
  simp [UtilityVector.isAvailable, UtilityVector.utility?, hposition]

omit [RoundingNumeric α] in
/-- Without anything available there are no probabilities. -/
theorem probabilities_of_nothing (formed : tree.IsFormed count)
    (hnone : v.availableUtilities = []) : probabilities tree v = .error (.nothingAvailable v.id) := by
  cases hflat : tree.isFlat with
  | true =>
    have hp : flatProbabilities v = .error (.nothingAvailable v.id) := by
      rw [flatProbabilities, hnone]
      rfl
    rw [probabilities_of_flat hflat, hp]
    rfl
  | false =>
    have hroot : childValue? v (composites tree v) (.nest 0) = none := by
      by_contra hvalue
      rcases Option.ne_none_iff_exists'.mp hvalue with ⟨x, hx⟩
      rcases holds_of_childValue formed hx with ⟨position, -, havailable⟩
      rcases Option.isSome_iff_exists.mp havailable with ⟨u, hu⟩
      have hmem := mem_availableUtilities_of_utility? hu
      rw [hnone] at hmem
      cases hmem
    rw [childValue?] at hroot
    rw [probabilities, if_neg (by simp [hflat]), nestedProbabilities, nestedLogsum, hroot]
    rfl

/-- When the root is lost there are neither probabilities nor a logsum. -/
theorem probabilities_of_drops (functions : LawfulFunctions α) (formed : tree.IsFormed count)
    (hfinite : ∀ u ∈ v.availableUtilities, isFinite u = true) (hdrops : Drops tree v 0) :
    probabilities tree v = .error (.nothingAvailable v.id) ∧
      logsum tree v = .error (.nothingAvailable v.id) := by
  have hnested : tree.isFlat = false := by
    rw [← Bool.not_eq_true]
    exact fun hflat => not_drops_of_isFlat formed hflat 0 hdrops
  have hroot := ((drops_iff functions formed hfinite formed.root).mp hdrops).2
  have hlogsum : nestedLogsum tree v = .error (.nothingAvailable v.id) := by
    rw [childValue?] at hroot
    rw [nestedLogsum, hroot]
  constructor
  · rw [probabilities, if_neg (by simp [hnested]), nestedProbabilities, hlogsum]
    rfl
  · rw [logsum, if_neg (by simp [hnested]), hlogsum]

/-- When something is available and the root is not lost, every alternative has a share of one, which
is positive for some alternative of a flat tree. -/
theorem probabilities_spec (functions : LawfulFunctions α) (formed : tree.IsFormed count)
    (hfinite : ∀ u ∈ v.availableUtilities, isFinite u = true) (hsize : v.size ≤ count)
    (hsome : v.availableUtilities ≠ []) (hdrops : ¬Drops tree v 0) :
    ∃ p total, probabilities tree v = .ok (p, total) ∧ logsum tree v = .ok total ∧
      (∀ q ∈ p, IsShare q) ∧ (tree.isFlat = true → ∃ q ∈ p, 0 < value q) := by
  cases hflat : tree.isFlat with
  | true =>
    rcases flatProbabilities_spec functions hfinite hsome with ⟨p, hp, hshares, hpositive⟩
    rcases flatLogsum_spec hfinite hsome with ⟨total, htotal⟩
    refine ⟨p, total, ?_, ?_, hshares, fun _ => hpositive⟩
    · rw [probabilities_of_flat hflat, hp, htotal]
      rfl
    · rw [logsum, if_pos hflat, htotal]
  | false =>
    have hroot : childValue? v (composites tree v) (.nest 0) ≠ none := by
      intro hnone
      exact hdrops ((drops_iff functions formed hfinite formed.root).mpr
        ⟨holds_root formed hsize hsome, hnone⟩)
    rcases Option.ne_none_iff_exists'.mp hroot with ⟨total, htotal⟩
    rcases nestedProbabilities_of_some functions formed hfinite htotal with ⟨p, hp, hshares⟩
    have hlogsum : nestedLogsum tree v = .ok total := by
      rw [childValue?] at htotal
      rw [nestedLogsum, htotal]
    refine ⟨p, total, ?_, ?_, hshares, by simp⟩
    · rw [probabilities, if_neg (by simp [hflat]), hp]
    · rw [logsum, if_neg (by simp [hflat]), hlogsum]

end Logit
end DiscreteChoice
