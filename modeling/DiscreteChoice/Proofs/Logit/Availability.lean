import DiscreteChoice.Logit.Probability
import DiscreteChoice.Proofs.Numeric.Laws
import DiscreteChoice.Proofs.Outcome

/-!
# Probabilities of unavailable alternatives

In both models the probability of an alternative that is not available is not positive. In the flat
model it is a share of nothing. In the nested model a probability is only given to members of a nest
that have a value, which an unavailable alternative has not.

Main results:

- Theorem `Logit.size_probabilities`: there is one probability per alternative.
- Theorem `Logit.probabilities_positive`: an alternative with a positive probability is available.
-/

namespace DiscreteChoice
namespace Logit

open Numeric

variable {α : Type} [Numeric α]

/-! ## The flat model -/

/-- The flat probability of an alternative is its weight divided by the sum of the weights. -/
theorem flatProbabilities_getElem? {v : UtilityVector α} {p : Array α}
    (h : flatProbabilities v = .ok p) :
    ∃ largest total, ∀ position : Nat,
      p[position]? = v.entries[position]?.map fun entry => weight largest entry / total := by
  unfold flatProbabilities at h
  split at h
  · simp at h
  · rename_i largest hlargest
    split at h
    · simp only [Except.ok.injEq] at h
      subst h
      exact ⟨largest, _, fun position => Array.getElem?_map⟩
    · simp at h

/-- In the flat model an alternative with a positive probability is available. -/
theorem flatProbabilities_positive [LawfulNumeric α] {v : UtilityVector α} {p : Array α}
    (h : flatProbabilities v = .ok p) {position : Nat} {probability : α}
    (hp : p[position]? = some probability) (hpositive : lt 0 probability = true) :
    v.isAvailable position = true := by
  rcases flatProbabilities_getElem? h with ⟨largest, total, hentries⟩
  rw [hentries] at hp
  rcases Option.map_eq_some_iff.mp hp with ⟨entry, hentry, rfl⟩
  cases entry with
  | none => simp [weight] at hpositive
  | some u => simp [UtilityVector.isAvailable, UtilityVector.utility?, hentry]

/-! ## The nested model -/

omit [Numeric α] in
/-- The members of a nest with a value are those that were kept. -/
theorem mem_memberValues {v : UtilityVector α} {composites : Array (Option α)}
    {children : List Child} {member : Child × α} :
    member ∈ memberValues v composites children ↔
      member.1 ∈ children ∧ childValue? v composites member.1 = some member.2 := by
  rcases member with ⟨child, value⟩
  simp only [memberValues, List.mem_filterMap, Option.map_eq_some_iff, Prod.mk.injEq]
  constructor
  · rintro ⟨_, hmem, _, hvalue, rfl, rfl⟩
    exact ⟨hmem, hvalue⟩
  · rintro ⟨hmem, hvalue⟩
    exact ⟨child, hmem, value, hvalue, rfl, rfl⟩

/-- The probabilities with which alternatives and nests are reached in the end. -/
def Reach.final (tree : NestTree α) (v : UtilityVector α) : Reach α :=
  tree.nests.toList.zipIdx.foldl
    (fun reach entry => reach.divide v (composites tree v) entry.2 entry.1) (Reach.atRoot tree v)

/-- The probabilities of the nested model are those with which the alternatives are reached in the
end. -/
theorem nestedProbabilities_eq (tree : NestTree α) (v : UtilityVector α) :
    nestedProbabilities tree v =
      (nestedLogsum tree v).map fun logsum => ((Reach.final tree v).alternatives, logsum) := by
  rw [nestedProbabilities, Reach.final]
  cases nestedLogsum tree v <;> rfl

/-- What holds at the root, and is passed on to the next stage by dividing the nest at one, holds in the
end. -/
theorem Reach.final_induction {tree : NestTree α} {v : UtilityVector α} {motive : Nat → Reach α → Prop}
    (start : motive 0 (Reach.atRoot tree v))
    (step : ∀ stage reach nest, tree.nest? stage = some nest → motive stage reach →
      motive (stage + 1) (reach.divide v (composites tree v) stage nest)) :
    motive tree.size (Reach.final tree v) := by
  have hwalk (nests : List (Nest α)) (stage : Nat) (reach : Reach α) (h : motive stage reach)
      (hnests : ∀ i, nests[i]? = tree.nest? (stage + i)) :
      motive (stage + nests.length) ((nests.zipIdx stage).foldl
        (fun reach entry => reach.divide v (composites tree v) entry.2 entry.1) reach) := by
    induction nests generalizing stage reach with
    | nil => exact h
    | cons nest nests ih =>
      have hrest := ih (stage + 1) _ (step stage reach nest (hnests 0).symm h) fun i => by
        rw [Nat.add_assoc, Nat.add_comm 1, ← hnests (i + 1), List.getElem?_cons_succ]
      rwa [Nat.add_assoc, Nat.add_comm 1] at hrest
  have hall := hwalk tree.nests.toList 0 _ start fun i => by simp [NestTree.nest?]
  simpa [NestTree.size, Reach.final] using hall

/-- The alternatives that are not available are reached with probability zero, where there is one
probability per alternative. -/
structure Reach.Sound (v : UtilityVector α) (reach : Reach α) : Prop where
  size_eq : reach.alternatives.size = v.size
  unavailable {position : Nat} {probability : α} :
    reach.alternatives[position]? = some probability → v.isAvailable position = false →
      probability = 0

/-- At the root no alternative is reached. -/
theorem Reach.Sound.atRoot (tree : NestTree α) (v : UtilityVector α) :
    (Reach.atRoot tree v).Sound v where
  size_eq := by simp [Reach.atRoot]
  unavailable hp _ := by
    simp only [Reach.atRoot, Array.getElem?_replicate] at hp
    split at hp
    · exact (Option.some.inj hp).symm
    · simp at hp

/-- Setting the probability of a member that has a value reaches no unavailable alternative. -/
theorem Reach.Sound.assign {v : UtilityVector α} {reach : Reach α} (h : reach.Sound v)
    {composites : Array (Option α)} {child : Child} {value : α}
    (hvalue : childValue? v composites child = some value) (probability : α) :
    (reach.assign child probability).Sound v := by
  cases child with
  | nest index => exact ⟨h.size_eq, h.unavailable⟩
  | alternative place =>
    refine ⟨by simpa [Reach.assign] using h.size_eq, ?_⟩
    intro position p hp hunavailable
    have hplace : v.isAvailable place = true := by
      simp only [childValue?] at hvalue
      simp [UtilityVector.isAvailable, hvalue]
    have hne : place ≠ position := by
      rintro rfl
      simp [hplace] at hunavailable
    simp only [Reach.assign, Array.getElem?_setIfInBounds_ne hne] at hp
    exact h.unavailable hp hunavailable

/-- Setting the probabilities of members that have a value reaches no unavailable alternative. -/
theorem Reach.Sound.assignAll {v : UtilityVector α} {composites : Array (Option α)}
    (probability : Child × α → α) {members : List (Child × α)}
    (hmembers : ∀ member ∈ members, childValue? v composites member.1 = some member.2)
    {reach : Reach α} (h : reach.Sound v) :
    (members.foldl (fun reach member => reach.assign member.1 (probability member))
      reach).Sound v := by
  induction members generalizing reach with
  | nil => exact h
  | cons member members ih =>
    have hfirst := h.assign (hmembers member List.mem_cons_self) (probability member)
    exact ih (fun other hother => hmembers other (List.mem_cons_of_mem _ hother)) hfirst

/-- Dividing the probability of a nest reaches no unavailable alternative. -/
theorem Reach.Sound.divide {v : UtilityVector α} {reach : Reach α} (h : reach.Sound v)
    (composites : Array (Option α)) (index : Nat) (nest : Nest α) :
    (reach.divide v composites index nest).Sound v := by
  unfold Reach.divide
  simp only
  split
  · exact h
  · split
    · exact h
    · exact h.assignAll _ fun member hmember => (mem_memberValues.mp hmember).2

/-- In the end no unavailable alternative is reached. -/
theorem Reach.sound_final (tree : NestTree α) (v : UtilityVector α) :
    (Reach.final tree v).Sound v := by
  apply Reach.final_induction (motive := fun _ reach => reach.Sound v) (.atRoot tree v)
  intro stage reach nest _ hreach
  exact hreach.divide _ stage nest

/-- In the nested model an alternative that is not available has the probability zero. -/
theorem nestedProbabilities_sound {tree : NestTree α} {v : UtilityVector α} {p : Array α}
    {logsum : α} (h : nestedProbabilities tree v = .ok (p, logsum)) :
    p.size = v.size ∧ ∀ {position : Nat} {probability : α}, p[position]? = some probability →
      v.isAvailable position = false → probability = 0 := by
  have hsound := Reach.sound_final tree v
  rw [nestedProbabilities_eq] at h
  cases hlogsum : nestedLogsum tree v with
  | error e => simp [hlogsum, Except.map] at h
  | ok total =>
    rw [hlogsum] at h
    rcases Prod.mk.inj (Except.ok.inj h) with ⟨rfl, -⟩
    exact ⟨hsound.size_eq, hsound.unavailable⟩

/-! ## Both models -/

/-- There is one probability per alternative. -/
theorem size_probabilities {tree : NestTree α} {v : UtilityVector α} {p : Array α} {logsum : α}
    (h : probabilities tree v = .ok (p, logsum)) : p.size = v.size := by
  unfold probabilities at h
  split at h
  · simp only [bind_eq_ok, pure_eq_ok, Except.ok.injEq, Prod.mk.injEq] at h
    rcases h with ⟨q, hq, _, _, rfl, _⟩
    exact size_flatProbabilities hq
  · exact (nestedProbabilities_sound h).1

/-- An alternative with a positive probability is available. -/
theorem probabilities_positive [LawfulNumeric α] {tree : NestTree α} {v : UtilityVector α}
    {p : Array α} {logsum : α} (h : probabilities tree v = .ok (p, logsum)) {position : Nat}
    {probability : α} (hp : p[position]? = some probability)
    (hpositive : lt 0 probability = true) : v.isAvailable position = true := by
  unfold probabilities at h
  split at h
  · simp only [bind_eq_ok, pure_eq_ok, Except.ok.injEq, Prod.mk.injEq] at h
    rcases h with ⟨q, hq, _, _, rfl, _⟩
    exact flatProbabilities_positive hq hp hpositive
  · by_contra hunavailable
    rcases (nestedProbabilities_sound h).2 hp (by simpa using hunavailable) with rfl
    simp at hpositive

end Logit
end DiscreteChoice
