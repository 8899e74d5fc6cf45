import DiscreteChoice.Proofs.Logit.Rivals
import DiscreteChoice.Proofs.Logit.UnitScales

/-!
# Regularity

A model is regular for two alternatives when making the second one available never raises the
probability of the first one. A scale of a nest is any number in (0, 1] here, whatever the scales of the
nests around it are, so that not every tree is regular. It is regular for two alternatives exactly when
no nest around the one where they meet has a larger scale, nests with nothing beside them apart.

Main results:

- Theorem `Logit.exists_run`: what both models compute for a tree that lays out a nesting.
- Theorem `Logit.isRegular_iff`: for which alternatives a tree is regular.
- Theorem `Logit.transit_gains`: a tree that is not.
-/

namespace DiscreteChoice

/-- The vector in which the alternative at a position is available with a utility. -/
def UtilityVector.enable {α : Type} (v : UtilityVector α) (position : Nat) (u : α) :
    UtilityVector α :=
  { v with entries := v.entries.setIfInBounds position (some u) }

@[simp] theorem UtilityVector.size_enable {α : Type} (v : UtilityVector α) (position : Nat) (u : α) :
    (v.enable position u).size = v.size := by
  simp [enable, size]

namespace Logit

open NestTree Nesting

variable {v : UtilityVector Exact} {tree : NestTree Exact} {nesting : Nesting Exact}
  {count i j : Nat}

/-- Making an alternative available opens it. -/
theorem utility?_enable (hj : j < v.size) (u : Exact) :
    (v.enable j u).utility? = opened v.utility? j u := by
  funext position
  by_cases hself : position = j
  · subst hself
    rw [opened_self, UtilityVector.utility?, UtilityVector.enable,
      Array.getElem?_setIfInBounds_self_of_lt hj, Option.join_some]
  · rw [opened_of_ne hself, UtilityVector.utility?, UtilityVector.enable,
      Array.getElem?_setIfInBounds_ne (Ne.symm hself), UtilityVector.utility?]

/-- For a tree that lays out a nesting both models give an alternative its chance in the nesting. -/
theorem exists_run (h : tree.LaysOut nesting count) (hsize : v.size = count)
    (hsome : ∃ position, v.isAvailable position = true) :
    ∃ logsum, probabilities tree v = .ok (nesting.chances v.utility? count, logsum) := by
  have hvalue := (value?_ne_none_iff_available h hsize).mpr hsome
  rcases Option.ne_none_iff_exists'.mp hvalue with ⟨logsum, hlogsum⟩
  refine ⟨logsum, ?_⟩
  rw [(probabilities_eq_nested h hsize).1, nestedProbabilities_of_value h hsize hlogsum]

/-- Making the second of two alternatives available, with whatever utility, never raises the probability
of the first one, which both runs give. -/
def IsRegular (tree : NestTree Exact) (count i j : Nat) : Prop :=
  ∀ (v : UtilityVector Exact) (u : Exact), v.size = count → v.isAvailable i = true →
    v.isAvailable j = false →
    ∃ p logsum p' logsum' q q', probabilities tree v = .ok (p, logsum) ∧
      probabilities tree (v.enable j u) = .ok (p', logsum') ∧
      p[i]? = some q ∧ p'[i]? = some q' ∧ q'.toReal ≤ q.toReal

/-- A tree is regular for two alternatives when no chances in its nesting rise. -/
theorem isRegular_iff_chance_le (h : tree.LaysOut nesting count) (hi : i < count) (hj : j < count)
    (hne : i ≠ j) : IsRegular tree count i j ↔
      ∀ (v : UtilityVector Exact) (u : Exact), v.size = count → v.isAvailable i = true →
        v.isAvailable j = false →
        nesting.chance (opened v.utility? j u) i ≤ nesting.chance v.utility? i := by
  have hruns (v : UtilityVector Exact) (u : Exact) (hsize : v.size = count)
      (havailable : v.isAvailable i = true) :
      ∃ logsum logsum', probabilities tree v = .ok (nesting.chances v.utility? count, logsum) ∧
        probabilities tree (v.enable j u) =
          .ok (nesting.chances (opened v.utility? j u) count, logsum') := by
    have hopen : (v.enable j u).utility? = opened v.utility? j u := utility?_enable (by omega) u
    have havailable' : (v.enable j u).isAvailable i = true := by
      rw [UtilityVector.isAvailable, hopen, opened_of_ne hne]
      exact havailable
    rcases exists_run h hsize ⟨i, havailable⟩ with ⟨logsum, hrun⟩
    rcases exists_run h ((v.size_enable j u).trans hsize) ⟨i, havailable'⟩ with ⟨logsum', hrun'⟩
    rw [hopen] at hrun'
    exact ⟨logsum, logsum', hrun, hrun'⟩
  constructor
  · intro hregular v u hsize havailable hclosed
    rcases hregular v u hsize havailable hclosed with
      ⟨p, _, p', _, q, q', hp, hp', hq, hq', hle⟩
    rcases hruns v u hsize havailable with ⟨_, _, hrun, hrun'⟩
    rcases Prod.mk.inj (Except.ok.inj (hp.symm.trans hrun)) with ⟨rfl, -⟩
    rcases Prod.mk.inj (Except.ok.inj (hp'.symm.trans hrun')) with ⟨rfl, -⟩
    rw [getElem?_chances hi, Option.some.injEq] at hq hq'
    rw [← hq, ← hq'] at hle
    exact hle
  · intro hchance v u hsize havailable hclosed
    rcases hruns v u hsize havailable with ⟨logsum, logsum', hrun, hrun'⟩
    exact ⟨_, logsum, _, logsum', _, _, hrun, hrun', getElem?_chances hi, getElem?_chances hi,
      hchance v u hsize havailable hclosed⟩

/-- The utilities of the alternatives of a nesting as a vector. -/
theorem exists_vector (count : Nat) {utility? : Nat → Option Exact}
    (hnone : ∀ position, count ≤ position → utility? position = none) :
    ∃ v : UtilityVector Exact, v.size = count ∧ v.utility? = utility? := by
  refine ⟨⟨0, (Array.range count).map utility?⟩, by simp [UtilityVector.size], ?_⟩
  funext position
  by_cases hposition : position < count
  · simp [UtilityVector.utility?, hposition]
  · simp [UtilityVector.utility?, hposition, hnone position (not_lt.mp hposition)]

/-- For every tree that can be built and every two alternatives, the nest where they meet and the nests
around it that hold further alternatives decide: the tree is regular for the two exactly when none of
those around has a larger scale. -/
theorem isRegular_iff (built : tree.IsBuilt count) (hi : i < count) (hj : j < count) (hne : i ≠ j) :
    ∃ nesting inner around, Unfolds tree.nests (.nest 0) nesting ∧ Meets i j nesting inner around ∧
      (IsRegular tree count i j ↔ ∀ scale ∈ around, scale.toReal ≤ inner.toReal) := by
  rcases built.laysOut Exact.isScale_one with ⟨nesting, h⟩
  have hnodup := h.nodup_positions
  have hscales : nesting.HasScales fun scale => 0 < scale.toReal := by
    refine h.unfolds.hasScales ?_
    intro nest hnest
    rcases Array.mem_iff_getElem?.mp hnest with ⟨index, hindex⟩
    exact ((Exact.isScale_iff nest.scale).mp (h.formed.nest hindex).scale).1
  rcases exists_meets (h.mem_positions.mpr hi) (h.mem_positions.mpr hj) hne with ⟨inner, around, hmeets⟩
  refine ⟨nesting, inner, around, h.unfolds, hmeets, ?_⟩
  rw [isRegular_iff_chance_le h hi hj hne]
  constructor
  · intro hchance scale hscale
    by_contra hlarger
    rcases hmeets.gains hscales hnodup ⟨scale, hscale, not_le.mp hlarger⟩ with
      ⟨utility?, u, hnone, havailable, hclosed, hgain⟩
    rcases exists_vector count fun position hposition => hnone position fun hinside =>
      not_lt.mpr hposition (h.mem_positions.mp hinside) with ⟨v, hsize, rfl⟩
    exact not_lt.mpr (hchance v u hsize (Option.isSome_iff_ne_none.mpr havailable)
      (Option.not_isSome_iff_eq_none.mpr hclosed |> Bool.eq_false_iff.mpr)) hgain
  · intro haround v u _ havailable hclosed
    refine hmeets.chance_le hscales hnodup (Option.isSome_iff_ne_none.mp havailable) ?_ haround
    simpa [UtilityVector.isAvailable] using hclosed

/-- The way on foot meets the ways of transit at the root only, so that the tree is regular for it. -/
theorem foot_isRegular :
    (walkAndTransitTree ⟨1 / 2⟩ : NestTree Exact).IsBuilt 3 ∧ 0 < 3 ∧ 1 < 3 ∧ 0 ≠ 1 ∧
      IsRegular (walkAndTransitTree ⟨1 / 2⟩) 3 0 1 := by
  have built : (walkAndTransitTree ⟨1 / 2⟩ : NestTree Exact).IsBuilt 3 :=
    isBuilt_walkAndTransitTree (by norm_num) (by norm_num)
  have hlays : (walkAndTransitTree ⟨1 / 2⟩).LaysOut
      (.nest "root" 1 [.alternative 0, transit ⟨1 / 2⟩]) 3 :=
    laysOut_walkAndTransitTree (by norm_num) (by norm_num)
  refine ⟨built, by decide, by decide, by decide, ?_⟩
  rcases isRegular_iff built (i := 0) (j := 1) (by decide) (by decide) (by decide) with
    ⟨nesting, inner, around, hunfolds, hmeets, hiff⟩
  rcases hunfolds.unique hlays.unfolds with rfl
  -- no member of the root holds both
  have hapart : ∀ member ∈ [Nesting.alternative 0, transit ⟨1 / 2⟩],
      ¬(0 ∈ member.positions ∧ 1 ∈ member.positions) := by
    simp [transit, positions]
  have hnone : around = [] := by
    cases hmeets with
    | here => rfl
    | alone hmember hmeets _ =>
      exact absurd ⟨hmeets.mem_positions.1, hmeets.mem_positions.2.1⟩ (hapart _ hmember)
    | beside hmember hmeets _ _ =>
      exact absurd ⟨hmeets.mem_positions.1, hmeets.mem_positions.2.1⟩ (hapart _ hmember)
  rw [hiff, hnone]
  simp

/-! ## A tree that is not regular -/

/-- The way on foot is preferred, and of the two ways of transit one is available. -/
noncomputable def footPreferred : UtilityVector Exact :=
  ⟨7, #[some ⟨Real.log 8⟩, some 0, none]⟩

/-- The chance of the first way of transit, which has a weight of one in the transit nest. -/
theorem chance_transit {utility? : Nat → Option Exact} {total : ℝ}
    (hfoot : utility? 0 = some ⟨Real.log 8⟩) (hfirst : utility? 1 = some 0)
    (hsecond : Nesting.weight ⟨1 / 2⟩ (utility? 2) + 1 = total) :
    chance utility? 1 (.nest "root" 1 [.alternative 0, transit ⟨1 / 2⟩]) =
      total ^ 2 / (8 + total ^ 2) * (1 / total) := by
  have hpos : 0 < total := by
    rw [← hsecond]
    exact add_pos_of_nonneg_of_pos (weight_nonneg _ _) one_pos
  have hinside : Nesting.total ⟨1 / 2⟩ [utility? 2, utility? 1] = total := by
    rw [← hsecond, hfirst]
    simp [Nesting.weight]
  rcases value?_transit hpos hinside with ⟨hvalue, hweight⟩
  have hroot : share utility? 1 [.alternative 0, transit ⟨1 / 2⟩] (transit ⟨1 / 2⟩) =
      total ^ 2 / (8 + total ^ 2) := by
    rw [share, List.map_cons, List.map_cons, List.map_nil, hvalue, value?, hfoot]
    simp [Nesting.weight, hweight, Real.exp_log]
  have hnest : share utility? ⟨1 / 2⟩ [.alternative 2, .alternative 1] (.alternative 1) =
      1 / total := by
    rw [share, List.map_cons, List.map_cons, List.map_nil, value?, value?, hinside, hfirst]
    simp [Nesting.weight]
  rw [← hroot, ← hnest, chance_nest]
  simp [chance, transit]

/-- In a transit nest of scale one half inside a root of scale one, the first way of transit gains when
the second one becomes available: the nest becomes four times as attractive, and half of it is more than
the whole was, because the way on foot has most of the weight. -/
theorem transit_gains :
    (walkAndTransitTree ⟨1 / 2⟩ : NestTree Exact).IsBuilt 3 ∧ footPreferred.size = 3 ∧
      footPreferred.isAvailable 1 = true ∧ footPreferred.isAvailable 2 = false ∧
      ∃ p logsum p' logsum',
        probabilities (walkAndTransitTree ⟨1 / 2⟩) footPreferred = .ok (p, logsum) ∧
        probabilities (walkAndTransitTree ⟨1 / 2⟩) (footPreferred.enable 2 0) = .ok (p', logsum') ∧
        p[1]? = some ⟨1 / 9⟩ ∧ p'[1]? = some ⟨1 / 6⟩ ∧
        ¬IsRegular (walkAndTransitTree ⟨1 / 2⟩) 3 1 2 := by
  have hlays : (walkAndTransitTree ⟨1 / 2⟩).LaysOut
      (.nest "root" 1 [.alternative 0, transit ⟨1 / 2⟩]) 3 :=
    laysOut_walkAndTransitTree (by norm_num) (by norm_num)
  have hsome : ∃ position, footPreferred.isAvailable position = true := ⟨1, rfl⟩
  have hsome' : ∃ position, (footPreferred.enable 2 0).isAvailable position = true := ⟨1, rfl⟩
  rcases exists_run hlays rfl hsome with ⟨logsum, hrun⟩
  rcases exists_run hlays rfl hsome' with ⟨logsum', hrun'⟩
  have hbefore : ((Nesting.nest "root" 1 [.alternative 0, transit ⟨1 / 2⟩]).chances
      footPreferred.utility? 3)[1]? = some ⟨1 / 9⟩ := by
    have hone : Nesting.weight ⟨1 / 2⟩ (footPreferred.utility? 2) + 1 = 1 := zero_add 1
    rw [getElem?_chances (by decide), chance_transit rfl rfl hone]
    norm_num
  have hafter : ((Nesting.nest "root" 1 [.alternative 0, transit ⟨1 / 2⟩]).chances
      (footPreferred.enable 2 0).utility? 3)[1]? = some ⟨1 / 6⟩ := by
    have htwo : Nesting.weight ⟨1 / 2⟩ ((footPreferred.enable 2 0).utility? 2) + 1 = 2 := by
      have hzero : (footPreferred.enable 2 0).utility? 2 = some 0 := rfl
      rw [hzero, Nesting.weight, Exact.toReal_zero, mul_zero, Real.exp_zero]
      norm_num
    rw [getElem?_chances (by decide), chance_transit rfl rfl htwo]
    norm_num
  refine ⟨isBuilt_walkAndTransitTree (by norm_num) (by norm_num), rfl, rfl, rfl, _, _, _, _, hrun,
    hrun', hbefore, hafter, ?_⟩
  intro hregular
  rcases hregular footPreferred 0 rfl rfl rfl with ⟨p, _, p', _, q, q', hp, hp', hq, hq', hle⟩
  rcases Prod.mk.inj (Except.ok.inj (hp.symm.trans hrun)) with ⟨rfl, -⟩
  rcases Prod.mk.inj (Except.ok.inj (hp'.symm.trans hrun')) with ⟨rfl, -⟩
  rcases Option.some.inj (hq.symm.trans hbefore) with rfl
  rcases Option.some.inj (hq'.symm.trans hafter) with rfl
  norm_num at hle

end Logit
end DiscreteChoice
