import DiscreteChoice.Logit.Probability
import DiscreteChoice.Proofs.Logit.NestedLogit

/-!
# Nests of scale one

A nest of scale one has the weight of its members. In a nesting in which every scale is one the weight of
the whole is therefore that of all available alternatives, and every alternative has the chance that it
has in the flat model. The flat tree is such a nesting, so that both models agree on it.

Main results:

- Theorem `Nesting.weight_value?_of_unit`: a nesting of scales of one has the weight of its alternatives.
- Theorem `Logit.nestedProbabilities_of_unit`: with scales of one the nested model is the flat one.
- Theorem `Logit.probabilities_eq_nested`: treating flat trees on their own changes no result.
- Theorem `Logit.nested_collapses`: both hold for every tree that can be built.
-/

namespace DiscreteChoice

open Numeric

/-! ## Weights and chances -/

namespace Nesting

variable {utility? : Nat → Option Exact} {position : Nat} {name : String} {scale : Exact}
  {members : List (Nesting Exact)} {nesting : Nesting Exact}

/-- The total weight of lists in a row is the sum of their total weights. -/
theorem total_flatMap {β : Type} (scale : Exact) (f : β → List (Option Exact)) (xs : List β) :
    total scale (xs.flatMap f) = (xs.map fun x => total scale (f x)).sum := by
  rw [total, List.map_flatMap, List.flatMap, List.sum_flatten, List.map_map]
  rfl

/-- The exponential of a composite utility of scale one is the sum of the weights. -/
theorem weight_composite? (values : List (Option Exact)) :
    weight 1 (composite? 1 values) = total 1 values := by
  cases hvalue : composite? 1 values with
  | none =>
    have hnone : ¬0 < total 1 values := by
      rw [total_pos_iff, ← composite?_ne_none_iff 1, hvalue]
      simp
    exact le_antisymm (total_nonneg 1 values) (not_lt.mp hnone)
  | some x =>
    have hpos : 0 < (1 : Exact).toReal := by simp
    rw [weight, total_eq_exp hpos hvalue]

/-- A nesting of scales of one has the weight of the alternatives in it. -/
theorem weight_value?_of_unit (hunit : nesting.HasScales (· = 1)) :
    weight 1 (nesting.value? utility?) = total 1 (nesting.positions.map utility?) := by
  induction nesting using Nesting.induction with
  | alternative position => simp [value?, positions]
  | nest name scale members ih =>
    rcases hasScales_nest.mp hunit with ⟨rfl, hmembers⟩
    rw [value?_nest, weight_composite?, positions, List.map_flatMap, total_flatMap, total, List.map_map]
    exact congrArg List.sum (List.map_congr_left fun member hmember =>
      ih member hmember (hmembers member hmember))

/-- In a nesting of scales of one the chance of an alternative is its weight among those of all
alternatives. -/
theorem chance_mul_total_of_unit (hunit : nesting.HasScales (· = 1)) (hnodup : nesting.positions.Nodup)
    (hposition : position ∈ nesting.positions) :
    nesting.chance utility? position * total 1 (nesting.positions.map utility?) =
      weight 1 (utility? position) := by
  induction nesting using Nesting.induction with
  | alternative other =>
    obtain rfl : position = other := by simpa [positions] using hposition
    simp [chance, positions]
  | nest name scale members ih =>
    have hmem := hposition
    rw [positions] at hmem
    rcases List.mem_flatMap.mp hmem with ⟨member, hmember, hinside⟩
    rcases hasScales_nest.mp hunit with ⟨rfl, hmembers⟩
    have hinner := ih member hmember (hmembers member hmember) (nodup_of_mem hnodup hmember) hinside
    have htotal : total 1 (members.map (value? utility?)) =
        total 1 ((nest name 1 members).positions.map utility?) := by
      rw [← weight_value?_of_unit hunit, value?_nest, weight_composite?]
    rw [chance_of_mem hnodup hmember hinside, share, htotal,
      weight_value?_of_unit (hmembers member hmember)]
    by_cases hzero : total 1 ((nest name 1 members).positions.map utility?) = 0
    · have hnone : utility? position = none := by
        by_contra hsome
        have hpos := (total_pos_iff 1).mpr ⟨_, List.mem_map_of_mem hposition, hsome⟩
        exact hpos.ne' hzero
      rw [hzero, mul_zero, hnone, weight]
    · rw [← hinner]
      field_simp

end Nesting

namespace Logit

open NestTree

variable {v : UtilityVector Exact} {tree : NestTree Exact} {nesting : Nesting Exact} {count : Nat}
  {child : Child}

/-! ## The flat model -/

/-- The exponentials of the available utilities add up to the total weight. -/
theorem sum_exp_availableUtilities (v : UtilityVector Exact) :
    (v.availableUtilities.map fun u => Real.exp u.toReal).sum =
      Nesting.total 1 v.entries.toList := by
  have hone := sum_exp_filterMap 1 (fun entry : Option Exact => entry) v.entries.toList
  rw [List.map_map, List.map_id'] at hone
  simpa [Function.comp_def, UtilityVector.availableUtilities] using hone

/-- In the flat model the probability of an alternative is its weight among those of all
alternatives. -/
theorem flatProbabilities_eq (hsome : v.availableUtilities ≠ []) : flatProbabilities v =
    .ok (v.entries.map fun entry =>
      ⟨Nesting.weight 1 entry / Nesting.total 1 v.entries.toList⟩) := by
  cases hmax : maximum? v.availableUtilities with
  | none => exact absurd (maximum?_eq_none_iff.mp hmax) hsome
  | some largest =>
    have htotal : (v.availableUtilities.foldl (fun total u => total + exp (u - largest)) 0).toReal =
        Nesting.total 1 v.entries.toList / Real.exp largest.toReal := by
      rw [← List.foldl_map, Exact.toReal_foldl_add, Exact.toReal_zero, zero_add,
        ← sum_exp_availableUtilities, ← sum_exp_sub, List.map_map]
      rfl
    have hweight (entry : Option Exact) : (weight largest entry).toReal =
        Nesting.weight 1 entry / Real.exp largest.toReal := by
      cases entry with
      | none => simp [weight, Nesting.weight]
      | some u => simp [weight, Nesting.weight, Real.exp_sub]
    rw [flatProbabilities, hmax]
    simp only [Exact.isFinite_eq, if_true, Except.ok.injEq]
    congr 1
    funext entry
    ext
    rw [Exact.toReal_div, htotal, hweight, div_div_div_cancel_right₀ (Real.exp_ne_zero _)]

/-- The logsum of the flat model is the logarithm of the total weight. -/
theorem flatLogsum_eq (hsome : v.availableUtilities ≠ []) :
    flatLogsum v = .ok ⟨Real.log (Nesting.total 1 v.entries.toList)⟩ := by
  rw [flatLogsum, logSumExp?_of_ne_nil hsome, sum_exp_availableUtilities]

/-! ## The nested model -/

/-- The alternatives of a nesting have the total weight of the vector. -/
theorem total_positions (h : tree.LaysOut nesting count) (hsize : v.size = count) :
    Nesting.total 1 (nesting.positions.map v.utility?) = Nesting.total 1 v.entries.toList := by
  rw [← v.map_utility?_range, hsize]
  exact ((h.positions.map _).map _).sum_eq

/-- With scales of one the chances are the shares of the weights. -/
theorem chances_of_unit (h : tree.LaysOut nesting count) (hsize : v.size = count)
    (hunit : nesting.HasScales (· = 1)) (hpos : 0 < Nesting.total 1 v.entries.toList) :
    nesting.chances v.utility? count = v.entries.map fun entry =>
      ⟨Nesting.weight 1 entry / Nesting.total 1 v.entries.toList⟩ := by
  apply Array.ext
  · simpa [Nesting.chances, UtilityVector.size] using hsize.symm
  · intro position hposition _
    have hcount : position < count := by simpa [Nesting.chances] using hposition
    have hbound : position < v.entries.size := hcount.trans_eq hsize.symm
    have hentry : v.utility? position = v.entries[position] := by
      rw [UtilityVector.utility?, Array.getElem?_eq_getElem hbound, Option.join_some]
    have hchance : nesting.chance v.utility? position *
        Nesting.total 1 (nesting.positions.map v.utility?) =
          Nesting.weight 1 (v.utility? position) :=
      Nesting.chance_mul_total_of_unit hunit h.nodup_positions (h.mem_positions.mpr hcount)
    rw [total_positions h hsize, ← eq_div_iff hpos.ne', hentry] at hchance
    ext
    simpa [Nesting.chances] using hchance

/-- With scales of one the nested model is the flat one. -/
theorem nestedProbabilities_of_unit (h : tree.LaysOut nesting count) (hsize : v.size = count)
    (hunit : nesting.HasScales (· = 1)) :
    (nestedProbabilities tree v = do
      let p ← flatProbabilities v
      let logsum ← flatLogsum v
      return (p, logsum)) ∧ nestedLogsum tree v = flatLogsum v := by
  have hweight : Nesting.weight 1 (nesting.value? v.utility?) =
      Nesting.total 1 v.entries.toList := by
    rw [Nesting.weight_value?_of_unit hunit, total_positions h hsize]
  have hlogsum := nestedLogsum_eq (v := v) h
  cases hvalue : nesting.value? v.utility? with
  | none =>
    have hnone : v.availableUtilities = [] := by
      by_contra hsome
      have hpos := sum_exp_pos hsome
      rw [sum_exp_availableUtilities, ← hweight, hvalue] at hpos
      exact lt_irrefl 0 hpos
    rw [hvalue] at hlogsum
    have hflat : flatLogsum v = .error (.nothingAvailable v.id) := by
      rw [flatLogsum, hnone]
      rfl
    refine ⟨?_, by rw [hlogsum, hflat]⟩
    rw [nestedProbabilities_eq, hlogsum, flatProbabilities, hnone]
    rfl
  | some logsum =>
    rw [hvalue] at hlogsum hweight
    have hpos : 0 < Nesting.total 1 v.entries.toList := by
      rw [← hweight, Nesting.weight_pos_iff]
      simp
    have hsome : v.availableUtilities ≠ [] := by
      intro hnone
      rw [← sum_exp_availableUtilities, hnone] at hpos
      exact lt_irrefl 0 hpos
    have hlog : logsum = ⟨Real.log (Nesting.total 1 v.entries.toList)⟩ := by
      ext
      rw [← hweight, Nesting.weight, Real.log_exp, Exact.toReal_one, one_mul]
    refine ⟨?_, by rw [hlogsum, flatLogsum_eq hsome, hlog]⟩
    rw [nestedProbabilities_of_value h hsize hvalue, flatProbabilities_eq hsome, flatLogsum_eq hsome,
      chances_of_unit h hsize hunit hpos, hlog]
    rfl

/-- A flat tree is a single nest of scale one. -/
theorem scale_of_isFlat (hflat : tree.isFlat = true) : ∀ nest ∈ tree.nests, nest.scale = 1 := by
  intro nest hnest
  unfold NestTree.isFlat at hflat
  split at hflat
  · rename_i root hroot
    rw [← Array.mem_toList_iff, hroot, List.mem_singleton] at hnest
    rw [hnest]
    ext
    simpa using hflat
  · cases hflat

/-- Treating flat trees on their own changes no result. -/
theorem probabilities_eq_nested (h : tree.LaysOut nesting count) (hsize : v.size = count) :
    probabilities tree v = nestedProbabilities tree v ∧ logsum tree v = nestedLogsum tree v := by
  by_cases hflat : tree.isFlat = true
  · rcases nestedProbabilities_of_unit h hsize (h.unfolds.hasScales (scale_of_isFlat hflat)) with
      ⟨hprobabilities, hlogsum⟩
    rw [probabilities_of_flat hflat, logsum, if_pos hflat, hprobabilities, hlogsum]
    exact ⟨rfl, rfl⟩
  · rw [probabilities, logsum, if_neg hflat, if_neg hflat]
    exact ⟨rfl, rfl⟩

/-- For every tree that can be built and every vector of its size, scales of one make the nested model
the flat one, errors included. Treating flat trees on their own therefore changes no result. -/
theorem nested_collapses (built : tree.IsBuilt count) (hsize : v.size = count) :
    ((∀ nest ∈ tree.nests, nest.scale = 1) →
      (nestedProbabilities tree v = do
        let p ← flatProbabilities v
        let logsum ← flatLogsum v
        return (p, logsum)) ∧ nestedLogsum tree v = flatLogsum v) ∧
    probabilities tree v = nestedProbabilities tree v ∧ logsum tree v = nestedLogsum tree v := by
  rcases built.laysOut Exact.isScale_one with ⟨nesting, h⟩
  refine ⟨?_, probabilities_eq_nested h hsize⟩
  intro hscales
  exact nestedProbabilities_of_unit h hsize (h.unfolds.hasScales hscales)

/-- With scales of one, three equal alternatives have one third each, in whatever nests they are. -/
theorem threeEqual_collapses :
    (walkAndTransitTree (1 : Exact)).IsBuilt 3 ∧ threeEqual.size = 3 ∧
      (∀ nest ∈ (walkAndTransitTree (1 : Exact)).nests, nest.scale = 1) ∧
      nestedProbabilities (walkAndTransitTree 1) threeEqual =
        .ok (#[⟨1 / 3⟩, ⟨1 / 3⟩, ⟨1 / 3⟩], ⟨Real.log 3⟩) ∧
      probabilities (walkAndTransitTree 1) threeEqual =
        nestedProbabilities (walkAndTransitTree 1) threeEqual := by
  have built : (walkAndTransitTree (1 : Exact)).IsBuilt 3 :=
    isBuilt_walkAndTransitTree (by simp) (by simp)
  have hscales : ∀ nest ∈ (walkAndTransitTree (1 : Exact)).nests, nest.scale = 1 := by
    simp [walkAndTransitTree]
  rcases nested_collapses (v := threeEqual) built rfl with ⟨hunit, hprobabilities, -⟩
  refine ⟨built, rfl, hscales, ?_, hprobabilities⟩
  have hsome : threeEqual.availableUtilities ≠ [] := by
    simp [threeEqual, UtilityVector.availableUtilities]
  rw [(hunit hscales).1, flatProbabilities_eq hsome, flatLogsum_eq hsome]
  have htotal : Nesting.total 1 threeEqual.entries.toList = 3 := by
    simp [threeEqual, Nesting.weight]
    norm_num
  rw [htotal]
  simp [threeEqual, Nesting.weight]

end Logit
end DiscreteChoice
