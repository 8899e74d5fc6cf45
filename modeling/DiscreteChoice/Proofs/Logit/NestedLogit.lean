import DiscreteChoice.Proofs.Logit.Composite
import DiscreteChoice.Proofs.Logit.Sweep
import DiscreteChoice.Proofs.Logit.Textbook

/-!
# The nested logit model in exact arithmetic

With exact operations the walk from the back finds the values of the nests, and the walk from the front
the chances of the alternatives: the program computes the nested logit model as it is defined on the
nesting that its tree lays out.

Main results:

- Theorem `Logit.childValue?_eq`: the composite utilities are the values of the nests.
- Theorem `Logit.probability_eq`: an alternative in a nest is reached with its chance there times the
  probability of the nest.
- Theorem `Logit.nestedProbabilities_textbook`: what the nested model computes for a tree that can be
  built.
-/

namespace DiscreteChoice

namespace Logit

open Numeric NestTree

variable {v : UtilityVector Exact} {found : Array (Option Exact)} {nest : Nest Exact}

/-! ## Log-sum-exp -/

/-- Shifting all entries divides the sum of their exponentials. -/
theorem sum_exp_sub (xs : List Exact) (shift : ℝ) :
    (xs.map fun x => Real.exp (x.toReal - shift)).sum =
      (xs.map fun x => Real.exp x.toReal).sum / Real.exp shift := by
  simp only [Real.exp_sub, div_eq_mul_inv]
  exact List.sum_map_mul_right _ _ _

/-- The sum of the exponentials of some entries is positive. -/
theorem sum_exp_pos {xs : List Exact} (h : xs ≠ []) :
    0 < (xs.map fun x => Real.exp x.toReal).sum := by
  apply List.sum_pos
  · intro weight hweight
    rcases List.mem_map.mp hweight with ⟨x, -, rfl⟩
    exact Real.exp_pos _
  · simpa using h

/-- The log-sum-exp is the logarithm of the sum of the exponentials, by whatever the entries are
shifted. -/
theorem logSumExp?_of_ne_nil {xs : List Exact} (h : xs ≠ []) :
    logSumExp? xs = some ⟨Real.log (xs.map fun x => Real.exp x.toReal).sum⟩ := by
  cases hmax : maximum? xs with
  | none => exact absurd (maximum?_eq_none_iff.mp hmax) h
  | some largest =>
    rw [logSumExp?, hmax]
    simp only [Exact.isFinite_eq, if_true, Option.some.injEq]
    ext
    have hshift : ((xs.map fun x => exp (x - largest)).map Exact.toReal).sum =
        (xs.map fun x => Real.exp x.toReal).sum / Real.exp largest.toReal := by
      rw [← sum_exp_sub, List.map_map]
      rfl
    rw [Exact.toReal_add, Exact.toReal_ln, Exact.toReal_sum, hshift,
      Real.log_div (sum_exp_pos h).ne' (Real.exp_ne_zero _), Real.log_exp, add_sub_cancel]

/-! ## One nest -/

/-- The weights of the entries that have a value are all weights. -/
theorem sum_exp_filterMap {β : Type} (scale : Exact) (value? : β → Option Exact) (xs : List β) :
    (((xs.filterMap value?).map (scale * ·)).map fun x => Real.exp x.toReal).sum =
      Nesting.total scale (xs.map value?) := by
  induction xs with
  | nil => rfl
  | cons x xs ih =>
    rw [List.map_cons, Nesting.total_cons, ← ih]
    cases hvalue : value? x with
    | none => simp [hvalue, Nesting.weight]
    | some x => simp [hvalue, Nesting.weight]

/-- The log-sum-exp of a nest is the logarithm of the sum of the weights of its members. -/
theorem logSumExp?_scaledValues (nest : Nest Exact) :
    logSumExp? (scaledValues nest (memberValues v found nest.children)) =
      if ∃ value ∈ nest.children.map (childValue? v found), value ≠ none then
        some ⟨Real.log (Nesting.total nest.scale (nest.children.map (childValue? v found)))⟩
      else none := by
  rw [scaledValues_memberValues]
  split_ifs with hsome
  · rw [logSumExp?_of_ne_nil, sum_exp_filterMap]
    simpa [List.filterMap_eq_nil_iff] using hsome
  · have hnone : nest.children.filterMap (childValue? v found) = [] := by
      simpa [List.filterMap_eq_nil_iff] using hsome
    rw [hnone]
    rfl

/-- The composite utility of a nest is that of the values of its members. -/
theorem composite?_eq (nest : Nest Exact) : composite? v found nest =
    Nesting.composite? nest.scale (nest.children.map (childValue? v found)) := by
  rw [composite?, logSumExp?_scaledValues, Nesting.composite?]
  split_ifs
  · rw [Option.map_some, Option.some.injEq]
    ext
    rw [Exact.toReal_div, div_eq_inv_mul, one_div]
  · rfl

/-- A nest passes its probability on to its members in proportion to their weights. -/
theorem toReal_passed (nest : Nest Exact) (own : Exact) (child : Child) :
    (passed v found nest own child).toReal = own.toReal *
      (Nesting.weight nest.scale (childValue? v found child) /
        Nesting.total nest.scale (nest.children.map (childValue? v found))) := by
  unfold passed
  split_ifs with hown
  · have hzero : own.toReal = 0 := (Exact.eq_iff own 0).mp hown
    rw [hzero, zero_mul, Exact.toReal_zero]
  · by_cases hpos : 0 < Nesting.total nest.scale (nest.children.map (childValue? v found))
    · rw [logSumExp?_scaledValues, if_pos ((Nesting.total_pos_iff _).mp hpos)]
      cases hvalue : childValue? v found child with
      | none => simp [Nesting.weight]
      | some x =>
        simp only [Nesting.weight, Exact.toReal_mul, Exact.toReal_exp, Exact.toReal_sub]
        rw [Real.exp_sub, Real.exp_log hpos]
    · have hzero := le_antisymm (not_lt.mp hpos) (Nesting.total_nonneg _ _)
      rw [logSumExp?_scaledValues, if_neg fun h => hpos ((Nesting.total_pos_iff _).mpr h), hzero]
      simp

/-! ## The tree -/

variable {tree : NestTree Exact} {nesting whole : Nesting Exact} {count : Nat} {child : Child}

/-- The composite utilities are the values of the nests. -/
theorem childValue?_eq (formed : tree.IsFormed count) (h : Unfolds tree.nests child nesting) :
    childValue? v (composites tree v) child = nesting.value? v.utility? := by
  induction nesting using Nesting.induction generalizing child with
  | alternative position =>
    cases h
    rw [childValue?, Nesting.value?]
  | nest name scale members ih =>
    cases h with
    | nest hnest hmembers =>
      rw [composites_spec formed v hnest, composite?_eq, Nesting.value?_nest,
        map_eq_of_forall₂ hmembers fun member hmember child hchild => ih member hmember hchild]

/-- An alternative in a nest is reached with its chance there times the probability of the nest. -/
theorem probability_eq (h : tree.LaysOut whole count) (hsize : v.size = count)
    (hunfolds : Unfolds tree.nests child nesting) (hnodup : nesting.positions.Nodup) {position : Nat}
    (hposition : position ∈ nesting.positions) :
    ((Reach.final tree v).probability (.alternative position)).toReal =
      ((Reach.final tree v).probability child).toReal * nesting.chance v.utility? position := by
  induction nesting using Nesting.induction generalizing child with
  | alternative other =>
    obtain rfl : position = other := by simpa [Nesting.positions] using hposition
    cases hunfolds
    simp [Nesting.chance]
  | nest name scale members ih =>
    cases hunfolds with
    | @nest index nest _ hnest hmembers =>
      have hmem := hposition
      rw [Nesting.positions] at hmem
      rcases List.mem_flatMap.mp hmem with ⟨member, hmember, hposition⟩
      rcases exists_mem_of_forall₂ hmembers hmember with ⟨inner, hinner, hunfolds⟩
      have hindex : index < tree.size := (Array.getElem?_eq_some_iff.mp hnest).1
      have hvalues := map_eq_of_forall₂ hmembers fun member _ child hchild =>
        childValue?_eq (v := v) h.formed hchild
      rw [ih member hmember hunfolds (Nesting.nodup_of_mem hnodup hmember) hposition,
        (Reach.swept_of_laysOut h hsize).divided hnest hindex inner hinner, toReal_passed, hvalues,
        childValue?_eq h.formed hunfolds, Nesting.chance_of_mem hnodup hmember hposition, mul_assoc]
      rfl

/-- The logsum is the value of the nesting, if it has one. -/
theorem nestedLogsum_eq (h : tree.LaysOut nesting count) :
    nestedLogsum tree v = match nesting.value? v.utility? with
      | some logsum => .ok logsum
      | none => .error (.nothingAvailable v.id) := by
  rw [← childValue?_eq h.formed h.unfolds, childValue?, nestedLogsum]
  cases (composites tree v)[0]?.join <;> rfl

/-- For a tree that lays out a nesting with a value the nested model gives every alternative its chance
in the nesting. -/
theorem nestedProbabilities_of_value (h : tree.LaysOut nesting count) (hsize : v.size = count)
    {logsum : Exact} (hvalue : nesting.value? v.utility? = some logsum) :
    nestedProbabilities tree v = .ok (nesting.chances v.utility? count, logsum) := by
  have hlogsum : nestedLogsum tree v = .ok logsum := by
    rw [nestedLogsum_eq h, hvalue]
  have hrun : nestedProbabilities tree v = .ok ((Reach.final tree v).alternatives, logsum) := by
    rw [nestedProbabilities_eq, hlogsum]
    rfl
  have hcount : (Reach.final tree v).alternatives.size = count := by
    rw [(nestedProbabilities_sound hrun).1, hsize]
  have hchances : (Reach.final tree v).alternatives = nesting.chances v.utility? count := by
    apply Array.ext
    · simp [hcount, Nesting.chances]
    · intro position hposition _
      have hbound : position ∈ nesting.positions := h.mem_positions.mpr (hcount ▸ hposition)
      have hreached := probability_eq h hsize h.unfolds h.nodup_positions hbound
      rw [(Reach.swept_of_laysOut h hsize).root, Exact.toReal_one, one_mul, Reach.probability,
        Array.getElem?_eq_getElem hposition, Option.getD_some] at hreached
      ext
      simpa [Nesting.chances] using hreached
  rw [hrun, hchances]

/-- A nesting has a value when something is available. -/
theorem value?_ne_none_iff_available (h : tree.LaysOut nesting count) (hsize : v.size = count) :
    nesting.value? v.utility? ≠ none ↔ ∃ position, v.isAvailable position = true := by
  rw [Nesting.value?_ne_none_iff]
  constructor
  · rintro ⟨position, -, havailable⟩
    exact ⟨position, Option.isSome_iff_ne_none.mpr havailable⟩
  · rintro ⟨position, havailable⟩
    rcases Option.isSome_iff_exists.mp havailable with ⟨u, hu⟩
    refine ⟨position, ?_, by simp [hu]⟩
    rw [h.mem_positions, ← hsize]
    exact UtilityVector.lt_size_of_utility? hu

/-- The chances of all alternatives in a list add up to their sum. -/
theorem sum_chances (utility? : Nat → Option Exact) (count : Nat) (nesting : Nesting Exact) :
    ((nesting.chances utility? count).toList.map Exact.toReal).sum =
      ∑ position ∈ Finset.range count, nesting.chance utility? position := by
  rw [Nesting.chances, Array.toList_map, Array.toList_range, List.map_map]
  rfl

open Nesting in
/-- For every tree that can be built and every vector of its size with something available, the nested
model gives the composite utility of the nesting that the tree unfolds to, and gives every alternative
the product of the shares on the way to it. This is positive for the available ones, and adds up to
one. -/
theorem nestedProbabilities_textbook (built : tree.IsBuilt count) (hsize : v.size = count)
    (hsome : ∃ position, v.isAvailable position = true) :
    ∃ nesting p logsum, Unfolds tree.nests (.nest 0) nesting ∧
      nestedProbabilities tree v = .ok (p, logsum) ∧ nesting.value? v.utility? = some logsum ∧
      p.size = count ∧ (p.toList.map Exact.toReal).sum = 1 ∧
      ∀ position, (hposition : position < p.size) →
        (∃ shares, Path v.utility? position nesting shares) ∧
        (∀ shares, Path v.utility? position nesting shares → p[position].toReal = shares.prod) ∧
        (0 < p[position].toReal ↔ v.isAvailable position = true) := by
  rcases built.laysOut Exact.isScale_one with ⟨nesting, h⟩
  have hnodup := h.nodup_positions
  have hvalue : nesting.value? v.utility? ≠ none := (value?_ne_none_iff_available h hsize).mpr hsome
  rcases Option.ne_none_iff_exists'.mp hvalue with ⟨logsum, hlogsum⟩
  have hrun := nestedProbabilities_of_value h hsize hlogsum
  have hcount : (nesting.chances v.utility? count).size = count := by simp [chances]
  refine ⟨nesting, _, logsum, h.unfolds, hrun, hlogsum, hcount, ?_, ?_⟩
  · rw [sum_chances]
    exact sum_chance (fun position hposition => h.mem_positions.mp hposition) hvalue
  · intro position hposition
    have hposition' : position ∈ nesting.positions := h.mem_positions.mpr (hcount ▸ hposition)
    have hchance : (nesting.chances v.utility? count)[position].toReal =
        nesting.chance v.utility? position := by
      simp [chances]
    rw [hchance, UtilityVector.isAvailable, Option.isSome_iff_ne_none]
    refine ⟨exists_path v.utility? hposition', fun shares hpath => chance_eq_prod hnodup hpath, ?_⟩
    cases h.unfolds with
    | nest hnest hmembers => exact chance_pos_iff hnodup hposition'

/-- The tree of the way on foot and the two ways of transit can be built with any scale. -/
theorem isBuilt_walkAndTransitTree {scale : Exact} (hpos : 0 < scale.toReal)
    (hle : scale.toReal ≤ 1) : (walkAndTransitTree scale).IsBuilt 3 :=
  .ofConfig numbering_walkAndTransitPositions
    (ofConfig_walkAndTransit Exact.isScale_one ((Exact.isScale_iff scale).mpr ⟨hpos, hle⟩))

/-- The nest of the two ways of transit. -/
def transit (scale : Exact) : Nesting Exact :=
  .nest "transit" scale [.alternative 2, .alternative 1]

/-- The tree of the way on foot and the two ways of transit lays out their nesting. -/
theorem laysOut_walkAndTransitTree {scale : Exact} (hpos : 0 < scale.toReal)
    (hle : scale.toReal ≤ 1) :
    (walkAndTransitTree scale).LaysOut (.nest "root" 1 [.alternative 0, transit scale]) 3 := by
  unfold transit
  rw [← resolve_walkAndTransit]
  exact .ofConfig numbering_walkAndTransitPositions
    (ofConfig_walkAndTransit Exact.isScale_one ((Exact.isScale_iff scale).mpr ⟨hpos, hle⟩))

/-- With a scale of one half, a transit nest of a total weight is as attractive as the square of it. -/
theorem value?_transit {utility? : Nat → Option Exact} {total : ℝ} (hpos : 0 < total)
    (htotal : Nesting.total ⟨1 / 2⟩ [utility? 2, utility? 1] = total) :
    (transit ⟨1 / 2⟩).value? utility? = some ⟨2 * Real.log total⟩ ∧
      Real.exp (2 * Real.log total) = total ^ 2 := by
  constructor
  · have hsome := (Nesting.total_pos_iff ⟨1 / 2⟩).mp (htotal.symm ▸ hpos)
    rw [transit, Nesting.value?_nest, List.map_cons, List.map_cons, List.map_nil, Nesting.value?,
      Nesting.value?, Nesting.composite?, if_pos hsome, htotal]
    norm_num
  · rw [mul_comm, Real.exp_mul, Real.exp_log hpos, Real.rpow_two]

/-- Three alternatives that are all available with a utility of zero. -/
noncomputable def threeEqual : UtilityVector Exact :=
  ⟨7, #[some 0, some 0, some 0]⟩

/-- With a scale of one half the two ways of transit together have four times the weight of the way on
foot, which leaves two fifths to each. -/
theorem threeEqual_textbook :
    (walkAndTransitTree ⟨1 / 2⟩ : NestTree Exact).IsBuilt 3 ∧ threeEqual.size = 3 ∧
      (∃ position, threeEqual.isAvailable position = true) ∧
      ∃ p logsum, nestedProbabilities (walkAndTransitTree ⟨1 / 2⟩) threeEqual = .ok (p, logsum) ∧
        logsum.toReal = Real.log 5 ∧ ∃ q, p[1]? = some q ∧ q.toReal = 2 / 5 := by
  have built : (walkAndTransitTree ⟨1 / 2⟩ : NestTree Exact).IsBuilt 3 :=
    isBuilt_walkAndTransitTree (by norm_num) (by norm_num)
  have hlays : (walkAndTransitTree ⟨1 / 2⟩).LaysOut
      (.nest "root" 1 [.alternative 0, transit ⟨1 / 2⟩]) 3 :=
    laysOut_walkAndTransitTree (by norm_num) (by norm_num)
  have hsome : ∃ position, threeEqual.isAvailable position = true := ⟨0, rfl⟩
  refine ⟨built, rfl, hsome, ?_⟩
  rcases nestedProbabilities_textbook built rfl hsome with
    ⟨nesting, p, logsum, hunfolds, hrun, hvalue, hsize, -, hchances⟩
  rcases hunfolds.unique hlays.unfolds with rfl
  have hutilities : threeEqual.utility? 0 = some 0 ∧ threeEqual.utility? 1 = some 0 ∧
      threeEqual.utility? 2 = some 0 := ⟨rfl, rfl, rfl⟩
  have htwo : Nesting.total ⟨1 / 2⟩ [threeEqual.utility? 2, threeEqual.utility? 1] = 2 := by
    simp [Nesting.weight, hutilities]
    norm_num
  rcases value?_transit two_pos htwo with ⟨htransit, hweight⟩
  have htotal : Nesting.total 1 [some 0, some ⟨2 * Real.log 2⟩] = 5 := by
    rw [Nesting.total_cons, Nesting.total_cons, Nesting.weight, Nesting.weight, Exact.toReal_one,
      one_mul, one_mul, hweight]
    norm_num
  refine ⟨p, logsum, hrun, ?_, p[1], Array.getElem?_eq_getElem (by omega), ?_⟩
  · rw [Nesting.value?_nest, List.map_cons, List.map_cons, List.map_nil, htransit, Nesting.value?,
      hutilities.1, Nesting.composite?, htotal, if_pos (by simp)] at hvalue
    rcases Option.some.inj hvalue with rfl
    simp
  · have hmember : transit ⟨1 / 2⟩ ∈ [Nesting.alternative 0, transit ⟨1 / 2⟩] := by simp
    rw [(hchances 1 (by omega)).2.1 _ (.branch hmember (.branch (by simp) .here)), List.prod_cons,
      List.prod_singleton, Nesting.share, List.map_cons, List.map_cons, List.map_nil, htransit]
    rw [Nesting.value?, hutilities.1, htotal]
    simp [Nesting.share, Nesting.value?, Nesting.weight, hutilities, hweight]
    norm_num

end Logit
end DiscreteChoice
