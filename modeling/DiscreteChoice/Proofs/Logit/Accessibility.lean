import DiscreteChoice.Proofs.Logit.Opening
import DiscreteChoice.Proofs.Logit.UnitScales

/-!
# The logsum as a measure of accessibility

The logsum at the root says what the alternatives of a decision are worth together. A nest is worth no
less than any of its members, whatever its scale is, so that a nesting is worth no less than any
alternative that is available in it. Making alternatives available or better never makes it worth less,
even where nests come in that had nothing available before.

Main results:

- Theorem `Nesting.le_value?_of_mem`: a nest is worth no less than its members.
- Theorem `Nesting.utility_le_value?`: a nesting is worth no less than its alternatives.
- Theorem `Logit.logsum_grows`: both hold for the logsum of every tree that can be built.
-/

namespace DiscreteChoice

namespace Nesting

variable {utility? : Nat → Option Exact} {position : Nat} {name : String} {scale u x y : Exact}
  {members : List (Nesting Exact)} {member nesting : Nesting Exact}

/-- The weight of a member is part of the weight of its nest. -/
theorem weight_le_total (hmember : member ∈ members) :
    weight scale (member.value? utility?) ≤ total scale (members.map (value? utility?)) := by
  apply List.single_le_sum
  · intro term hterm
    rcases List.mem_map.mp hterm with ⟨value, -, rfl⟩
    exact weight_nonneg scale value
  · exact List.mem_map_of_mem (List.mem_map_of_mem hmember)

/-- A nest is worth no less than a member that has a value. -/
theorem le_value?_of_mem (hscale : 0 < scale.toReal) (hmember : member ∈ members)
    (hx : value? utility? (.nest name scale members) = some x)
    (hy : member.value? utility? = some y) : y.toReal ≤ x.toReal := by
  rw [value?_nest] at hx
  have hpart : weight scale (member.value? utility?) ≤ total scale (members.map (value? utility?)) :=
    weight_le_total hmember
  rw [hy, weight, total_eq_exp hscale hx, Real.exp_le_exp] at hpart
  exact le_of_mul_le_mul_left hpart hscale

/-- A nesting is worth no less than an alternative that is available in it. -/
theorem utility_le_value? (hscales : nesting.HasScales fun scale => 0 < scale.toReal)
    (hposition : position ∈ nesting.positions) (hu : utility? position = some u)
    (hx : nesting.value? utility? = some x) : u.toReal ≤ x.toReal := by
  induction nesting using Nesting.induction generalizing x with
  | alternative other =>
    obtain rfl : position = other := by simpa [positions] using hposition
    rw [value?, hu] at hx
    rw [Option.some.inj hx]
  | nest name scale members ih =>
    rcases hasScales_nest.mp hscales with ⟨hscale, hmembers⟩
    rw [positions] at hposition
    rcases List.mem_flatMap.mp hposition with ⟨member, hmember, hinside⟩
    have hsome : member.value? utility? ≠ none :=
      value?_ne_none_iff.mpr ⟨position, hinside, by simp [hu]⟩
    rcases Option.ne_none_iff_exists'.mp hsome with ⟨y, hy⟩
    calc u.toReal ≤ y.toReal := ih member hmember (hmembers member hmember) hinside hy
      _ ≤ x.toReal := le_value?_of_mem hscale hmember hx hy

end Nesting

namespace Logit

open NestTree Nesting

variable {v w : UtilityVector Exact} {tree : NestTree Exact} {nesting : Nesting Exact} {count : Nat}

/-- The scales of a nesting that a tree lays out are positive. -/
theorem scales_pos_of_laysOut (h : tree.LaysOut nesting count) :
    nesting.HasScales fun scale => 0 < scale.toReal :=
  h.hasScales fun scale hscale => ((Exact.isScale_iff scale).mp hscale).1

/-- The logsum is the value of the nesting when something is available. -/
theorem exists_logsum (h : tree.LaysOut nesting count) (hsize : v.size = count)
    (hsome : ∃ position, v.isAvailable position = true) :
    ∃ x, nesting.value? v.utility? = some x ∧ logsum tree v = .ok x := by
  have hvalue : nesting.value? v.utility? ≠ none := (value?_ne_none_iff_available h hsize).mpr hsome
  rcases Option.ne_none_iff_exists'.mp hvalue with ⟨x, hx⟩
  refine ⟨x, hx, ?_⟩
  rw [(probabilities_eq_nested h hsize).2, nestedLogsum_eq h, hx]

/-- For every tree that can be built and every two vectors of its size, the first of which has something
available: when every alternative that is available in the first is available in the second with no
smaller utility, both have a logsum, and the second one is no smaller. The logsum is no smaller than any
utility either. -/
theorem logsum_grows (built : tree.IsBuilt count) (hv : v.size = count) (hw : w.size = count)
    (hsome : ∃ position, v.isAvailable position = true)
    (hgrows : ∀ position u, v.utility? position = some u →
      ∃ u', w.utility? position = some u' ∧ u.toReal ≤ u'.toReal) :
    ∃ before after, logsum tree v = .ok before ∧ logsum tree w = .ok after ∧
      before.toReal ≤ after.toReal ∧
      ∀ position u, v.utility? position = some u → u.toReal ≤ before.toReal := by
  rcases built.laysOut Exact.isScale_one with ⟨nesting, h⟩
  have hscales := scales_pos_of_laysOut h
  have hsome' : ∃ position, w.isAvailable position = true := by
    rcases hsome with ⟨position, havailable⟩
    rcases Option.isSome_iff_exists.mp havailable with ⟨u, hu⟩
    rcases hgrows position u hu with ⟨u', hu', -⟩
    exact ⟨position, Option.isSome_iff_exists.mpr ⟨u', hu'⟩⟩
  rcases exists_logsum h hv hsome with ⟨before, hbefore, hrun⟩
  rcases exists_logsum h hw hsome' with ⟨after, hafter, hrun'⟩
  refine ⟨before, after, hrun, hrun', ?_, ?_⟩
  · rcases Grows.value? hscales hgrows before hbefore with ⟨x, hx, hle⟩
    rcases Option.some.inj (hx.symm.trans hafter) with rfl
    exact hle
  · intro position u hu
    have hposition : position ∈ nesting.positions := by
      rw [h.mem_positions, ← hv]
      exact UtilityVector.lt_size_of_utility? hu
    exact utility_le_value? hscales hposition hu hbefore

/-- The way on foot with a utility of zero, and no way of transit. -/
noncomputable def footAlone : UtilityVector Exact :=
  ⟨7, #[some 0, none, none]⟩

/-- With the transit nest, in which nothing was available, the logsum does not fall below that of the
way on foot alone. -/
theorem footAlone_grows :
    (walkAndTransitTree ⟨1 / 2⟩ : NestTree Exact).IsBuilt 3 ∧ footAlone.size = 3 ∧
      threeEqual.size = 3 ∧ (∃ position, footAlone.isAvailable position = true) ∧
      ∃ before after, logsum (walkAndTransitTree ⟨1 / 2⟩) footAlone = .ok before ∧
        logsum (walkAndTransitTree ⟨1 / 2⟩) threeEqual = .ok after ∧
        before.toReal ≤ after.toReal ∧ 0 ≤ before.toReal := by
  have built : (walkAndTransitTree ⟨1 / 2⟩ : NestTree Exact).IsBuilt 3 :=
    isBuilt_walkAndTransitTree (by norm_num) (by norm_num)
  have hsome : ∃ position, footAlone.isAvailable position = true := ⟨0, rfl⟩
  have hgrows : ∀ position u, footAlone.utility? position = some u →
      ∃ u', threeEqual.utility? position = some u' ∧ u.toReal ≤ u'.toReal := by
    intro position u hu
    rcases position with _ | _ | _ | position
    · rcases Option.some.inj hu with rfl
      exact ⟨0, rfl, le_rfl⟩
    all_goals cases hu
  rcases logsum_grows built rfl rfl hsome hgrows with ⟨before, after, hrun, hrun', hle, hutility⟩
  exact ⟨built, rfl, rfl, hsome, before, after, hrun, hrun', hle, hutility 0 0 rfl⟩

end Logit
end DiscreteChoice
