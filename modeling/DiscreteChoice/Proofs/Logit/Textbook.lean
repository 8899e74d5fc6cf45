import DiscreteChoice.Proofs.Nest.Nesting
import DiscreteChoice.Proofs.Numeric.Exact

/-!
# The nested logit model on paper

The model as it is defined on a nesting, in real numbers: the value of a nest is its composite utility,
the logarithm of the sum of the exponentials of the scaled values of its members, divided by the scale,
and the probability of an alternative is the product of the shares on the way to it. An alternative
that is not available has no value, and neither has a nest with nothing available in it.

Main results:

- Theorem `Nesting.value?_ne_none_iff`: a nesting has a value when something is available in it.
- Theorem `Nesting.chance_eq_prod`: the chance of an alternative is the product of the shares on the way.
- Theorem `Nesting.chance_pos_iff`: an alternative has a chance when it is available.
- Theorem `Nesting.sum_chance`: the chances of all alternatives add up to one.
-/

namespace DiscreteChoice
namespace Nesting

/-! ## Definitions -/

/-- The weight of a value in a nest of a scale. What has no value has no weight. -/
noncomputable def weight (scale : Exact) : Option Exact → ℝ
  | some x => Real.exp (scale.toReal * x.toReal)
  | none => 0

/-- The sum of the weights of the members of a nest. -/
noncomputable def total (scale : Exact) (values : List (Option Exact)) : ℝ :=
  (values.map (weight scale)).sum

/-- The composite utility of a nest, if a member has a value. -/
noncomputable def composite? (scale : Exact) (values : List (Option Exact)) : Option Exact :=
  if ∃ value ∈ values, value ≠ none then
    some ⟨1 / scale.toReal * Real.log (total scale values)⟩
  else none

/-- The value of a nesting under the utilities of the alternatives: the utility of an available
alternative, or the composite utility of a nest. -/
noncomputable def value? (utility? : Nat → Option Exact) : Nesting Exact → Option Exact
  | .alternative position => utility? position
  | .nest _ scale members => composite? scale (members.map (value? utility?))

/-- The share of a member in the weights of its nest. -/
noncomputable def share (utility? : Nat → Option Exact) (scale : Exact)
    (members : List (Nesting Exact)) (member : Nesting Exact) : ℝ :=
  weight scale (member.value? utility?) / total scale (members.map (value? utility?))

/-- The way from a nesting to an alternative in it, with the share of each branch. -/
inductive Path (utility? : Nat → Option Exact) (position : Nat) :
    Nesting Exact → List ℝ → Prop where
  | here : Path utility? position (.alternative position) []
  | branch {name : String} {scale : Exact} {members : List (Nesting Exact)}
      {member : Nesting Exact} {shares : List ℝ} : member ∈ members →
      Path utility? position member shares →
      Path utility? position (.nest name scale members)
        (share utility? scale members member :: shares)

/-- The chance of an alternative in a nesting, as a sum over all members of a nest. -/
noncomputable def chance (utility? : Nat → Option Exact) (position : Nat) : Nesting Exact → ℝ
  | .alternative other => if other = position then 1 else 0
  | .nest _ scale members =>
    (members.map fun member =>
      share utility? scale members member * member.chance utility? position).sum

/-- The chances of all alternatives in a nesting. -/
noncomputable def chances (utility? : Nat → Option Exact) (count : Nat) (nesting : Nesting Exact) :
    Array Exact :=
  (Array.range count).map fun position => ⟨nesting.chance utility? position⟩

variable {utility? : Nat → Option Exact} {position : Nat} {name : String} {scale : Exact}
  {members : List (Nesting Exact)} {member nesting : Nesting Exact} {values : List (Option Exact)}

theorem getElem?_chances {count : Nat} (h : position < count) :
    (nesting.chances utility? count)[position]? = some ⟨nesting.chance utility? position⟩ := by
  simp [chances, h]

/-! ## Weights -/

theorem weight_pos_iff (scale : Exact) {value : Option Exact} :
    0 < weight scale value ↔ value ≠ none := by
  cases value with
  | none => simp [weight]
  | some x => simp [weight, Real.exp_pos]

theorem weight_nonneg (scale : Exact) (value : Option Exact) : 0 ≤ weight scale value := by
  cases value with
  | none => exact le_rfl
  | some x => exact (Real.exp_pos _).le

@[simp] theorem total_nil (scale : Exact) : total scale [] = 0 := rfl

@[simp] theorem total_cons (scale : Exact) (value : Option Exact) (values : List (Option Exact)) :
    total scale (value :: values) = weight scale value + total scale values := rfl

theorem total_nonneg (scale : Exact) (values : List (Option Exact)) : 0 ≤ total scale values := by
  induction values with
  | nil => exact le_rfl
  | cons value values ih => exact add_nonneg (weight_nonneg scale value) ih

/-- Weights have a positive sum when something has a value. -/
theorem total_pos_iff (scale : Exact) :
    0 < total scale values ↔ ∃ value ∈ values, value ≠ none := by
  induction values with
  | nil => simp
  | cons value values ih =>
    have hweight := weight_nonneg scale value
    have htotal := total_nonneg scale values
    rw [total_cons, List.exists_mem_cons_iff, ← ih, ← weight_pos_iff scale]
    constructor
    · intro hpos
      by_contra hnone
      rw [not_or] at hnone
      linarith [not_lt.mp hnone.1, not_lt.mp hnone.2]
    · rintro (hpos | hpos)
      · exact add_pos_of_pos_of_nonneg hpos htotal
      · exact add_pos_of_nonneg_of_pos hweight hpos

/-! ## Values -/

theorem value?_nest : value? utility? (.nest name scale members) =
    composite? scale (members.map (value? utility?)) := by
  rw [value?]

/-- A nest has a composite utility when a member has a value. -/
theorem composite?_ne_none_iff (scale : Exact) :
    composite? scale values ≠ none ↔ ∃ value ∈ values, value ≠ none := by
  unfold composite?
  split_ifs with hsome
  · simpa using hsome
  · simpa using hsome

/-- The exponential of a scaled composite utility is the sum of the weights. -/
theorem total_eq_exp (hscale : 0 < scale.toReal) {x : Exact} (h : composite? scale values = some x) :
    total scale values = Real.exp (scale.toReal * x.toReal) := by
  have hpos : 0 < total scale values :=
    (total_pos_iff scale).mpr ((composite?_ne_none_iff scale).mp (by simp [h]))
  unfold composite? at h
  split_ifs at h
  rcases Option.some.inj h with rfl
  rw [← mul_assoc, mul_one_div_cancel hscale.ne', one_mul, Real.exp_log hpos]

/-- A nesting has a value when something is available in it. -/
theorem value?_ne_none_iff : nesting.value? utility? ≠ none ↔
    ∃ position ∈ nesting.positions, utility? position ≠ none := by
  induction nesting using Nesting.induction with
  | alternative position => simp [value?, positions]
  | nest name scale members ih =>
    rw [value?_nest, composite?_ne_none_iff, positions]
    constructor
    · rintro ⟨value, hvalue, hsome⟩
      rcases List.mem_map.mp hvalue with ⟨member, hmember, rfl⟩
      rcases (ih member hmember).mp hsome with ⟨position, hposition, havailable⟩
      exact ⟨position, List.mem_flatMap.mpr ⟨member, hmember, hposition⟩, havailable⟩
    · rintro ⟨position, hposition, havailable⟩
      rcases List.mem_flatMap.mp hposition with ⟨member, hmember, hposition⟩
      exact ⟨_, List.mem_map_of_mem hmember,
        (ih member hmember).mpr ⟨position, hposition, havailable⟩⟩

/-! ## Shares -/

/-- A member of a nest has a share when something is available in it. -/
theorem share_pos_iff (hmember : member ∈ members) : 0 < share utility? scale members member ↔
    member.value? utility? ≠ none := by
  rw [share]
  constructor
  · intro hpos hnone
    simp [hnone, weight] at hpos
  · intro hsome
    exact div_pos ((weight_pos_iff scale).mpr hsome)
      ((total_pos_iff scale).mpr ⟨_, List.mem_map_of_mem hmember, hsome⟩)

/-- What has no value has no share. -/
theorem share_eq_zero (h : member.value? utility? = none) :
    share utility? scale members member = 0 := by
  simp [share, h, weight]

/-- The share of a member with a value tells how far it is below the value of its nest. -/
theorem share_eq_exp (hscale : 0 < scale.toReal) {x y : Exact}
    (hnest : value? utility? (.nest name scale members) = some x)
    (hmember : member.value? utility? = some y) :
    share utility? scale members member = Real.exp (scale.toReal * (y.toReal - x.toReal)) := by
  rw [value?_nest] at hnest
  rw [share, hmember, weight, total_eq_exp hscale hnest, mul_sub, Real.exp_sub]

/-- The shares in a nest with something available add up to one. -/
theorem sum_share (h : value? utility? (.nest name scale members) ≠ none) :
    (members.map (share utility? scale members)).sum = 1 := by
  rw [value?_nest, composite?_ne_none_iff] at h
  have hpos := (total_pos_iff scale).mpr h
  calc (members.map (share utility? scale members)).sum
      = (members.map fun member => weight scale (member.value? utility?) *
          (total scale (members.map (value? utility?)))⁻¹).sum := rfl
    _ = total scale (members.map (value? utility?)) *
          (total scale (members.map (value? utility?)))⁻¹ := by
        rw [List.sum_map_mul_right, total, List.map_map]
        rfl
    _ = 1 := mul_inv_cancel₀ hpos.ne'

/-! ## Chances -/

theorem chance_nest : chance utility? position (.nest name scale members) =
    (members.map fun member =>
      share utility? scale members member * member.chance utility? position).sum := by
  rw [chance]

/-- An alternative has no chance where it is not. -/
theorem chance_eq_zero (h : position ∉ nesting.positions) :
    nesting.chance utility? position = 0 := by
  induction nesting using Nesting.induction with
  | alternative other =>
    rw [chance, if_neg]
    rintro rfl
    simp [positions] at h
  | nest name scale members ih =>
    rw [chance_nest]
    apply List.sum_eq_zero
    intro term hterm
    rcases List.mem_map.mp hterm with ⟨member, hmember, rfl⟩
    rw [ih member hmember, mul_zero]
    intro hposition
    rw [positions] at h
    exact h (List.mem_flatMap.mpr ⟨member, hmember, hposition⟩)

/-- The chance of an alternative is the share of the branch that it is in times its chance there. -/
theorem chance_of_mem (hnodup : (nest name scale members).positions.Nodup)
    (hmember : member ∈ members) (hposition : position ∈ member.positions) :
    chance utility? position (.nest name scale members) =
      share utility? scale members member * member.chance utility? position := by
  rcases exists_split hnodup hmember with ⟨before, after, hsplit, hothers⟩
  rw [chance_nest]
  generalize share utility? scale members = share
  have hzero : ∀ others ⊆ before ++ after, (others.map fun other =>
      share other * other.chance utility? position).sum = 0 := by
    intro others hsub
    apply List.sum_eq_zero
    intro term hterm
    rcases List.mem_map.mp hterm with ⟨other, hother, rfl⟩
    rw [chance_eq_zero fun hmem => hothers other (hsub hother) position hmem hposition, mul_zero]
  rw [hsplit, List.map_append, List.map_cons, List.sum_append, List.sum_cons,
    hzero before (List.subset_append_left _ _), hzero after (List.subset_append_right _ _), zero_add,
    add_zero]

/-- Sums over the members and over the alternatives may be taken in either order. -/
theorem sum_sum_members (count : Nat) (f : Nat → Nesting Exact → ℝ) (members : List (Nesting Exact)) :
    ∑ position ∈ Finset.range count, (members.map (f position)).sum =
      (members.map fun member => ∑ position ∈ Finset.range count, f position member).sum := by
  induction members with
  | nil => simp
  | cons member members ih => simp [Finset.sum_add_distrib, ih]

/-- The chances of all alternatives add up to one. -/
theorem sum_chance {count : Nat} (hbound : ∀ position ∈ nesting.positions, position < count)
    (hsome : nesting.value? utility? ≠ none) :
    ∑ position ∈ Finset.range count, nesting.chance utility? position = 1 := by
  induction nesting using Nesting.induction with
  | alternative other =>
    have hother : other < count := hbound other (by simp [positions])
    simp [chance, hother]
  | nest name scale members ih =>
    have hmember : ∀ member ∈ members, ∑ position ∈ Finset.range count,
        share utility? scale members member * member.chance utility? position =
          share utility? scale members member := by
      intro member hmember
      rw [← Finset.mul_sum]
      by_cases hvalue : member.value? utility? = none
      · rw [share_eq_zero hvalue, zero_mul]
      · have hbelow : ∀ position ∈ member.positions, position < count := by
          intro position hposition
          apply hbound
          rw [positions]
          exact List.mem_flatMap.mpr ⟨member, hmember, hposition⟩
        rw [ih member hmember hbelow hvalue, mul_one]
    simp only [chance_nest]
    rw [sum_sum_members, List.map_congr_left hmember]
    exact sum_share hsome

/-! ## Ways -/

/-- A way leads to an alternative in the nesting. -/
theorem Path.mem_positions {shares : List ℝ} (h : Path utility? position nesting shares) :
    position ∈ nesting.positions := by
  induction h with
  | here => simp [positions]
  | branch hmember _ ih =>
    rw [positions]
    exact List.mem_flatMap.mpr ⟨_, hmember, ih⟩

/-- There is a way to every alternative in a nesting. -/
theorem exists_path (utility? : Nat → Option Exact) (h : position ∈ nesting.positions) :
    ∃ shares, Path utility? position nesting shares := by
  induction nesting using Nesting.induction with
  | alternative other =>
    obtain rfl : position = other := by simpa [positions] using h
    exact ⟨[], .here⟩
  | nest name scale members ih =>
    rw [positions] at h
    rcases List.mem_flatMap.mp h with ⟨member, hmember, hposition⟩
    rcases ih member hmember hposition with ⟨shares, hshares⟩
    exact ⟨_, .branch hmember hshares⟩

/-- The chance of an alternative is the product of the shares on the way to it. -/
theorem chance_eq_prod (hnodup : nesting.positions.Nodup) {shares : List ℝ}
    (h : Path utility? position nesting shares) :
    nesting.chance utility? position = shares.prod := by
  induction h with
  | here => simp [chance]
  | branch hmember hpath ih =>
    rw [chance_of_mem hnodup hmember hpath.mem_positions, ih (nodup_of_mem hnodup hmember),
      List.prod_cons]

/-- An available alternative has a chance. -/
theorem chance_pos (hnodup : nesting.positions.Nodup) (hposition : position ∈ nesting.positions)
    (havailable : utility? position ≠ none) : 0 < nesting.chance utility? position := by
  induction nesting using Nesting.induction with
  | alternative other =>
    obtain rfl : position = other := by simpa [positions] using hposition
    simp [chance]
  | nest name scale members ih =>
    have hmem := hposition
    rw [positions] at hmem
    rcases List.mem_flatMap.mp hmem with ⟨member, hmember, hposition⟩
    have hvalue : member.value? utility? ≠ none :=
      value?_ne_none_iff.mpr ⟨position, hposition, havailable⟩
    rw [chance_of_mem hnodup hmember hposition]
    exact mul_pos ((share_pos_iff hmember).mpr hvalue)
      (ih member hmember (nodup_of_mem hnodup hmember) hposition)

/-- An alternative that is not available has no chance in a nest. -/
theorem chance_eq_zero_of_unavailable (hnone : utility? position = none)
    (hnest : nesting ≠ .alternative position) : nesting.chance utility? position = 0 := by
  induction nesting using Nesting.induction with
  | alternative other =>
    rw [chance, if_neg]
    rintro rfl
    exact hnest rfl
  | nest name scale members ih =>
    rw [chance_nest]
    apply List.sum_eq_zero
    intro term hterm
    rcases List.mem_map.mp hterm with ⟨member, hmember, rfl⟩
    by_cases hself : member = .alternative position
    · have hvalue : member.value? utility? = none := by rw [hself, value?, hnone]
      rw [share_eq_zero hvalue, zero_mul]
    · rw [ih member hmember hself, mul_zero]

/-- An alternative in a nest has a chance when it is available. -/
theorem chance_pos_iff (hnodup : (nest name scale members).positions.Nodup)
    (hposition : position ∈ (nest name scale members).positions) :
    0 < chance utility? position (.nest name scale members) ↔ utility? position ≠ none := by
  constructor
  · rintro hpos hnone
    rw [chance_eq_zero_of_unavailable hnone (by simp)] at hpos
    exact lt_irrefl _ hpos
  · exact chance_pos hnodup hposition

end Nesting
end DiscreteChoice
