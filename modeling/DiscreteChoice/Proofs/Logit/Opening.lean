import DiscreteChoice.Proofs.Logit.Textbook

/-!
# Nestings under two vectors

What a nest is worth, and what chance an alternative has in it, depend on the alternatives in the nest
alone, and a nest is worth no less when more is available in it. Where everything that is available in a
nest is in one member, the nest is worth what the member is, and the alternatives have the chances that
they have in the member.

Main results:

- Theorems `Nesting.value?_congr` and `Nesting.chance_congr`: only the alternatives in a nesting matter.
- Theorem `Nesting.Grows.value?`: a nesting is worth no less when more is available.
- Theorem `Nesting.value?_opened`: a nesting without an alternative is worth the same when it is opened.
- Theorem `Nesting.eq_member_of_support`: a nest in which one member alone has something available.
-/

namespace DiscreteChoice
namespace Nesting

variable {utility? utility?' : Nat → Option Exact} {position i j : Nat} {u : Exact} {name : String}
  {scale : Exact} {members : List (Nesting Exact)} {member nesting : Nesting Exact}

/-! ## Only the alternatives in a nesting matter -/

/-- The value of a nesting depends on the alternatives in it only. -/
theorem value?_congr (h : ∀ position ∈ nesting.positions, utility? position = utility?' position) :
    nesting.value? utility? = nesting.value? utility?' := by
  induction nesting using Nesting.induction with
  | alternative position => simpa [value?, positions] using h
  | nest name scale members ih =>
    have hmembers : members.map (value? utility?) = members.map (value? utility?') :=
      List.map_congr_left fun member hmember =>
        ih member hmember fun position hposition => h position (positions_subset hmember hposition)
    rw [value?_nest, value?_nest, hmembers]

/-- The chances in a nesting depend on the alternatives in it only. -/
theorem chance_congr (h : ∀ position ∈ nesting.positions, utility? position = utility?' position) :
    nesting.chance utility? position = nesting.chance utility?' position := by
  induction nesting using Nesting.induction with
  | alternative other => rw [chance, chance]
  | nest name scale members ih =>
    have hvalue : ∀ member ∈ members, member.value? utility? = member.value? utility?' :=
      fun member hmember => value?_congr fun position hposition =>
        h position (positions_subset hmember hposition)
    rw [chance_nest, chance_nest]
    apply congrArg List.sum
    apply List.map_congr_left
    intro member hmember
    rw [share, share, hvalue member hmember, List.map_congr_left hvalue,
      ih member hmember fun position hposition => h position (positions_subset hmember hposition)]

/-! ## More that is available -/

/-- What has a value keeps it or gets a larger one. -/
def Grows (old new : Option Exact) : Prop :=
  ∀ x, old = some x → ∃ y, new = some y ∧ x.toReal ≤ y.toReal

theorem Grows.refl (value : Option Exact) : Grows value value :=
  fun x hx => ⟨x, hx, le_rfl⟩

/-- What has no value grows to anything. -/
theorem Grows.of_none (value : Option Exact) : Grows none value := by
  rintro x ⟨⟩

/-- The weight of what grows does not fall. -/
theorem Grows.weight_le {old new : Option Exact} (h : Grows old new) (hscale : 0 < scale.toReal) :
    weight scale old ≤ weight scale new := by
  cases old with
  | none => exact weight_nonneg scale new
  | some x =>
    rcases h x rfl with ⟨y, rfl, hle⟩
    exact Real.exp_le_exp.mpr (mul_le_mul_of_nonneg_left hle hscale.le)

/-- A nesting is worth no less when more is available. -/
theorem Grows.value? (hscales : nesting.HasScales fun scale => 0 < scale.toReal)
    (h : ∀ position, Grows (utility? position) (utility?' position)) :
    Grows (nesting.value? utility?) (nesting.value? utility?') := by
  induction nesting using Nesting.induction with
  | alternative position => simpa [Nesting.value?] using h position
  | nest name scale members ih =>
    rcases hasScales_nest.mp hscales with ⟨hscale, hmembers⟩
    have htotal : total scale (members.map (Nesting.value? utility?)) ≤
        total scale (members.map (Nesting.value? utility?')) := by
      rw [total, total, List.map_map, List.map_map]
      exact List.sum_le_sum fun member hmember =>
        (ih member hmember (hmembers member hmember)).weight_le hscale
    intro x hx
    rw [value?_nest] at hx
    have hexp := total_eq_exp hscale hx
    have hsome : composite? scale (members.map (Nesting.value? utility?')) ≠ none := by
      rw [composite?_ne_none_iff, ← total_pos_iff scale]
      exact (hexp ▸ Real.exp_pos _).trans_le htotal
    rcases Option.ne_none_iff_exists'.mp hsome with ⟨y, hy⟩
    refine ⟨y, (value?_nest).trans hy, ?_⟩
    rw [hexp, total_eq_exp hscale hy, Real.exp_le_exp] at htotal
    exact le_of_mul_le_mul_left htotal hscale

/-! ## One member among others -/

/-- The weights in a nest are that of a member and those of the others, which make a nest of the
alternatives that are not in the member. -/
theorem exists_total_split (hnodup : (nest name scale members).positions.Nodup)
    (hmember : member ∈ members) :
    ∃ others ⊆ members, (nest name scale others).positions.Nodup ∧
      (∀ position, position ∈ (nest name scale others).positions ↔
        position ∈ (nest name scale members).positions ∧ position ∉ member.positions) ∧
      ∀ utility?, total scale (members.map (value? utility?)) =
        weight scale (member.value? utility?) + total scale (others.map (value? utility?)) := by
  rcases exists_split hnodup hmember with ⟨before, after, rfl, hothers⟩
  have hsub : (before ++ after).Sublist (before ++ member :: after) :=
    (List.sublist_cons_self _ _).append_left before
  refine ⟨before ++ after, hsub.subset, ?_, ?_, ?_⟩
  · rw [positions] at hnodup ⊢
    exact hnodup.sublist (hsub.flatMap _)
  · intro position
    simp only [positions, List.flatMap_append, List.flatMap_cons, List.mem_append]
    have hdisjoint (hposition : position ∈ before.flatMap positions ∨
        position ∈ after.flatMap positions) : position ∉ member.positions := by
      rw [← List.mem_append, ← List.flatMap_append] at hposition
      rcases List.mem_flatMap.mp hposition with ⟨other, hother, hinside⟩
      exact hothers other hother position hinside
    tauto
  · intro utility?
    simp only [total, List.map_append, List.map_cons, List.sum_append, List.sum_cons]
    ring

/-- Members with nothing available have no weight together. -/
theorem total_eq_zero (h : ∀ position ∈ (nest name scale members).positions,
    utility? position = none) : total scale (members.map (value? utility?)) = 0 := by
  have hvalue : ¬value? utility? (.nest name scale members) ≠ none := by
    rw [value?_ne_none_iff]
    rintro ⟨position, hposition, havailable⟩
    exact havailable (h position hposition)
  rw [value?_nest, composite?_ne_none_iff, ← total_pos_iff scale] at hvalue
  exact le_antisymm (not_lt.mp hvalue) (total_nonneg _ _)

/-- Where everything that is available in a nest is in one member, the member has all the weight. -/
theorem total_of_support (hnodup : (nest name scale members).positions.Nodup)
    (hmember : member ∈ members)
    (hsupport : ∀ position ∈ (nest name scale members).positions, position ∉ member.positions →
      utility? position = none) :
    total scale (members.map (value? utility?)) = weight scale (member.value? utility?) := by
  rcases exists_total_split hnodup hmember with ⟨others, -, -, hothers, htotal⟩
  have hnone : ∀ position ∈ (nest name scale others).positions, utility? position = none := by
    intro position hposition
    rcases (hothers position).mp hposition with ⟨hmem, hnot⟩
    exact hsupport position hmem hnot
  rw [htotal, total_eq_zero hnone, add_zero]

/-- Where everything that is available in a nest is in one member, the nest is worth what the member is,
and an available alternative in it has the chance that it has there. -/
theorem eq_member_of_support (hscale : 0 < scale.toReal)
    (hnodup : (nest name scale members).positions.Nodup) (hmember : member ∈ members)
    (hsupport : ∀ position ∈ (nest name scale members).positions, position ∉ member.positions →
      utility? position = none)
    (hposition : position ∈ member.positions) (havailable : utility? position ≠ none) :
    value? utility? (.nest name scale members) = member.value? utility? ∧
      chance utility? position (.nest name scale members) = member.chance utility? position := by
  have hvalue : member.value? utility? ≠ none :=
    value?_ne_none_iff.mpr ⟨position, hposition, havailable⟩
  have hpos : 0 < weight scale (member.value? utility?) := (weight_pos_iff scale).mpr hvalue
  have htotal := total_of_support hnodup hmember hsupport
  constructor
  · rcases Option.ne_none_iff_exists'.mp hvalue with ⟨x, hx⟩
    rw [hx, weight] at htotal
    rw [value?_nest, composite?, if_pos, htotal, Real.log_exp, ← mul_assoc,
      one_div_mul_cancel hscale.ne', one_mul, hx]
    rw [← total_pos_iff scale, htotal]
    exact Real.exp_pos _
  · rw [chance_of_mem hnodup hmember hposition, share, htotal, div_self hpos.ne', one_mul]

/-! ## Opening an alternative -/

/-- The utilities with one more alternative available. -/
def opened (utility? : Nat → Option Exact) (j : Nat) (u : Exact) : Nat → Option Exact :=
  Function.update utility? j (some u)

@[simp] theorem opened_self : opened utility? j u j = some u := by
  simp [opened]

@[simp] theorem opened_of_ne (h : i ≠ j) : opened utility? j u i = utility? i := by
  simp [opened, h]

/-- Opening an alternative that is not available takes nothing away. -/
theorem grows_opened (hj : utility? j = none) (position : Nat) :
    Grows (utility? position) (opened utility? j u position) := by
  by_cases hself : position = j
  · subst hself
    rw [hj]
    exact .of_none _
  · rw [opened_of_ne hself]
    exact .refl _

/-- A nesting without the alternative is worth the same. -/
theorem value?_opened (hj : j ∉ nesting.positions) :
    nesting.value? (opened utility? j u) = nesting.value? utility? :=
  value?_congr fun _ hposition => opened_of_ne fun hself => hj (hself ▸ hposition)

/-- Members without the alternative have the same weight together. -/
theorem total_opened (hj : j ∉ (nest name scale members).positions) :
    total scale (members.map (value? (opened utility? j u))) =
      total scale (members.map (value? utility?)) := by
  congr 1
  apply List.map_congr_left
  intro member hmember
  exact value?_opened fun hmem => hj (positions_subset hmember hmem)

/-- In a nesting without the alternative all chances are the same. -/
theorem chance_opened (hj : j ∉ nesting.positions) :
    nesting.chance (opened utility? j u) i = nesting.chance utility? i :=
  chance_congr fun _ hposition => opened_of_ne fun hself => hj (hself ▸ hposition)

end Nesting
end DiscreteChoice
