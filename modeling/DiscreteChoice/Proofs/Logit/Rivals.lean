import DiscreteChoice.Proofs.Logit.Opening

/-!
# Two alternatives in a nesting

Opening an alternative takes from another one in the nest where the two meet, in proportion to the scale
of that nest, and gives to it in the nests around, because each nest around it is worth more than before.
What is given back is in proportion to the scales of the nests around. It is less than what was taken
as long as these are not larger, and it can be more as soon as one of them is. Nests around that hold
nothing else do not matter.

Main results:

- Theorem `Nesting.exists_meets`: two alternatives in a nesting meet somewhere.
- Theorem `Nesting.Meets.chance_le`: with no larger scale around, an alternative does not gain.
- Theorem `Nesting.Meets.gains`: with a larger scale around, it gains under some utilities.
-/

namespace DiscreteChoice
namespace Nesting

variable {utility? : Nat → Option Exact} {i j : Nat} {u : Exact} {name : String}
  {scale inner : Exact} {around : List Exact} {members : List (Nesting Exact)}
  {member nesting : Nesting Exact}

/-! ## Where two alternatives meet -/

/-- The innermost nest with two alternatives in it has a scale, and the nests around it that hold
further alternatives have the listed scales. -/
inductive Meets (i j : Nat) : Nesting Exact → Exact → List Exact → Prop where
  | here {name : String} {scale : Exact} {members : List (Nesting Exact)} {member : Nesting Exact} :
      member ∈ members → i ∈ member.positions → j ∉ member.positions →
      j ∈ (nest name scale members).positions → Meets i j (.nest name scale members) scale []
  | alone {name : String} {scale inner : Exact} {around : List Exact}
      {members : List (Nesting Exact)} {member : Nesting Exact} :
      member ∈ members → Meets i j member inner around →
      (∀ other ∈ (nest name scale members).positions, other ∈ member.positions) →
      Meets i j (.nest name scale members) inner around
  | beside {name : String} {scale inner : Exact} {around : List Exact}
      {members : List (Nesting Exact)} {member : Nesting Exact} {other : Nat} :
      member ∈ members → Meets i j member inner around →
      other ∈ (nest name scale members).positions → other ∉ member.positions →
      Meets i j (.nest name scale members) inner (scale :: around)

/-- Both alternatives are in the nesting, and they are not the same. -/
theorem Meets.mem_positions (h : Meets i j nesting inner around) :
    i ∈ nesting.positions ∧ j ∈ nesting.positions ∧ i ≠ j := by
  induction h with
  | here hmember hi hnot hj =>
    refine ⟨positions_subset hmember hi, hj, ?_⟩
    rintro rfl
    exact hnot hi
  | alone hmember _ _ ih
  | beside hmember _ _ _ ih =>
    exact ⟨positions_subset hmember ih.1, positions_subset hmember ih.2.1, ih.2.2⟩

/-- Two alternatives in a nesting meet somewhere. -/
theorem exists_meets (hi : i ∈ nesting.positions) (hj : j ∈ nesting.positions) (hne : i ≠ j) :
    ∃ inner around, Meets i j nesting inner around := by
  induction nesting using Nesting.induction with
  | alternative position =>
    rw [positions, List.mem_singleton] at hi hj
    exact absurd (hi.trans hj.symm) hne
  | nest name scale members ih =>
    have hmem := hi
    rw [positions] at hmem
    rcases List.mem_flatMap.mp hmem with ⟨member, hmember, hinside⟩
    by_cases hboth : j ∈ member.positions
    · rcases ih member hmember hinside hboth with ⟨inner, around, hmeets⟩
      by_cases hbeside : ∃ other ∈ (nest name scale members).positions, other ∉ member.positions
      · rcases hbeside with ⟨other, hother, houtside⟩
        exact ⟨inner, scale :: around, .beside hmember hmeets hother houtside⟩
      · refine ⟨inner, around, .alone hmember hmeets ?_⟩
        intro other hother
        by_contra houtside
        exact hbeside ⟨other, hother, houtside⟩
    · exact ⟨scale, [], .here hmember hinside hboth hj⟩

/-- The nest where two alternatives meet has a positive scale. -/
theorem Meets.inner_pos (h : Meets i j nesting inner around)
    (hscales : nesting.HasScales fun scale => 0 < scale.toReal) : 0 < inner.toReal := by
  induction h with
  | here => exact (hasScales_nest.mp hscales).1
  | alone hmember _ _ ih
  | beside hmember _ _ _ ih => exact ih ((hasScales_nest.mp hscales).2 _ hmember)

/-! ## What an alternative loses -/

/-- A nest gains no more value than its member. -/
theorem sub_le_sub_of_exp_add {s rest x x' y y' : ℝ} (hs : 0 < s) (hrest : 0 ≤ rest) (hle : y ≤ y')
    (hx : Real.exp (s * y) + rest = Real.exp (s * x))
    (hx' : Real.exp (s * y') + rest = Real.exp (s * x')) : x' - x ≤ y' - y := by
  have hgain : rest ≤ Real.exp (s * (y' - y)) * rest := by
    have hone : 1 ≤ Real.exp (s * (y' - y)) := Real.one_le_exp (mul_nonneg hs.le (sub_nonneg.mpr hle))
    exact le_mul_of_one_le_left hrest hone
  have hexp : Real.exp (s * x') ≤ Real.exp (s * (y' - y) + s * x) := by
    calc Real.exp (s * x') = Real.exp (s * y') + rest := hx'.symm
      _ ≤ Real.exp (s * (y' - y)) * Real.exp (s * y) + Real.exp (s * (y' - y)) * rest := by
        rw [← Real.exp_add]
        have hsum : s * (y' - y) + s * y = s * y' := by ring
        rw [hsum]
        linarith
      _ = Real.exp (s * (y' - y) + s * x) := by rw [← mul_add, hx, ← Real.exp_add]
  rw [Real.exp_le_exp, ← mul_add] at hexp
  linarith [le_of_mul_le_mul_left hexp hs]

/-- A bound for the chance in a member becomes one for the chance in the nest, where the nest gains less
value than the member, or its scale does not matter. -/
theorem exp_mul_le_of_step {s r x x' y y' c c' : ℝ} (hc : 0 ≤ c')
    (hmember : c' * Real.exp (r * (y' - y)) ≤ c)
    (hscale : s * (y' - y - (x' - x)) ≤ r * (y' - y - (x' - x))) :
    Real.exp (s * (y' - x')) * c' * Real.exp (r * (x' - x)) ≤ Real.exp (s * (y - x)) * c := by
  calc Real.exp (s * (y' - x')) * c' * Real.exp (r * (x' - x))
      = Real.exp (s * (y - x)) * (c' * Real.exp (s * (y' - y - (x' - x)) + r * (x' - x))) := by
        rw [mul_right_comm, ← Real.exp_add, mul_left_comm, ← Real.exp_add, mul_comm c']
        ring_nf
    _ ≤ Real.exp (s * (y - x)) * (c' * Real.exp (r * (y' - y))) := by
        apply mul_le_mul_of_nonneg_left _ (Real.exp_pos _).le
        apply mul_le_mul_of_nonneg_left _ hc
        rw [Real.exp_le_exp]
        linarith
    _ ≤ Real.exp (s * (y - x)) * c := mul_le_mul_of_nonneg_left hmember (Real.exp_pos _).le

/-- A chance in a nest is that in the member times the exponential of how far the member is below the
nest. -/
theorem chance_eq_exp_mul (hscale : 0 < scale.toReal)
    (hnodup : (nest name scale members).positions.Nodup) (hmember : member ∈ members)
    (hi : i ∈ member.positions) {x y : Exact}
    (hx : value? utility? (.nest name scale members) = some x)
    (hy : member.value? utility? = some y) :
    chance utility? i (.nest name scale members) =
      Real.exp (scale.toReal * (y.toReal - x.toReal)) * member.chance utility? i := by
  rw [chance_of_mem hnodup hmember hi, share_eq_exp hscale hx hy]

/-- What is available somewhere in a nesting gives it a value. -/
theorem exists_value? (hi : i ∈ nesting.positions) (havailable : utility? i ≠ none) :
    ∃ x, nesting.value? utility? = some x :=
  Option.ne_none_iff_exists'.mp (value?_ne_none_iff.mpr ⟨i, hi, havailable⟩)

/-- Where no nest around has a larger scale, an alternative loses at least what the scale of the nest
where it meets the opened one takes for the value that the nesting gains. -/
theorem Meets.chance_mul_exp_le (h : Meets i j nesting inner around)
    (hscales : nesting.HasScales fun scale => 0 < scale.toReal) (hnodup : nesting.positions.Nodup)
    (hi : utility? i ≠ none) (hj : utility? j = none)
    (haround : ∀ scale ∈ around, scale.toReal ≤ inner.toReal) {x x' : Exact}
    (hx : nesting.value? utility? = some x)
    (hx' : nesting.value? (opened utility? j u) = some x') :
    nesting.chance (opened utility? j u) i * Real.exp (inner.toReal * (x'.toReal - x.toReal)) ≤
      nesting.chance utility? i := by
  have hopen : opened utility? j u i ≠ none := by
    rw [opened_of_ne h.mem_positions.2.2]
    exact hi
  induction h generalizing x x' with
  | here hmember hmem hnot _ =>
    -- the branch of the alternative is as it was, so that the nest alone decides
    have hscale := (hasScales_nest.mp hscales).1
    rcases exists_value? hmem hi with ⟨y, hy⟩
    have hy' := (value?_opened (u := u) hnot).trans hy
    rw [chance_eq_exp_mul hscale hnodup hmember hmem hx hy,
      chance_eq_exp_mul hscale hnodup hmember hmem hx' hy', chance_opened hnot]
    apply le_of_eq
    rw [mul_right_comm, ← Real.exp_add]
    ring_nf
  | @alone name scale inner around members member hmember hmeets halone ih =>
    rcases hasScales_nest.mp hscales with ⟨hscale, hmembers⟩
    rcases hmeets.mem_positions with ⟨hmem, -, -⟩
    have hsupport {utility? : Nat → Option Exact} : ∀ position ∈ (nest name scale members).positions,
        position ∉ member.positions → utility? position = none :=
      fun position hposition hnot => absurd (halone position hposition) hnot
    rcases eq_member_of_support hscale hnodup hmember hsupport hmem hi with ⟨hvalue, hchance⟩
    rcases eq_member_of_support hscale hnodup hmember hsupport hmem hopen with ⟨hvalue', hchance'⟩
    rw [hchance, hchance']
    exact ih (hmembers member hmember) (nodup_of_mem hnodup hmember) haround (hvalue.symm.trans hx)
      (hvalue'.symm.trans hx')
  | @beside name scale inner around members member other hmember hmeets _ _ ih =>
    rcases hasScales_nest.mp hscales with ⟨hscale, hmembers⟩
    rcases hmeets.mem_positions with ⟨hmem, hjmem, -⟩
    rcases exists_value? hmem hi with ⟨y, hy⟩
    rcases exists_value? hmem hopen with ⟨y', hy'⟩
    have hnodup' := nodup_of_mem hnodup hmember
    have hbound := ih (hmembers member hmember) hnodup'
      (fun scale hscale => haround scale (List.mem_cons_of_mem _ hscale)) hy hy'
    rw [chance_eq_exp_mul hscale hnodup hmember hmem hx hy,
      chance_eq_exp_mul hscale hnodup hmember hmem hx' hy']
    refine exp_mul_le_of_step (chance_pos hnodup' hmem hopen).le hbound ?_
    apply mul_le_mul_of_nonneg_right (haround scale List.mem_cons_self)
    rcases exists_total_split hnodup hmember with ⟨others, -, -, hothers, htotal⟩
    have hjnot : j ∉ (nest name scale others).positions := fun hinside =>
      ((hothers j).mp hinside).2 hjmem
    have hgrows := Grows.value? (hmembers member hmember) (grows_opened (u := u) hj) y hy
    rcases hgrows with ⟨z, hz, hle⟩
    obtain rfl : y' = z := Option.some.inj (hy'.symm.trans hz)
    have hexp := total_eq_exp hscale ((value?_nest).symm.trans hx)
    have hexp' := total_eq_exp hscale ((value?_nest).symm.trans hx')
    rw [htotal, hy, weight] at hexp
    rw [htotal, hy', total_opened hjnot, weight] at hexp'
    exact sub_nonneg.mpr (sub_le_sub_of_exp_add hscale (total_nonneg _ _) hle hexp hexp')

/-- Where no nest around has a larger scale, opening an alternative raises no chance of the other
one. -/
theorem Meets.chance_le (h : Meets i j nesting inner around)
    (hscales : nesting.HasScales fun scale => 0 < scale.toReal) (hnodup : nesting.positions.Nodup)
    (hi : utility? i ≠ none) (hj : utility? j = none)
    (haround : ∀ scale ∈ around, scale.toReal ≤ inner.toReal) :
    nesting.chance (opened utility? j u) i ≤ nesting.chance utility? i := by
  rcases h.mem_positions with ⟨hmem, -, hne⟩
  have hopen : opened utility? j u i ≠ none := by
    rw [opened_of_ne hne]
    exact hi
  rcases exists_value? hmem hi with ⟨x, hx⟩
  rcases Grows.value? hscales (grows_opened (u := u) hj) x hx with ⟨x', hx', hle⟩
  have hone : 1 ≤ Real.exp (inner.toReal * (x'.toReal - x.toReal)) :=
    Real.one_le_exp (mul_nonneg (h.inner_pos hscales).le (sub_nonneg.mpr hle))
  calc nesting.chance (opened utility? j u) i
      ≤ nesting.chance (opened utility? j u) i * Real.exp (inner.toReal * (x'.toReal - x.toReal)) :=
        le_mul_of_one_le_right (chance_pos hnodup hmem hopen).le hone
    _ ≤ nesting.chance utility? i := h.chance_mul_exp_le hscales hnodup hi hj haround hx hx'

/-! ## What an alternative can gain -/

/-- A nesting in which one alternative is available is worth its utility, and the alternative has all the
chance. -/
theorem value?_of_sole (hscales : nesting.HasScales fun scale => 0 < scale.toReal)
    (hnodup : nesting.positions.Nodup) (hi : i ∈ nesting.positions) (hu : utility? i = some u)
    (hsole : ∀ position ∈ nesting.positions, position ≠ i → utility? position = none) :
    nesting.value? utility? = some u ∧ nesting.chance utility? i = 1 := by
  induction nesting using Nesting.induction with
  | alternative position =>
    obtain rfl : i = position := by simpa [positions] using hi
    exact ⟨by rw [value?, hu], by rw [chance, if_pos rfl]⟩
  | nest name scale members ih =>
    rcases hasScales_nest.mp hscales with ⟨hscale, hmembers⟩
    have hmem := hi
    rw [positions] at hmem
    rcases List.mem_flatMap.mp hmem with ⟨member, hmember, hinside⟩
    rcases ih member hmember (hmembers member hmember) (nodup_of_mem hnodup hmember) hinside
      (fun position hposition => hsole position (positions_subset hmember hposition)) with
      ⟨hvalue, hchance⟩
    have hsupport : ∀ position ∈ (nest name scale members).positions,
        position ∉ member.positions → utility? position = none := by
      intro position hposition hnot
      apply hsole position hposition
      rintro rfl
      exact hnot hinside
    rcases eq_member_of_support hscale hnodup hmember hsupport hinside (by simp [hu]) with
      ⟨hvalue', hchance'⟩
    exact ⟨hvalue'.trans hvalue, hchance'.trans hchance⟩

/-- Where two alternatives alone are available, nothing is available beside a member with both. -/
theorem Meets.support {positions : List Nat} (h : Meets i j member inner around)
    (hpair : ∀ position ∈ positions, position ≠ i → position ≠ j → utility? position = none) :
    ∀ position ∈ positions, position ∉ member.positions → utility? position = none := by
  rcases h.mem_positions with ⟨hmem, hjmem, -⟩
  intro position hposition hnot
  refine hpair position hposition ?_ ?_
  · rintro rfl
    exact hnot hmem
  · rintro rfl
    exact hnot hjmem

/-- Where two alternatives of utility zero alone are available, they have one half each, and the nest
where they meet decides what the nesting is worth. -/
theorem Meets.value?_of_pair (h : Meets i j nesting inner around)
    (hscales : nesting.HasScales fun scale => 0 < scale.toReal) (hnodup : nesting.positions.Nodup)
    (hi : utility? i = some 0) (hj : utility? j = some 0)
    (hpair : ∀ position ∈ nesting.positions, position ≠ i → position ≠ j →
      utility? position = none) :
    nesting.value? utility? = some ⟨Real.log 2 / inner.toReal⟩ ∧
      nesting.chance utility? i = 1 / 2 := by
  induction h with
  | @here name scale members member hmember hmem hnot hjmem =>
    rcases hasScales_nest.mp hscales with ⟨hscale, hmembers⟩
    rcases exists_total_split hnodup hmember with ⟨others, hsub, hrest, hothers, htotal⟩
    have hrestScales : (nest name scale others).HasScales fun scale => 0 < scale.toReal :=
      hasScales_nest.mpr ⟨hscale, fun other hother => hmembers other (hsub hother)⟩
    -- one of the two is alone in its branch, and the other one in the rest of the nest
    rcases value?_of_sole (hmembers member hmember) (nodup_of_mem hnodup hmember) hmem hi (by
      intro position hposition hne
      refine hpair position (positions_subset hmember hposition) hne ?_
      rintro rfl
      exact hnot hposition) with ⟨hvalue, hchance⟩
    have hopposite := (value?_of_sole hrestScales hrest ((hothers j).mpr ⟨hjmem, hnot⟩) hj (by
      intro position hposition hne
      rcases (hothers position).mp hposition with ⟨hinside, houtside⟩
      refine hpair position hinside ?_ hne
      rintro rfl
      exact houtside hmem)).1
    have hweights : total scale (members.map (value? utility?)) = 2 := by
      rw [htotal, hvalue, total_eq_exp hscale ((value?_nest).symm.trans hopposite)]
      simp [weight]
      norm_num
    constructor
    · rw [value?_nest, composite?, hweights, if_pos, one_div, inv_mul_eq_div]
      rw [← total_pos_iff scale, hweights]
      norm_num
    · rw [chance_of_mem hnodup hmember hmem, share, hweights, hvalue, hchance]
      simp [weight]
  | alone hmember hmeets _ ih
  | beside hmember hmeets _ _ ih =>
    rcases hasScales_nest.mp hscales with ⟨hscale, hmembers⟩
    rcases eq_member_of_support hscale hnodup hmember (hmeets.support hpair) hmeets.mem_positions.1
      (by simp [hi]) with ⟨hvalue, hchance⟩
    rw [hvalue, hchance]
    exact ih (hmembers _ hmember) (nodup_of_mem hnodup hmember) fun position hposition =>
      hpair position (positions_subset hmember hposition)

/-- Under some utilities of the alternatives in a nesting, opening the second of two alternatives raises
the chance of the first one. -/
def Gains (i j : Nat) (nesting : Nesting Exact) : Prop :=
  ∃ utility? u, (∀ position, position ∉ nesting.positions → utility? position = none) ∧
    utility? i ≠ none ∧ utility? j = none ∧
    nesting.chance utility? i < nesting.chance (opened utility? j u) i

/-- What an alternative gains in a member it gains in the nest when nothing else is available there. -/
theorem Meets.gains_of_member (h : Meets i j member inner around) (hscale : 0 < scale.toReal)
    (hnodup : (nest name scale members).positions.Nodup) (hmember : member ∈ members)
    (hgains : Gains i j member) : Gains i j (.nest name scale members) := by
  rcases hgains with ⟨utility?, u, hnone, hi, hj, hgain⟩
  rcases h.mem_positions with ⟨hmem, hjmem, hne⟩
  have hopen : opened utility? j u i ≠ none := by
    rw [opened_of_ne hne]
    exact hi
  have hnone' : ∀ position, position ∉ member.positions → opened utility? j u position = none := by
    intro position hnot
    rw [opened_of_ne, hnone position hnot]
    rintro rfl
    exact hnot hjmem
  refine ⟨utility?, u, ?_, hi, hj, ?_⟩
  · exact fun position hnot => hnone position fun hmem => hnot (positions_subset hmember hmem)
  · rw [(eq_member_of_support hscale hnodup hmember (fun position _ => hnone position) hmem hi).2,
      (eq_member_of_support hscale hnodup hmember (fun position _ => hnone' position) hmem hopen).2]
    exact hgain

/-- The utilities of two available alternatives, zero for the first one. -/
noncomputable def onlyTwo (i other : Nat) (u : Exact) (position : Nat) : Option Exact :=
  if position = i then some 0 else if position = other then some u else none

theorem onlyTwo_fst (other : Nat) : onlyTwo i other u i = some 0 :=
  if_pos rfl

theorem onlyTwo_snd {other : Nat} (h : other ≠ i) : onlyTwo i other u other = some u := by
  rw [onlyTwo, if_neg h, if_pos rfl]

theorem onlyTwo_of_ne {other position : Nat} (hi : position ≠ i) (hother : position ≠ other) :
    onlyTwo i other u position = none := by
  rw [onlyTwo, if_neg hi, if_neg hother]

/-- A weight of more than two, halved, is a larger share beside a large enough weight than a weight of
one. -/
theorem one_div_lt_half_share {weight : ℝ} (h : 2 < weight) :
    1 / (1 + (weight / (weight - 2) + 1)) <
      weight / (weight + (weight / (weight - 2) + 1)) * (1 / 2) := by
  have hpos : 0 < weight - 2 := sub_pos.mpr h
  rw [div_mul_div_comm, mul_one, div_lt_div_iff₀ (by positivity) (by positivity)]
  have hrest : weight / (weight - 2) * (weight - 2) = weight := div_mul_cancel₀ weight hpos.ne'
  nlinarith

/-- Every positive weight is that of some utility. -/
theorem exists_weight (hscale : 0 < scale.toReal) {w : ℝ} (hw : 0 < w) :
    ∃ u, weight scale (some u) = w :=
  ⟨⟨Real.log w / scale.toReal⟩, by rw [weight, mul_div_cancel₀ _ hscale.ne', Real.exp_log hw]⟩

/-- Two equal alternatives in a nest have more than twice the weight of one in a nest of a larger
scale. -/
theorem two_lt_exp (hinner : 0 < inner.toReal) (hexceeds : inner.toReal < scale.toReal) :
    2 < Real.exp (scale.toReal * (Real.log 2 / inner.toReal)) := by
  rw [← Real.log_lt_iff_lt_exp two_pos, mul_div_assoc', lt_div_iff₀ hinner, mul_comm]
  exact mul_lt_mul_of_pos_right hexceeds (Real.log_pos one_lt_two)

/-- In a nest of a larger scale than that of the nest where it meets the opened alternative, an
alternative gains beside a third one that is attractive enough. -/
theorem Meets.gains_beside (h : Meets i j member inner around) {other : Nat}
    (hscales : (nest name scale members).HasScales fun scale => 0 < scale.toReal)
    (hnodup : (nest name scale members).positions.Nodup) (hmember : member ∈ members)
    (hother : other ∈ (nest name scale members).positions) (houtside : other ∉ member.positions)
    (hexceeds : inner.toReal < scale.toReal) : Gains i j (.nest name scale members) := by
  rcases hasScales_nest.mp hscales with ⟨hscale, hmembers⟩
  rcases h.mem_positions with ⟨hmem, hjmem, hne⟩
  have hinner := h.inner_pos (hmembers member hmember)
  have hnodup' := nodup_of_mem hnodup hmember
  have hnotOther : ∀ position ∈ member.positions, position ≠ other := by
    rintro position hposition rfl
    exact houtside hposition
  have hdouble := two_lt_exp hinner hexceeds
  generalize hboth : Real.exp (scale.toReal * (Real.log 2 / inner.toReal)) = both at hdouble
  have hpos : 0 < both / (both - 2) + 1 := by
    have := sub_pos.mpr hdouble
    positivity
  rcases exists_weight hscale hpos with ⟨u, hu⟩
  refine ⟨onlyTwo i other u, 0, ?_, by simp [onlyTwo_fst], onlyTwo_of_ne hne.symm (hnotOther j hjmem),
    ?_⟩
  · intro position hnot
    refine onlyTwo_of_ne ?_ ?_
    · rintro rfl
      exact hnot (positions_subset hmember hmem)
    · rintro rfl
      exact hnot hother
  rcases exists_total_split hnodup hmember with ⟨others, hsub, hrest, hothers, htotal⟩
  have hrestScales : (nest name scale others).HasScales fun scale => 0 < scale.toReal :=
    hasScales_nest.mpr ⟨hscale, fun other hother => hmembers other (hsub hother)⟩
  have hapart : ∀ position ∈ (nest name scale others).positions, position ∉ member.positions :=
    fun position hposition => ((hothers position).mp hposition).2
  have hnotI : ∀ position ∈ (nest name scale others).positions, position ≠ i := by
    rintro position hposition rfl
    exact hapart position hposition hmem
  -- the alternative alone in the member, and the third one alone in the rest of the nest
  rcases value?_of_sole (hmembers member hmember) hnodup' hmem (onlyTwo_fst other)
    (fun position hposition hi => onlyTwo_of_ne (u := u) hi (hnotOther position hposition)) with
    ⟨hvalue, hchance⟩
  have hotherMem := (hothers other).mpr ⟨hother, houtside⟩
  have hrestValue := (value?_of_sole hrestScales hrest hotherMem
    (onlyTwo_snd (u := u) (hnotI other hotherMem))
    fun position hposition => onlyTwo_of_ne (hnotI position hposition)).1
  have hrestTotal : total scale (others.map (value? (onlyTwo i other u))) =
      both / (both - 2) + 1 := by
    rw [total_eq_exp hscale ((value?_nest).symm.trans hrestValue), ← hu, weight]
  -- both alternatives in the member, and the rest as before
  have hsame : total scale (others.map (value? (opened (onlyTwo i other u) j 0))) =
      total scale (others.map (value? (onlyTwo i other u))) :=
    total_opened fun hinside => hapart j hinside hjmem
  have hpair : ∀ position ∈ member.positions, position ≠ i → position ≠ j →
      opened (onlyTwo i other u) j 0 position = none := by
    intro position hposition hi hj
    rw [opened_of_ne hj, onlyTwo_of_ne hi (hnotOther position hposition)]
  rcases h.value?_of_pair (hmembers member hmember) hnodup'
    ((opened_of_ne hne).trans (onlyTwo_fst other)) opened_self hpair with ⟨hvalue', hchance'⟩
  rw [chance_of_mem hnodup hmember hmem, chance_of_mem hnodup hmember hmem, share, share, htotal,
    htotal, hsame, hrestTotal, hvalue, hvalue', hchance, hchance']
  simp only [weight, hboth, Exact.toReal_zero, mul_zero, Real.exp_zero, mul_one]
  exact one_div_lt_half_share hdouble

/-- Where a nest around has a larger scale, there are utilities under which opening an alternative raises
the chance of the other one. -/
theorem Meets.gains (h : Meets i j nesting inner around)
    (hscales : nesting.HasScales fun scale => 0 < scale.toReal) (hnodup : nesting.positions.Nodup)
    (hexceeds : ∃ scale ∈ around, inner.toReal < scale.toReal) : Gains i j nesting := by
  induction h with
  | here => simp at hexceeds
  | alone hmember hmeets _ ih =>
    rcases hasScales_nest.mp hscales with ⟨hscale, hmembers⟩
    exact hmeets.gains_of_member hscale hnodup hmember
      (ih (hmembers _ hmember) (nodup_of_mem hnodup hmember) hexceeds)
  | beside hmember hmeets hother houtside ih =>
    rcases hasScales_nest.mp hscales with ⟨hscale, hmembers⟩
    rcases hexceeds with ⟨larger, hlarger, hexceeds⟩
    rcases List.mem_cons.mp hlarger with rfl | hlarger
    · exact hmeets.gains_beside hscales hnodup hmember hother houtside hexceeds
    · exact hmeets.gains_of_member hscale hnodup hmember
        (ih (hmembers _ hmember) (nodup_of_mem hnodup hmember) ⟨larger, hlarger, hexceeds⟩)

end Nesting
end DiscreteChoice
