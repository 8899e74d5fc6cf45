import DiscreteChoice.Proofs.Logit.Removal
import DiscreteChoice.Proofs.Numeric.DoubleScaling

/-!
# Certain choices

The only alternative that is available is chosen with the probability one, and rounding takes nothing
from it. Every nest on the way to it has one member with a value. The exponential of what this value is
below itself is one, and the logarithm of one is nothing, so that the nest hands on all that it has. The
value itself is scaled there and back at every nest, which leaves it finite.

Main results:

- Theorem `Logit.logSumExp?_singleton`: the log-sum-exp of one entry.
- Theorem `Nesting.reaches_one_of_sole`: the only available alternative of a nesting is reached for
  certain.
- Theorem `Logit.probabilities_of_sole`: the probabilities of every tree that can be built when one
  alternative is available.
-/

namespace DiscreteChoice

open Numeric LawfulNumeric RoundingNumeric NestTree

/-- What the exponential and the logarithm of a library are where nothing is left to round: the
exponential of both zeros is one, and the logarithm of one is zero. -/
structure Double.MathLibrary.IsUnital (library : Double.MathLibrary) : Prop where
  exp_zero (x : Float) : (x == 0) = true → library.exp x = 1
  ln_one : library.ln 1 = 0

variable {library : Double.MathLibrary}

/-- When a function has a result for one entry of a list alone, this is the only one. -/
theorem filterMap_eq_singleton {β γ : Type} {f : β → Option γ} {before after : List β} {x : β} {y : γ}
    (hx : f x = some y) (hothers : ∀ other ∈ before ++ after, f other = none) :
    (before ++ x :: after).filterMap f = [y] := by
  have hbefore : before.filterMap f = [] :=
    List.filterMap_eq_nil_iff.mpr fun other hother => hothers other (List.mem_append_left _ hother)
  have hafter : after.filterMap f = [] :=
    List.filterMap_eq_nil_iff.mpr fun other hother => hothers other (List.mem_append_right _ hother)
  rw [List.filterMap_append, List.filterMap_cons, hx, hbefore, hafter]
  rfl

namespace Logit

/-! ## One entry alone -/

/-- The exponential of what stands for zero is one, to the bit. -/
theorem exp_eq_one (unital : library.IsUnital) {x : Double.With library} (h : Denotes x 0) :
    exp x = 1 := by
  refine unital.exp_zero x ((Double.beq_iff x 0).mpr ⟨h.1, by decide, ?_⟩)
  exact h.2.trans Double.value_zero.symm

/-- The log-sum-exp of one entry is the entry, with nothing added to it. -/
theorem logSumExp?_singleton (unital : library.IsUnital) {x : Double.With library}
    (hx : isFinite x = true) : logSumExp? [x] = some (x + 0) := by
  have hexp : exp (x - x) = 1 := exp_eq_one unital (denotes_sub_self hx)
  have hsum : (-0 + 1 : Double.With library) = 1 := by
    change (-0 + 1 : Float) = 1
    decide
  have hln : ln (1 : Double.With library) = 0 := unital.ln_one
  rw [logSumExp?]
  simp only [maximum?, List.foldl_nil, hx, if_true, List.map_cons, List.map_nil, sum,
    List.foldl_cons, hexp, hsum, hln]

end Logit

namespace Nesting

variable {v : UtilityVector (Double.With library)} {nesting member : Nesting (Double.With library)}
  {members : List (Nesting (Double.With library))} {name : String} {position : Nat}
  {scale u x : Double.With library}

/-! ## The way to the only alternative -/

/-- A nesting in which nothing is available has no value. -/
theorem computed?_eq_none {α : Type} [Numeric α] {v : UtilityVector α} {nesting : Nesting α}
    (h : ∀ position ∈ nesting.positions, v.utility? position = none) :
    nesting.computed? v = none := by
  induction nesting using Nesting.induction with
  | alternative position => simpa [computed?, positions] using h
  | nest name scale members ih =>
    have hvalues : members.filterMap (computed? v) = [] := by
      rw [List.filterMap_eq_nil_iff]
      intro member hmember
      exact ih member hmember fun position hposition => h position (positions_subset hmember hposition)
    rw [computed?, hvalues]
    rfl

/-- A member that alone has a value is alone among the values of the members. -/
theorem filterMap_computed?_eq (hnodup : (nest name scale members).positions.Nodup)
    (hmember : member ∈ members) (hx : member.computed? v = some x)
    (hothers : ∀ position ∈ (nest name scale members).positions, position ∉ member.positions →
      v.utility? position = none) : members.filterMap (computed? v) = [x] := by
  rcases exists_split hnodup hmember with ⟨before, after, rfl, hapart⟩
  have hnone : ∀ other ∈ before ++ after, other.computed? v = none := by
    intro other hother
    apply computed?_eq_none
    intro position hposition
    refine hothers position ?_ (hapart other hother position hposition)
    have hmem : other ∈ before ++ member :: after := by
      simp only [List.mem_append, List.mem_cons] at hother ⊢
      tauto
    exact positions_subset hmem hposition
  exact filterMap_eq_singleton hx hnone

section

variable (unital : library.IsUnital) (hscale : RoundingNumeric.IsScale scale)
  (hx : Numeric.isFinite x = true) (hvalues : members.filterMap (computed? v) = [x])

include unital hscale hx hvalues

/-- The log-sum-exp of a nest in which one member has a value is the scaled value. -/
theorem logSumExp?_of_alone :
    Logit.logSumExp? ((members.filterMap (computed? v)).map (scale * ·)) =
      some (scale * x + 0) := by
  rw [hvalues, List.map_cons, List.map_nil]
  apply Logit.logSumExp?_singleton unital
  rw [hscale.isFinite_mul (isNaN_of_isFinite hx), hx]

/-- A nest in which one member has a finite value has a finite value. -/
theorem exists_computed?_of_alone (name : String) :
    ∃ y, (nest name scale members).computed? v = some y ∧ Numeric.isFinite y = true := by
  refine ⟨(scale * x + 0) / scale, ?_, ?_⟩
  · rw [computed?, logSumExp?_of_alone unital hscale hx hvalues]
    rfl
  · have hscaled := (hscale.denotes_mul (isNaN_of_isFinite hx)).1
    rw [hscale.isFinite_div_congr hscaled (denotes_add_zero hscaled)]
    exact Double.isFinite_mul_div hscale hx

/-- A nest that is reached for certain hands all of it on to the member that alone has a value. -/
theorem handed_of_alone (hmember : member.computed? v = some x) :
    handed v scale members 1 member = 1 := by
  have hreached : Numeric.eq (1 : Double.With library) 0 = false := by
    change ((1 : Float) == 0) = false
    decide
  have hscaled : Numeric.isFinite (scale * x) = true := by
    rw [hscale.isFinite_mul (isNaN_of_isFinite hx), hx]
  have hexp : exp (scale * x - (scale * x + 0)) = 1 :=
    Logit.exp_eq_one unital
      (denotes_sub_of_value_eq hscaled (denotes_add_zero (isNaN_of_isFinite hscaled)))
  have hone : (1 * 1 : Double.With library) = 1 := by
    change (1 * 1 : Float) = 1
    decide
  rw [handed, hreached, logSumExp?_of_alone unital hscale hx hvalues, hmember]
  simp only [Bool.false_eq_true, if_false, hexp, hone]

end

/-- The only available alternative of a nesting is reached for certain, and the nesting has a finite
value. -/
theorem reaches_one_of_sole (unital : library.IsUnital)
    (hscales : nesting.HasScales RoundingNumeric.IsScale) (hnodup : nesting.positions.Nodup)
    (hposition : position ∈ nesting.positions) (hu : v.utility? position = some u)
    (hfinite : Numeric.isFinite u = true)
    (hsole : ∀ other ∈ nesting.positions, other ≠ position → v.utility? other = none) :
    (∃ x, nesting.computed? v = some x ∧ Numeric.isFinite x = true) ∧
      Reaches v position nesting 1 1 := by
  induction nesting using Nesting.induction with
  | alternative other =>
    obtain rfl : position = other := by simpa [positions] using hposition
    exact ⟨⟨u, by rw [computed?, hu], hfinite⟩, .here⟩
  | nest name scale members ih =>
    rcases hasScales_nest.mp hscales with ⟨hscale, hmembers⟩
    rw [positions] at hposition
    rcases List.mem_flatMap.mp hposition with ⟨member, hmember, hinside⟩
    rcases ih member hmember (hmembers member hmember) (nodup_of_mem hnodup hmember) hinside
      (fun other hother => hsole other (positions_subset hmember hother)) with
      ⟨⟨x, hvalue, hx⟩, hreaches⟩
    have hvalues : members.filterMap (computed? v) = [x] := by
      apply filterMap_computed?_eq hnodup hmember hvalue
      intro other hother hnot
      apply hsole other hother
      rintro rfl
      exact hnot hinside
    refine ⟨exists_computed?_of_alone unital hscale hx hvalues name, .branch hmember ?_⟩
    rwa [handed_of_alone unital hscale hx hvalues hvalue]

end Nesting

namespace Logit

variable {v : UtilityVector (Double.With library)} {tree : NestTree (Double.With library)}
  {count position : Nat} {u : Double.With library}

/-- In the nested model the only available alternative is chosen for certain. -/
theorem nestedProbabilities_of_sole (unital : library.IsUnital) (built : tree.IsBuilt count)
    (hsize : v.size = count) (hu : v.utility? position = some u)
    (hfinite : Numeric.isFinite u = true)
    (hsole : ∀ other ≠ position, v.isAvailable other = false) :
    ∃ p logsum, nestedProbabilities tree v = .ok (p, logsum) ∧ p.size = count ∧
      ∀ other < count, p[other]? = some (if other = position then 1 else 0) := by
  rcases built.laysOut isScale_one with ⟨nesting, h⟩
  have hposition : position ∈ nesting.positions := by
    rw [h.mem_positions, ← hsize]
    exact UtilityVector.lt_size_of_utility? hu
  have hscales : nesting.HasScales RoundingNumeric.IsScale := h.hasScales fun _ => IsScale.of_check
  have hothers : ∀ other ∈ nesting.positions, other ≠ position → v.utility? other = none := by
    intro other _ hne
    simpa [UtilityVector.isAvailable] using hsole other hne
  rcases Nesting.reaches_one_of_sole unital hscales h.nodup_positions hposition hu hfinite hothers with
    ⟨⟨logsum, hlogsum, -⟩, hreaches⟩
  have hsound := Reach.sound_final tree v
  refine ⟨(Reach.final tree v).alternatives, logsum, ?_, hsound.size_eq.trans hsize, ?_⟩
  · rw [nestedProbabilities_eq, nestedLogsum_eq_computed? h.arranges, hlogsum]
    rfl
  · intro other hother
    have hroom : other < (Reach.final tree v).alternatives.size := by
      rw [hsound.size_eq, hsize]
      exact hother
    rw [Array.getElem?_eq_getElem hroom, Option.some.injEq]
    split_ifs with hother
    · subst hother
      have hbound := lt_size_of_laysOut h hsize
      have hone := probability_of_reaches h.arranges hbound hreaches h.unfolds
        (Reach.swept h.arranges hbound).root
      rwa [Reach.probability, Array.getElem?_eq_getElem hroom, Option.getD_some] at hone
    · exact hsound.unavailable (Array.getElem?_eq_getElem hroom) (hsole other hother)

/-! ## The flat model -/

/-- The available utilities are those of the positions in order. -/
theorem availableUtilities_eq {α : Type} (v : UtilityVector α) :
    v.availableUtilities = (List.range v.size).filterMap v.utility? := by
  rw [UtilityVector.availableUtilities, ← v.map_utility?_range, List.filterMap_map]
  rfl

/-- The only available utility is that of the only available alternative. -/
theorem availableUtilities_of_sole {α : Type} {v : UtilityVector α} {u : α}
    (hu : v.utility? position = some u)
    (hsole : ∀ other ≠ position, v.isAvailable other = false) : v.availableUtilities = [u] := by
  have hmem : position ∈ List.range v.size :=
    List.mem_range.mpr (UtilityVector.lt_size_of_utility? hu)
  rcases List.append_of_mem hmem with ⟨before, after, hsplit⟩
  have hnodup : (before ++ position :: after).Nodup := hsplit ▸ List.nodup_range
  rcases List.nodup_middle.mp hnodup with _ | ⟨hnot, -⟩
  have hnone : ∀ other ∈ before ++ after, v.utility? other = none := by
    intro other hother
    have hne : other ≠ position := (hnot other hother).symm
    simpa [UtilityVector.isAvailable] using hsole other hne
  rw [availableUtilities_eq, hsplit]
  exact filterMap_eq_singleton hu hnone

/-- In the flat model the only available alternative is chosen for certain. -/
theorem flatProbabilities_of_sole (unital : library.IsUnital) (hu : v.utility? position = some u)
    (hfinite : Numeric.isFinite u = true)
    (hsole : ∀ other ≠ position, v.isAvailable other = false) :
    ∃ p, flatProbabilities v = .ok p ∧ p.size = v.size ∧
      ∀ other < v.size, p[other]? = some (if other = position then 1 else 0) := by
  have hutilities := availableUtilities_of_sole hu hsole
  have hexp : exp (u - u) = 1 := exp_eq_one unital (denotes_sub_self hfinite)
  have htotal : (0 + 1 : Double.With library) = 1 := by
    change (0 + 1 : Float) = 1
    decide
  have hrun : flatProbabilities v = .ok (v.entries.map fun entry => weight u entry / 1) := by
    rw [flatProbabilities, hutilities]
    simp only [maximum?, List.foldl_nil, List.foldl_cons, hfinite, if_true, hexp, htotal]
  refine ⟨_, hrun, Array.size_map, ?_⟩
  intro other hother
  rw [Array.getElem?_map, Array.getElem?_eq_getElem hother, Option.map_some, Option.some.injEq]
  split_ifs with heq
  · subst heq
    have hentry : v.entries[other] = some u := by
      simpa [UtilityVector.utility?, Array.getElem?_eq_getElem hother] using hu
    rw [hentry, weight, hexp]
    change (1 / 1 : Float) = 1
    decide
  · have hentry : v.entries[other] = none := by
      simpa [UtilityVector.isAvailable, UtilityVector.utility?, Array.getElem?_eq_getElem hother]
        using hsole other heq
    have hpos : (0 : Float) < 1 := by decide
    rw [hentry, weight]
    exact Double.zero_div hpos

/-! ## Both models -/

/-- For every tree that can be built and every vector of its size in which one alternative alone is
available, with any finite utility, the alternative has the probability one and every other position the
probability zero, to the bit. -/
theorem probabilities_of_sole (unital : library.IsUnital) (built : tree.IsBuilt count)
    (hsize : v.size = count) (hu : v.utility? position = some u)
    (hfinite : Numeric.isFinite u = true)
    (hsole : ∀ other ≠ position, v.isAvailable other = false) :
    ∃ p logsum, probabilities tree v = .ok (p, logsum) ∧ p.size = count ∧
      ∀ other < count, p[other]? = some (if other = position then 1 else 0) := by
  unfold probabilities
  split
  · rcases flatProbabilities_of_sole unital hu hfinite hsole with ⟨p, hp, hpsize, hentries⟩
    refine ⟨p, u + 0, ?_, hpsize.trans hsize, hsize ▸ hentries⟩
    have hlogsum : flatLogsum v = .ok (u + 0) := by
      rw [flatLogsum, availableUtilities_of_sole hu hsole, logSumExp?_singleton unital hfinite]
    rw [hp, hlogsum]
    rfl
  · exact nestedProbabilities_of_sole unital built hsize hu hfinite hsole

/-- The coarse library is exact where nothing is left to round. -/
theorem isUnital_coarse : Double.MathLibrary.coarse.IsUnital where
  exp_zero x hx := if_pos hx
  ln_one := by
    have hne : ((1 : Float) == 2) = false := by decide
    simp [Double.MathLibrary.coarse, hne]

/-- One way of transit is available, inside the transit nest, and nothing else. -/
def transitOnly : UtilityVector (Double.With .coarse) :=
  ⟨7, #[none, some half, none]⟩

/-- The one way of transit is chosen for certain, although its utility is scaled there and back. -/
theorem transitOnly_certain :
    Double.MathLibrary.coarse.IsUnital ∧ (walkAndTransitTree half).IsBuilt 3 ∧
      transitOnly.size = 3 ∧ transitOnly.utility? 1 = some half ∧ Numeric.isFinite half = true ∧
      (∀ other ≠ 1, transitOnly.isAvailable other = false) ∧
      ∃ p logsum, probabilities (walkAndTransitTree half) transitOnly = .ok (p, logsum) ∧
        p[0]? = some 0 ∧ p[1]? = some 1 ∧ p[2]? = some 0 := by
  have hscale : Nesting.IsScale half := by
    with_unfolding_all rfl
  have built : (walkAndTransitTree half).IsBuilt 3 :=
    .ofConfig numbering_walkAndTransitPositions (ofConfig_walkAndTransit isScale_one hscale)
  have hfinite : Numeric.isFinite half = true := by
    with_unfolding_all rfl
  have hsole : ∀ other ≠ 1, transitOnly.isAvailable other = false := by
    rintro (_ | _ | _ | other) hne
    · rfl
    · exact absurd rfl hne
    · rfl
    · rfl
  rcases probabilities_of_sole isUnital_coarse built rfl rfl hfinite hsole with
    ⟨p, logsum, hp, -, hentries⟩
  refine ⟨isUnital_coarse, built, rfl, rfl, hfinite, hsole, p, logsum, hp, ?_, ?_, ?_⟩
  · exact hentries 0 (by decide)
  · exact hentries 1 (by decide)
  · exact hentries 2 (by decide)

end Logit
end DiscreteChoice
