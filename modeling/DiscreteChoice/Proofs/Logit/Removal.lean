import DiscreteChoice.Proofs.Logit.Composite
import DiscreteChoice.Proofs.Logit.Sweep
import DiscreteChoice.Proofs.Nest.Pruning
import DiscreteChoice.Proofs.Numeric.DoubleArithmetic

/-!
# Alternatives that are not available

Taking what is not available out of a model changes nothing: neither the alternatives that are left, nor
the nests around them, have other numbers without it. In the nested model both walks are followed on the
nesting that a tree arranges, where the nests have no places: what they compute for a nesting they
compute for what is left of it.

Main results:

- Theorem `Logit.childValue?_eq_computed?`: the composite utilities are computed from the nesting.
- Theorem `Logit.probability_of_reaches`: so are the probabilities with which alternatives are reached.
- Theorem `Nesting.computed?_prune`: a nesting and what is left of it have the same value.
- Theorem `Logit.probabilities_of_removed`: what the probabilities are without the alternatives that are
  not available, in both models.
-/

namespace DiscreteChoice

open Numeric NestTree

variable {α : Type} [Numeric α]

/-! ## What is computed for a nesting -/

namespace Nesting

/-- The value that is computed for a nesting: the utility of an available alternative, or the composite
utility of a nest. -/
def computed? (v : UtilityVector α) : Nesting α → Option α
  | .alternative position => v.utility? position
  | .nest _ scale members =>
    (Logit.logSumExp? ((members.filterMap (computed? v)).map (scale * ·))).map (· / scale)

/-- What a nest that is reached with a probability hands on to a member. -/
def handed (v : UtilityVector α) (scale : α) (members : List (Nesting α)) (own : α)
    (member : Nesting α) : α :=
  if eq own 0 then 0
  else
    match Logit.logSumExp? ((members.filterMap (computed? v)).map (scale * ·)),
        member.computed? v with
    | some denominator, some value => own * exp (scale * value - denominator)
    | _, _ => 0

/-- When a nesting is reached with a probability, an alternative in it is reached with another one. -/
inductive Reaches (v : UtilityVector α) (position : Nat) : Nesting α → α → α → Prop where
  | here {own : α} : Reaches v position (.alternative position) own own
  | branch {name : String} {scale : α} {members : List (Nesting α)} {member : Nesting α}
      {own p : α} : member ∈ members →
      Reaches v position member (handed v scale members own member) p →
      Reaches v position (.nest name scale members) own p

variable {v : UtilityVector α} {nesting pruned : Nesting α} {position : Nat}

/-- Every alternative in a nesting is reached with some probability. -/
theorem exists_reaches (h : position ∈ nesting.positions) (own : α) :
    ∃ p, Reaches v position nesting own p := by
  induction nesting using Nesting.induction generalizing own with
  | alternative other =>
    obtain rfl : position = other := by simpa [positions] using h
    exact ⟨own, .here⟩
  | nest name scale members ih =>
    rw [positions] at h
    rcases List.mem_flatMap.mp h with ⟨member, hmember, hposition⟩
    rcases ih member hmember hposition (handed v scale members own member) with ⟨p, hp⟩
    exact ⟨p, .branch hmember hp⟩

/-! ## What is left of a nesting -/

/-- Members that are dropped have no value, and the others keep theirs. -/
theorem filterMap_computed?_prune {members : List (Nesting α)}
    (ih : ∀ member ∈ members,
      (member.prune v.isAvailable).bind (computed? v) = member.computed? v) :
    (members.filterMap (prune v.isAvailable)).filterMap (computed? v) =
      members.filterMap (computed? v) := by
  rw [List.filterMap_filterMap]
  exact List.filterMap_congr ih

/-- What is left of a nesting has its value, and when nothing is left it has none. -/
theorem computed?_prune (v : UtilityVector α) (nesting : Nesting α) :
    (nesting.prune v.isAvailable).bind (computed? v) = nesting.computed? v := by
  induction nesting using Nesting.induction with
  | alternative position =>
    cases hutility : v.utility? position with
    | none => simp [prune, computed?, UtilityVector.isAvailable, hutility]
    | some u => simp [prune, computed?, UtilityVector.isAvailable, hutility]
  | nest name scale members ih =>
    have hvalues := filterMap_computed?_prune ih
    cases hprune : (nest name scale members).prune v.isAvailable with
    | none =>
      rw [prune] at hprune
      have hleft : members.filterMap (prune v.isAvailable) = [] := by
        simpa [List.isEmpty_iff] using hprune
      rw [hleft] at hvalues
      rw [computed?, ← hvalues]
      rfl
    | some pruned =>
      rcases prune_nest_eq_some_iff.mp hprune with ⟨-, rfl⟩
      rw [Option.bind_some, computed?, computed?, hvalues]

/-- A nest hands on to what is left of a member what it handed on to the member. -/
theorem handed_prune {members : List (Nesting α)} {member : Nesting α}
    (h : member.prune v.isAvailable = some pruned) (scale own : α) :
    handed v scale (members.filterMap (prune v.isAvailable)) own pruned =
      handed v scale members own member := by
  have hvalue := computed?_prune v member
  rw [h, Option.bind_some] at hvalue
  rw [handed, handed, filterMap_computed?_prune fun member _ => computed?_prune v member, hvalue]

/-- An available alternative is reached in what is left as it was reached before. -/
theorem Reaches.prune {own p : α} (h : Reaches v position nesting own p)
    (havailable : v.isAvailable position = true) :
    ∃ pruned, nesting.prune v.isAvailable = some pruned ∧ Reaches v position pruned own p := by
  induction h with
  | here => exact ⟨_, by rw [Nesting.prune, if_pos havailable], .here⟩
  | branch hmember _ ih =>
    rcases ih with ⟨pruned, hpruned, hreaches⟩
    have hleft := List.mem_filterMap.mpr ⟨_, hmember, hpruned⟩
    refine ⟨_, prune_nest_eq_some_iff.mpr ⟨List.ne_nil_of_mem hleft, rfl⟩, .branch hleft ?_⟩
    rwa [handed_prune hpruned]

end Nesting

namespace Logit

/-! ## The walks on a nesting -/

variable {tree pruned : NestTree α} {nesting left whole : Nesting α} {v : UtilityVector α}
  {child : Child} {count alternatives : Nat}

omit [Numeric α] in
/-- Members that have the values of nestings have the same values in order. -/
theorem filterMap_eq_of_forall₂ {β : Type} {related : Child → Nesting α → Prop}
    {children : List Child} {members : List (Nesting α)} {f : Child → Option β}
    {g : Nesting α → Option β} (h : List.Forall₂ related children members)
    (hvalues : ∀ member ∈ members, ∀ child, related child member → f child = g member) :
    children.filterMap f = members.filterMap g := by
  have hmap := map_eq_of_forall₂ h hvalues
  simpa [List.filterMap_map] using congrArg (List.filterMap id) hmap

/-- The composite utilities are computed from the nesting. -/
theorem childValue?_eq_computed? (formed : tree.IsFormed alternatives)
    (h : Unfolds tree.nests child nesting) :
    childValue? v (composites tree v) child = nesting.computed? v := by
  induction nesting using Nesting.induction generalizing child with
  | alternative position =>
    cases h
    rw [childValue?, Nesting.computed?]
  | nest name scale members ih =>
    cases h with
    | nest hnest hmembers =>
      rw [composites_spec formed v hnest, composite?, scaledValues_memberValues, Nesting.computed?,
        filterMap_eq_of_forall₂ hmembers fun member hmember child hchild => ih member hmember hchild]

/-- A nest of a tree hands on what its nesting does. -/
theorem passed_eq_handed (formed : tree.IsFormed alternatives) {nest : Nest α}
    {members : List (Nesting α)} (hmembers : List.Forall₂ (Unfolds tree.nests) nest.children members)
    (h : Unfolds tree.nests child nesting) (own : α) :
    passed v (composites tree v) nest own child = nesting.handed v nest.scale members own := by
  have hvalues : nest.children.filterMap (childValue? v (composites tree v)) =
      members.filterMap (Nesting.computed? v) :=
    filterMap_eq_of_forall₂ hmembers fun member _ child hchild =>
      childValue?_eq_computed? formed hchild
  rw [passed, scaledValues_memberValues, hvalues, childValue?_eq_computed? formed h]
  rfl

/-- An alternative in a nest is reached as the probability of the nest says. -/
theorem probability_of_reaches (h : tree.Arranges whole)
    (hbound : ∀ position ∈ whole.positions, position < v.size) {position : Nat} {own p : α}
    (hreaches : nesting.Reaches v position own p) (hunfolds : Unfolds tree.nests child nesting)
    (hown : (Reach.final tree v).probability child = own) :
    (Reach.final tree v).probability (.alternative position) = p := by
  induction hreaches generalizing child with
  | here =>
    cases hunfolds
    exact hown
  | branch hmember _ ih =>
    cases hunfolds with
    | nest hnest hmembers =>
      rcases exists_mem_of_forall₂ hmembers hmember with ⟨inner, hinner, hunfolds⟩
      refine ih hunfolds ?_
      have hindex := (Array.getElem?_eq_some_iff.mp hnest).1
      rw [(Reach.swept h hbound).divided hnest hindex inner hinner,
        passed_eq_handed h.formed hmembers hunfolds, hown]

/-- The logsum is the value that is computed for the nesting, if there is one. -/
theorem nestedLogsum_eq_computed? (h : tree.Arranges nesting) :
    nestedLogsum tree v = match nesting.computed? v with
      | some logsum => .ok logsum
      | none => .error (.nothingAvailable v.id) := by
  rw [← childValue?_eq_computed? h.formed h.unfolds, childValue?]
  unfold nestedLogsum
  cases (composites tree v)[0]?.join <;> rfl

/-! ## What is left of a tree -/

/-- Taking out what is not available does not change how the alternatives are reached. -/
theorem alternatives_of_pruned (h : tree.LaysOut nesting count) (hsize : v.size = count)
    (hprune : nesting.prune v.isAvailable = some left) (hpruned : pruned.Arranges left) :
    (Reach.final pruned v).alternatives = (Reach.final tree v).alternatives := by
  have hbound := lt_size_of_laysOut h hsize
  have hboundLeft : ∀ position ∈ left.positions, position < v.size := by
    intro position hposition
    rw [Nesting.positions_of_prune hprune] at hposition
    exact hbound position (List.mem_of_mem_filter hposition)
  have hsound := Reach.sound_final tree v
  have hsoundLeft := Reach.sound_final pruned v
  apply Array.ext
  · rw [hsound.size_eq, hsoundLeft.size_eq]
  · intro position hposition hposition'
    cases havailable : v.isAvailable position with
    | false =>
      rw [hsound.unavailable (Array.getElem?_eq_getElem hposition') havailable,
        hsoundLeft.unavailable (Array.getElem?_eq_getElem hposition) havailable]
    | true =>
      have hmem : position ∈ nesting.positions := by
        rwa [h.mem_positions, ← hsize, ← hsound.size_eq]
      rcases Nesting.exists_reaches hmem 1 with ⟨p, hreaches⟩
      rcases hreaches.prune havailable with ⟨left', hleft', hreachesLeft⟩
      obtain rfl : left' = left := Option.some.inj (hleft'.symm.trans hprune)
      have hp := probability_of_reaches h.arranges hbound hreaches h.unfolds
        (Reach.swept h.arranges hbound).root
      have hpLeft := probability_of_reaches hpruned hboundLeft hreachesLeft hpruned.unfolds
        (Reach.swept hpruned hboundLeft).root
      rw [Reach.probability, Array.getElem?_eq_getElem hposition', Option.getD_some] at hp
      rw [Reach.probability, Array.getElem?_eq_getElem hposition, Option.getD_some] at hpLeft
      rw [hp, hpLeft]

/-- Taking out what is not available changes neither the logsum nor the probabilities of the nested
model. -/
theorem nested_of_pruned (h : tree.LaysOut nesting count) (hsize : v.size = count)
    (hpruned : tree.IsPruned v.isAvailable pruned) :
    nestedLogsum pruned v = nestedLogsum tree v ∧
      nestedProbabilities pruned v = nestedProbabilities tree v := by
  rcases hpruned with ⟨nesting', left, hunfolds, hprune, harranges⟩
  obtain rfl : nesting = nesting' := h.unfolds.unique hunfolds
  have hvalue : left.computed? v = nesting.computed? v := by
    rw [← Nesting.computed?_prune v nesting, hprune, Option.bind_some]
  have hlogsum : nestedLogsum pruned v = nestedLogsum tree v := by
    rw [nestedLogsum_eq_computed? harranges, nestedLogsum_eq_computed? h.arranges, hvalue]
  refine ⟨hlogsum, ?_⟩
  rw [nestedProbabilities_eq, nestedProbabilities_eq, hlogsum,
    alternatives_of_pruned h hsize hprune harranges]

end Logit

/-! ## The flat model -/

namespace UtilityVector

/-- The vector of the available alternatives alone. -/
def prune (v : UtilityVector α) : UtilityVector α :=
  ⟨v.id, v.entries.filter Option.isSome⟩

/-- What an array has at the positions of the available alternatives, in order. -/
def atAvailable (v : UtilityVector α) (xs : Array α) : Array α :=
  (v.available.map fun entry => xs[entry.1]?.getD 0).toArray

omit [Numeric α] in
/-- The vector of the available alternatives has the available utilities. -/
theorem entries_prune (v : UtilityVector α) :
    v.prune.entries = (v.availableUtilities.map some).toArray := by
  rcases v with ⟨id, ⟨entries⟩⟩
  simp only [prune, availableUtilities, List.filter_toArray]
  congr 1
  induction entries with
  | nil => rfl
  | cons entry entries ih =>
    cases entry with
    | none => simpa using ih
    | some u => simpa using ih

omit [Numeric α] in
/-- The available alternatives keep their utilities when the others are taken out. -/
@[simp] theorem availableUtilities_prune (v : UtilityVector α) :
    v.prune.availableUtilities = v.availableUtilities := by
  rw [availableUtilities, entries_prune]
  simp [List.filterMap_map]

omit [Numeric α] in
/-- An available alternative has its utility at its position. -/
theorem getElem?_of_mem_available {v : UtilityVector α} {entry : Nat × α}
    (h : entry ∈ v.available) : v.entries[entry.1]? = some (some entry.2) := by
  rcases List.mem_filterMap.mp h with ⟨⟨found, position⟩, hfound, hentry⟩
  rcases Option.map_eq_some_iff.mp hentry with ⟨u, rfl, rfl⟩
  simpa using List.mem_zipIdx_iff_getElem?.mp hfound

omit [Numeric α] in
/-- The available alternatives have the available utilities in order. -/
theorem map_snd_available (v : UtilityVector α) :
    v.available.map Prod.snd = v.availableUtilities := by
  have hentries : v.entries.toList = v.entries.toList.zipIdx.map Prod.fst := by simp
  rw [availableUtilities, hentries, List.filterMap_map, available, List.map_filterMap]
  simp [Function.comp_def]

/-- What is worked out entry by entry is at the positions of the available alternatives what is worked
out of their utilities. -/
theorem atAvailable_map (v : UtilityVector α) (f : Option α → α) :
    v.atAvailable (v.entries.map f) = (v.availableUtilities.map fun u => f (some u)).toArray := by
  rw [atAvailable, ← v.map_snd_available, List.map_map]
  congr 1
  apply List.map_congr_left
  intro entry hentry
  simp [getElem?_of_mem_available hentry]

end UtilityVector

namespace Logit

/-- Without the alternatives that are not available, the flat model gives the others the same
probabilities, or fails in the same way. -/
theorem flat_of_pruned (v : UtilityVector α) :
    flatLogsum v.prune = flatLogsum v ∧
      flatProbabilities v.prune = (flatProbabilities v).map v.atAvailable := by
  constructor
  · rw [flatLogsum, flatLogsum, v.availableUtilities_prune]
    rfl
  · rw [flatProbabilities, flatProbabilities, v.availableUtilities_prune]
    cases hmax : maximum? v.availableUtilities with
    | none => rfl
    | some largest =>
      cases hlargest : isFinite largest with
      | false => simp [hlargest, UtilityVector.prune, Except.map]
      | true => simp [hlargest, Except.map, v.entries_prune, v.atAvailable_map]

open LawfulNumeric RoundingNumeric in
/-- In the flat model an alternative that is not available has a share of nothing. -/
theorem flatProbabilities_of_unavailable [RoundingNumeric α] (functions : LawfulFunctions α)
    (hdiv : ∀ x : α, isFinite x = true → lt 0 x = true → 0 / x = 0) {v : UtilityVector α}
    (hfinite : ∀ u ∈ v.availableUtilities, isFinite u = true) {p : Array α}
    (hp : flatProbabilities v = .ok p) {position : Nat} (hposition : position < v.size)
    (hunavailable : v.isAvailable position = false) : p[position]? = some 0 := by
  have hdefined : ∀ u ∈ v.availableUtilities, isNaN u = false :=
    fun u hu => isNaN_of_isFinite (hfinite u hu)
  have hentry : v.entries[position]? = some none := by
    rw [UtilityVector.isAvailable, Option.isSome_eq_false_iff, Option.isNone_iff_eq_none,
      UtilityVector.utility?, Array.getElem?_eq_getElem hposition, Option.join_some] at hunavailable
    rw [Array.getElem?_eq_getElem hposition, hunavailable]
  unfold flatProbabilities at hp
  split at hp
  · cases hp
  · rename_i largest hmax
    split at hp
    · rename_i hlargest
      rcases Except.ok.inj hp with rfl
      have htotal := isTotal_foldl_exp_sub functions hdefined hmax hlargest isTotal_zero
      rw [List.foldl_map] at htotal
      rcases htotal with ⟨htotal, hone⟩
      rw [Array.getElem?_map, hentry, Option.map_some, weight]
      refine congrArg some (hdiv _ ?_ ?_)
      · exact (isFinite_iff _).mpr ⟨htotal.defined, htotal.ne_top, htotal.ne_bot⟩
      · rw [lt_iff, value_zero]
        exact ⟨isNaN_zero, htotal.defined, zero_lt_one.trans_le hone⟩
    · cases hp

/-! ## Both models -/

/-- For every tree that can be built and every vector of its size with something available, the tree
without the alternatives that are not available, and without the nests in which nothing is, gives the
same logsum and the same probabilities, or fails in the same way. So does the flat model of the
available alternatives alone. What is not available has the probability zero. -/
theorem probabilities_of_removed [RoundingNumeric α] {tree : NestTree α} {count : Nat}
    {v : UtilityVector α} (built : tree.IsBuilt count) (hsize : v.size = count)
    (hsome : ∃ position, v.isAvailable position = true) :
    ((∃ pruned, tree.IsPruned v.isAvailable pruned) ∧
      ∀ pruned, tree.IsPruned v.isAvailable pruned →
        nestedLogsum pruned v = nestedLogsum tree v ∧
          nestedProbabilities pruned v = nestedProbabilities tree v) ∧
    (flatLogsum v.prune = flatLogsum v ∧
      flatProbabilities v.prune = (flatProbabilities v).map v.atAvailable) ∧
    ∀ position < count, v.isAvailable position = false →
      (∀ p logsum, nestedProbabilities tree v = .ok (p, logsum) → p[position]? = some 0) ∧
      (LawfulFunctions α → (∀ x : α, isFinite x = true → lt 0 x = true → 0 / x = 0) →
        (∀ u ∈ v.availableUtilities, isFinite u = true) →
        ∀ p, flatProbabilities v = .ok p → p[position]? = some 0) := by
  rcases built.laysOut LawfulNumeric.isScale_one with ⟨nesting, h⟩
  refine ⟨⟨h.exists_isPruned ?_, fun pruned => nested_of_pruned h hsize⟩, flat_of_pruned v, ?_⟩
  · rcases hsome with ⟨position, hposition⟩
    refine ⟨position, ?_, hposition⟩
    rcases Option.isSome_iff_exists.mp hposition with ⟨u, hu⟩
    rw [UtilityVector.utility?, Option.join_eq_some_iff] at hu
    rw [← hsize]
    exact (Array.getElem?_eq_some_iff.mp hu).1
  · intro position hposition hunavailable
    constructor
    · intro p logsum hp
      rcases nestedProbabilities_sound hp with ⟨hpsize, hzero⟩
      have hbound : position < p.size := by omega
      rw [Array.getElem?_eq_getElem hbound,
        hzero (Array.getElem?_eq_getElem hbound) hunavailable]
    · intro functions hdiv hfinite p hp
      exact flatProbabilities_of_unavailable functions hdiv hfinite hp (hsize ▸ hposition) hunavailable

/-- What is left of the tree of the way on foot and the two ways of transit without transit. -/
def footTree : NestTree α :=
  ⟨#[⟨"root", 1, [.alternative 0]⟩]⟩

open LawfulNumeric in
/-- The transit nest goes with its members. -/
theorem isPruned_footTree [LawfulNumeric α] {scale : α} (hscale : Nesting.IsScale scale) :
    (walkAndTransitTree scale).IsPruned (· == 0) footTree := by
  have hlays : (walkAndTransitTree scale).LaysOut
      ((walkAndTransit scale).resolve walkAndTransitPositions) 3 :=
    .ofConfig numbering_walkAndTransitPositions (ofConfig_walkAndTransit isScale_one hscale)
  have hlayOut : (Nesting.nest "root" (1 : α) [.alternative 0]).layOut = footTree := by
    simp [Nesting.layOut, Nesting.lay, Nesting.layAll, footTree]
  refine ⟨_, .nest "root" 1 [.alternative 0], hlays.unfolds, ?_, ?_⟩
  · simp [resolve_walkAndTransit, Nesting.prune]
  · rw [← hlayOut]
    refine Nesting.arranges_layOut ?_ (by simp [Nesting.positions])
    have hone : Nesting.IsScale (1 : α) := isScale_one
    simpa [Nesting.HasScales, Nesting.scales] using hone

/-- The way on foot is available, and no way of transit is. -/
def footOnly : UtilityVector (Double.With .coarse) :=
  ⟨7, #[some 0, none, none]⟩

theorem isAvailable_footOnly : footOnly.isAvailable = (· == 0) := by
  funext position
  rcases position with _ | _ | _ | position <;> rfl

/-- Half of the utility counts. -/
def half : Double.With .coarse :=
  (0.5 : Float)

/-- Without the transit nest the way on foot has the same probability, and without the ways of transit
it is alone. -/
theorem footOnly_removed :
    (walkAndTransitTree half).IsBuilt 3 ∧ footOnly.size = 3 ∧
      (∃ position, footOnly.isAvailable position = true) ∧
      nestedProbabilities footTree footOnly =
        nestedProbabilities (walkAndTransitTree half) footOnly ∧
      flatProbabilities ⟨7, #[some 0]⟩ = (flatProbabilities footOnly).map footOnly.atAvailable ∧
      ∀ p, flatProbabilities footOnly = .ok p → p[1]? = some 0 := by
  have hscale : Nesting.IsScale half := by
    with_unfolding_all rfl
  have built : (walkAndTransitTree half).IsBuilt 3 :=
    .ofConfig numbering_walkAndTransitPositions
      (ofConfig_walkAndTransit LawfulNumeric.isScale_one hscale)
  have hsome : ∃ position, footOnly.isAvailable position = true := ⟨0, rfl⟩
  have hpruned : (walkAndTransitTree half).IsPruned footOnly.isAvailable footTree := by
    rw [isAvailable_footOnly]
    exact isPruned_footTree hscale
  have hdiv : ∀ x : Double.With .coarse, isFinite x = true → lt 0 x = true → 0 / x = 0 :=
    fun (x : Float) _ hpos => Double.zero_div (x := x) (of_decide_eq_true hpos)
  have hfinite : ∀ u ∈ footOnly.availableUtilities, isFinite u = true := by
    intro u hu
    obtain rfl : u = 0 := by simpa [footOnly, UtilityVector.availableUtilities] using hu
    rfl
  rcases probabilities_of_removed built rfl hsome with
    ⟨⟨-, hnested⟩, ⟨-, hflat⟩, hunavailable⟩
  refine ⟨built, rfl, hsome, (hnested footTree hpruned).2, ?_, ?_⟩
  · have hprune : footOnly.prune = ⟨7, #[some 0]⟩ := by
      simp [footOnly, UtilityVector.prune]
    rw [← hprune, hflat]
  · exact (hunavailable 1 (by decide) rfl).2 Double.lawful_coarse hdiv hfinite

end Logit
end DiscreteChoice
