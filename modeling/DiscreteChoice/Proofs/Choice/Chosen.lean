import DiscreteChoice.Proofs.Choice.Selection
import DiscreteChoice.Proofs.Choice.Tracing
import DiscreteChoice.Proofs.Logit.Availability
import DiscreteChoice.Proofs.Numeric.DoubleOrder

/-!
# Choices are available

A choice is drawn from the probabilities in model order. The selected position has a positive
probability there, which only an available alternative has, and its id is that of the alternative at
the position.

Main results:

- Theorem `Chooser.chosen_canBeChosen`: whatever the draws are, every choice and every resampled
  choice is an available alternative with a positive probability.
-/

namespace DiscreteChoice

open Numeric

variable {α : Type} [Numeric α]

namespace Chooser

/-- The utilities of a decision. -/
def utilities (chooser : Chooser α) (context : Context α) : UtilityVector α :=
  (chooser.model.utilities context).value

/-- The id is that of an available alternative whose probability is positive. -/
def CanBeChosen (chooser : Chooser α) (context : Context α) (id : AlternativeId) : Prop :=
  ∃ position probabilities logsum p, chooser.model.ids[position]? = some id ∧
    (chooser.utilities context).isAvailable position = true ∧
    Logit.probabilities chooser.model.nests (chooser.utilities context) =
      .ok (probabilities, logsum) ∧
    probabilities[position]? = some p ∧ lt 0 p = true

/-- A decision is evaluated with the utilities of its context, some of which are available. -/
theorem evaluate_eq_ok {chooser : Chooser α} {context : Context α}
    {decision : EvaluatedDecision α} (h : (chooser.evaluate context).value = .ok decision) :
    decision.chooser = chooser ∧ decision.utilities = chooser.utilities context ∧
      (chooser.utilities context).availableCount ≠ 0 := by
  rw [value_evaluate, conclude] at h
  split at h
  · simp at h
  · rename_i hcount
    rcases Except.ok.inj h with rfl
    exact ⟨rfl, rfl, hcount⟩

end Chooser

namespace EvaluatedDecision

omit [Numeric α] in
/-- The id at a position is that of the alternative there. -/
theorem alternativeAt_eq_ok {decision : EvaluatedDecision α} {count position : Nat}
    {id : AlternativeId} (h : decision.alternativeAt count position = .ok id) :
    decision.chooser.model.ids[position]? = some id := by
  unfold alternativeAt at h
  split at h
  · rename_i found hfound
    rw [hfound, Except.ok.inj h]
  · simp at h

/-- The outcome of a mode with a choice has one, which is drawn from the probabilities. -/
theorem outcome_eq_ok {decision : EvaluatedDecision α} {mode : OutputMode}
    (hmode : mode.hasChoice = true) {outcome : Outcome α}
    (h : (decision.outcome mode).value = .ok outcome) :
    ∃ probabilities logsum id, decision.probabilities = .ok (probabilities, logsum) ∧
      (decision.choose probabilities).value = .ok id ∧ outcome.chosen = some id := by
  have hoffered : mode ≠ .logsum := by
    rintro rfl
    cases hmode
  unfold EvaluatedDecision.outcome at h
  split at h
  · exact absurd rfl hoffered
  · split at h
    · simp at h
    · rename_i probabilities logsum hprobabilities
      rw [if_pos hmode, Logged.value_bind, Logged.value_pure] at h
      cases hchoose : (decision.choose probabilities).value with
      | error e => simp [hchoose, Except.map] at h
      | ok id =>
        simp only [hchoose, Except.map, Except.ok.injEq] at h
        exact ⟨probabilities, logsum, id, hprobabilities, hchoose, by rw [← h]⟩

variable [LawfulNumeric α]

/-- The alternative at a position with a positive probability can be chosen. -/
theorem canBeChosen {decision : EvaluatedDecision α} {context : Context α}
    (hutilities : decision.utilities = decision.chooser.utilities context)
    {probabilities : Array α} {logsum : α}
    (hprobabilities : decision.probabilities = .ok (probabilities, logsum)) {position : Nat}
    (hposition : Selection.IsPositive probabilities.toList position) {count : Nat}
    {id : AlternativeId} (hid : decision.alternativeAt count position = .ok id) :
    decision.chooser.CanBeChosen context id := by
  rcases hposition with ⟨p, hp, hpositive⟩
  rw [Array.getElem?_toList] at hp
  rw [EvaluatedDecision.probabilities, hutilities] at hprobabilities
  have havailable := Logit.probabilities_positive hprobabilities hp hpositive
  exact ⟨position, probabilities, logsum, p, alternativeAt_eq_ok hid, havailable, hprobabilities,
    hp, hpositive⟩

/-- A choice is an alternative that can be chosen. -/
theorem choose_canBeChosen {decision : EvaluatedDecision α} {context : Context α}
    (hutilities : decision.utilities = decision.chooser.utilities context)
    {probabilities : Array α} {logsum : α}
    (hprobabilities : decision.probabilities = .ok (probabilities, logsum)) {id : AlternativeId}
    (h : (decision.choose probabilities).value = .ok id) :
    decision.chooser.CanBeChosen context id := by
  have hselected : (Selection.select decision.id probabilities.toList
      (decision.chooser.draws decision.id 0)).value.bind
        (decision.alternativeAt probabilities.size) = .ok id := h
  rcases bind_eq_ok.mp hselected with ⟨position, hposition, hid⟩
  exact canBeChosen hutilities hprobabilities (Selection.select_positive hposition) hid

/-- Every resampled choice is an alternative that can be chosen. -/
theorem resample_canBeChosen {decision : EvaluatedDecision α} {context : Context α}
    (hutilities : decision.utilities = decision.chooser.utilities context) {count : Nat}
    {ids : List AlternativeId} (h : (decision.resample count).value = .ok ids) :
    ∀ id ∈ ids, decision.chooser.CanBeChosen context id := by
  unfold resample at h
  split at h
  · simp at h
  · rename_i probabilities logsum hprobabilities
    have hselected : (Selection.selectAll decision.id probabilities.toList
        ((List.range count).map (decision.chooser.draws decision.id))).value.bind
          (fun positions => positions.mapM (decision.alternativeAt probabilities.size)) =
            .ok ids := h
    rcases bind_eq_ok.mp hselected with ⟨positions, hpositions, hids⟩
    intro id hmem
    rcases mem_of_mapM_eq_ok hids hmem with ⟨position, hposition, hid⟩
    exact canBeChosen hutilities hprobabilities
      (Selection.selectAll_positive hpositions position hposition) hid

end EvaluatedDecision

namespace Chooser

/-- Whatever the draws are, every choice and every resampled choice is an available alternative with
a positive probability. -/
theorem chosen_canBeChosen [LawfulNumeric α] (chooser : Chooser α) (context : Context α) :
    (∀ mode outcome, mode.hasChoice = true → (chooser.run context mode).value = .ok outcome →
      ∃ id, outcome.chosen = some id ∧ chooser.CanBeChosen context id) ∧
    (∀ decision count ids, (chooser.evaluate context).value = .ok decision →
      (decision.resample count).value = .ok ids → ∀ id ∈ ids, chooser.CanBeChosen context id) := by
  constructor
  · intro mode outcome hmode h
    rw [run, Logged.value_bind] at h
    split at h
    · simp at h
    · rename_i decision hdecision
      rcases evaluate_eq_ok hdecision with ⟨rfl, hutilities, -⟩
      obtain ⟨probabilities, logsum, id, hprobabilities, hchoose, hchosen⟩ :=
        EvaluatedDecision.outcome_eq_ok hmode h
      exact ⟨id, hchosen,
        EvaluatedDecision.choose_canBeChosen hutilities hprobabilities hchoose⟩
  · intro decision count ids hdecision h
    rcases evaluate_eq_ok hdecision with ⟨rfl, hutilities, -⟩
    exact EvaluatedDecision.resample_canBeChosen hutilities h

/-- A model of two alternatives of the same utility, the first of which is never available. -/
def closedAndOpen : Chooser (Double.With .exact) where
  model := {
    name := "closed and open"
    schema := .empty
    alternatives := #[
      ⟨1, "closed", [⟨none, ⟨"0", .constant 0⟩, 1⟩], some ⟨"0", .constant 0⟩, none⟩,
      ⟨2, "open", [⟨none, ⟨"0", .constant 0⟩, 1⟩], none, none⟩]
    positions := ((∅ : Std.TreeMap AlternativeId Nat).insert 1 0).insert 2 1
    nests := .flat 2 }
  draws := fun _ _ => 0
  traced := []

/-- A decision of the model without anything known about the trip. -/
def closedAndOpenContext : Context (Double.With .exact) :=
  ⟨7, ⟨none, none, none⟩, .empty, #[1, 2], #[none, none], #[], #[], .empty⟩

/-- Even the draw of zero passes over the alternative that is not available. -/
theorem chosen_open :
    ∃ outcome decision,
      (closedAndOpen.run closedAndOpenContext .choice).value = .ok outcome ∧
      outcome.chosen = some 2 ∧
      (closedAndOpen.evaluate closedAndOpenContext).value = .ok decision ∧
      (decision.resample 2).value = .ok [2, 2] ∧
      closedAndOpen.CanBeChosen closedAndOpenContext 2 := by
  have hrun : (closedAndOpen.run closedAndOpenContext .choice).value =
      .ok ⟨7, some 2, none, none, none⟩ := by
    with_unfolding_all rfl
  have hevaluate : (closedAndOpen.evaluate closedAndOpenContext).value =
      .ok ⟨closedAndOpen, ⟨7, #[none, some (-0 + 1 * 0)]⟩, none⟩ := by
    with_unfolding_all rfl
  have hresample : (EvaluatedDecision.resample
      ⟨closedAndOpen, ⟨7, #[none, some (-0 + 1 * 0)]⟩, none⟩ 2).value = .ok [2, 2] := by
    with_unfolding_all rfl
  rcases chosen_canBeChosen closedAndOpen closedAndOpenContext with ⟨hchoice, hresampled⟩
  rcases hchoice .choice _ rfl hrun with ⟨id, hid, -⟩
  obtain rfl : 2 = id := Option.some.inj hid
  exact ⟨_, _, hrun, rfl, hevaluate, hresample,
    hresampled _ 2 [2, 2] hevaluate hresample 2 (by simp)⟩

end Chooser
end DiscreteChoice
