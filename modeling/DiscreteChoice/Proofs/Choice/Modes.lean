import DiscreteChoice.Proofs.Choice.Chosen

/-!
# Output modes

The modes are views of one computation. The logsum alone is worked out without the probabilities,
but it fails in the same way as these do, and is the same value otherwise.

Main results:

- Theorem `Logit.logsum_eq_map`: the logsum alone is the one that comes with the probabilities.
- Theorem `EvaluatedDecision.value_outcome`: what every mode takes from the probabilities, the
  logsum and the choice.
- Theorem `Chooser.run_project`: a mode has the fields of the whole outcome that it includes.
-/

namespace DiscreteChoice

open Numeric

variable {α : Type} [Numeric α]

namespace Logit

/-- The flat model has a logsum exactly when it has probabilities. -/
theorem flatLogsum_eq_bind (v : UtilityVector α) :
    flatLogsum v = (flatProbabilities v).bind fun _ => flatLogsum v := by
  cases hmax : maximum? v.availableUtilities with
  | none => simp [flatLogsum, flatProbabilities, logSumExp?, hmax, Except.bind]
  | some largest =>
    cases hfinite : isFinite largest <;>
      simp [flatLogsum, flatProbabilities, logSumExp?, hmax, hfinite, Except.bind]

/-- The logsum alone is the one that comes with the probabilities, and fails in the same way. -/
theorem logsum_eq_map (tree : NestTree α) (v : UtilityVector α) :
    logsum tree v = (probabilities tree v).map (·.2) := by
  rw [logsum, probabilities]
  split
  · rw [flatLogsum_eq_bind]
    cases flatProbabilities v with
    | error e => rfl
    | ok p => cases flatLogsum v <;> rfl
  · rw [nestedProbabilities]
    cases nestedLogsum tree v <;> rfl

end Logit

/-- The outcome with only the fields that a mode includes. -/
def Outcome.project (outcome : Outcome α) (mode : OutputMode) : Outcome α where
  id := outcome.id
  chosen := if mode.hasChoice then outcome.chosen else none
  probabilities := if mode.hasProbabilities then outcome.probabilities else none
  logsum := if mode.hasLogsum then outcome.logsum else none
  trace := outcome.trace

/-- The outcome has all fields that a mode can include. -/
def Outcome.IsWhole (outcome : Outcome α) : Prop :=
  outcome.chosen ≠ none ∧ outcome.probabilities ≠ none ∧ outcome.logsum ≠ none

namespace EvaluatedDecision

/-- The choice of a mode, none when it includes no choice. -/
def chosen? (decision : EvaluatedDecision α) (mode : OutputMode) (probabilities : Array α) :
    Except (ChoiceError α) (Option AlternativeId) :=
  if mode.hasChoice then (decision.choose probabilities).value.map some else .ok none

/-- The outcome of a mode with the given choice, probabilities and logsum. -/
def view (decision : EvaluatedDecision α) (mode : OutputMode) (found : Array α × α)
    (chosen : Option AlternativeId) : Outcome α where
  id := decision.id
  chosen := chosen
  probabilities := if mode.hasProbabilities then some found.1 else none
  logsum := if mode.hasLogsum then some found.2 else none
  trace := decision.trace

/-- Every mode views the same probabilities, logsum and choice. -/
theorem value_outcome (decision : EvaluatedDecision α) (mode : OutputMode) :
    (decision.outcome mode).value = decision.probabilities >>= fun found =>
      (decision.chosen? mode found.1).map (decision.view mode found) := by
  by_cases hmode : mode = .logsum
  · subst hmode
    have hlogsum : decision.logsum = decision.probabilities.map (·.2) := Logit.logsum_eq_map _ _
    rw [outcome, hlogsum]
    cases decision.probabilities <;> rfl
  · rw [outcome.eq_2 decision mode hmode]
    cases decision.probabilities with
    | error e => rfl
    | ok found =>
      cases hchoice : mode.hasChoice with
      | false => simp [chosen?, view, hchoice, Except.map]
      | true =>
        cases hchoose : (decision.choose found.1).value <;>
          simp [chosen?, view, hchoice, hchoose, Except.map]

/-- When the whole outcome can be worked out, so can that of every mode, which is a part of it. -/
theorem outcome_project {decision : EvaluatedDecision α} {outcome : Outcome α}
    (h : (decision.outcome .all).value = .ok outcome) :
    outcome.IsWhole ∧ ∀ mode, (decision.outcome mode).value = .ok (outcome.project mode) := by
  simp only [value_outcome, bind_eq_ok] at h ⊢
  rcases h with ⟨found, hfound, h⟩
  cases hchoose : (decision.choose found.1).value with
  | error e => simp [chosen?, OutputMode.hasChoice, hchoose, Except.map] at h
  | ok id =>
    obtain rfl : decision.view .all found (some id) = outcome := by
      simpa [chosen?, OutputMode.hasChoice, hchoose, Except.map] using h
    refine ⟨⟨by simp [view], by simp [view, OutputMode.hasProbabilities],
      by simp [view, OutputMode.hasLogsum]⟩, fun mode => ⟨found, hfound, ?_⟩⟩
    cases mode <;> simp [chosen?, OutputMode.hasChoice, hchoose, Except.map] <;> rfl

/-- A mode without a choice can be worked out exactly when the probabilities can. -/
theorem value_outcome_of_no_choice (decision : EvaluatedDecision α) {mode : OutputMode}
    (hmode : mode.hasChoice = false) :
    (decision.outcome mode).value =
      decision.probabilities.map fun found => decision.view mode found none := by
  rw [value_outcome]
  cases decision.probabilities <;> simp [chosen?, hmode, Except.map]

end EvaluatedDecision

namespace Chooser

/-- An outcome is that of the decision maker of the decision. -/
theorem id_run {chooser : Chooser α} {context : Context α} {mode : OutputMode}
    {outcome : Outcome α} (h : (chooser.run context mode).value = .ok outcome) :
    outcome.id = context.id := by
  rw [value_run, bind_eq_ok] at h
  rcases h with ⟨decision, hdecision, h⟩
  rw [EvaluatedDecision.value_outcome, bind_eq_ok] at h
  rcases h with ⟨found, -, h⟩
  have hid : decision.id = context.id := by
    rw [EvaluatedDecision.id, (evaluate_eq_ok hdecision).2.1]
    rfl
  cases hchosen : decision.chosen? mode found.1 with
  | error e => simp [hchosen, Except.map] at h
  | ok chosen =>
    obtain rfl : decision.view mode found chosen = outcome := by
      simpa [hchosen, Except.map] using h
    exact hid

/-- Modes without a choice succeed and fail together, and fail with the same error. -/
theorem run_alike (chooser : Chooser α) (context : Context α) {mode mode' : OutputMode}
    (hmode : mode.hasChoice = false) (hmode' : mode'.hasChoice = false) :
    ((∃ outcome, (chooser.run context mode).value = .ok outcome) ↔
      ∃ outcome, (chooser.run context mode').value = .ok outcome) ∧
    ∀ e, (chooser.run context mode).value = .error e ↔
      (chooser.run context mode').value = .error e := by
  simp only [value_run]
  cases (chooser.evaluate context).value with
  | error e => simp
  | ok decision =>
    simp only [ok_bind, EvaluatedDecision.value_outcome_of_no_choice decision hmode,
      EvaluatedDecision.value_outcome_of_no_choice decision hmode']
    cases decision.probabilities <;> simp [Except.map]

/-- The modes are views of one computation. When everything can be worked out, every mode succeeds
with the same decision maker and trace and with exactly the fields that it includes. The logsum
alone can be worked out exactly when the probabilities can, and fails with the same error
otherwise. -/
theorem run_project (chooser : Chooser α) (context : Context α) :
    (∀ outcome, (chooser.run context .all).value = .ok outcome →
      outcome.IsWhole ∧
        ∀ mode, (chooser.run context mode).value = .ok (outcome.project mode)) ∧
    ((∃ outcome, (chooser.run context .logsum).value = .ok outcome) ↔
      ∃ outcome, (chooser.run context .probabilities).value = .ok outcome) ∧
    ∀ e, (chooser.run context .logsum).value = .error e ↔
      (chooser.run context .probabilities).value = .error e := by
  refine ⟨fun outcome h => ?_, run_alike chooser context rfl rfl⟩
  simp only [value_run, bind_eq_ok] at h ⊢
  rcases h with ⟨decision, hdecision, h⟩
  rcases EvaluatedDecision.outcome_project h with ⟨hwhole, hmode⟩
  exact ⟨hwhole, fun mode => ⟨decision, hdecision, hmode mode⟩⟩

/-- The choice between an alternative that is closed and one that is open is the same in the mode
without the probabilities and the logsum, and the logsum is the same in the mode without the
choice. -/
theorem run_closedAndOpen :
    ∃ outcome, (closedAndOpen.run closedAndOpenContext .all).value = .ok outcome ∧
      (closedAndOpen.run closedAndOpenContext .choice).value =
        .ok ⟨7, some 2, none, none, none⟩ ∧
      (closedAndOpen.run closedAndOpenContext .logsum).value =
        .ok ⟨7, none, none, outcome.logsum, none⟩ := by
  have hwhole : (closedAndOpen.run closedAndOpenContext .all).value.map
      (fun outcome => (outcome.id, outcome.chosen, outcome.trace.isNone)) =
        .ok (7, some 2, true) := by
    with_unfolding_all rfl
  cases hrun : (closedAndOpen.run closedAndOpenContext .all).value with
  | error e => simp [hrun, Except.map] at hwhole
  | ok outcome =>
    have hfields : outcome.id = 7 ∧ outcome.chosen = some 2 ∧ outcome.trace = none := by
      simpa [hrun, Except.map] using hwhole
    rcases hfields with ⟨hid, hchosen, htrace⟩
    rcases run_project closedAndOpen closedAndOpenContext with ⟨hmodes, -⟩
    rcases hmodes outcome hrun with ⟨-, hmode⟩
    refine ⟨outcome, rfl, (hmode .choice).trans ?_, (hmode .logsum).trans ?_⟩
    · simp [Outcome.project, OutputMode.hasChoice, OutputMode.hasProbabilities,
        OutputMode.hasLogsum, hid, hchosen, htrace]
    · simp [Outcome.project, OutputMode.hasChoice, OutputMode.hasProbabilities,
        OutputMode.hasLogsum, hid, htrace]

end Chooser
end DiscreteChoice
