import DiscreteChoice.Proofs.Choice.Modes
import DiscreteChoice.Proofs.Choice.Validity

/-!
# Resampling extends the choice

The choices that are resampled take one draw each, in order, so that a longer list of them extends a
shorter one, and the first of them is the simulated choice. An error does not depend on the draw, so
that the first draw fails whenever any of them does.

Main results:

- Theorem `EvaluatedDecision.value_resample`: resampling is one pick for each draw.
- Theorem `EvaluatedDecision.IsSized.resample_eq_error_iff`: resampling fails as the simulated choice
  does.
- Theorem `Chooser.resample_extends`: a longer resample extends a shorter one, and each of them starts
  with the simulated choice.
-/

namespace DiscreteChoice

variable {α : Type} [Numeric α]

namespace EvaluatedDecision

/-- The choice by a draw. -/
def pick (decision : EvaluatedDecision α) (probabilities : Array α) (draw : α) :
    Except (ChoiceError α) AlternativeId :=
  (Selection.select decision.id probabilities.toList draw).value >>=
    decision.alternativeAt probabilities.size

variable {decision : EvaluatedDecision α} {probabilities : Array α}

/-- There is an alternative at every position that is selected. -/
theorem exists_alternativeAt_of_select (hsize : probabilities.size = decision.chooser.model.size)
    {draw : α} {position : Nat}
    (h : (Selection.select decision.id probabilities.toList draw).value = .ok position) :
    ∃ id, decision.alternativeAt probabilities.size position = .ok id := by
  rcases Selection.exists_of_value_select h with ⟨-, p, hp, -⟩
  have hposition := (List.getElem?_eq_some_iff.mp hp).1
  rw [Array.length_toList, hsize] at hposition
  exact exists_alternativeAt hposition _

/-- An error of a choice does not depend on the draw. -/
theorem pick_eq_error_of_error (hsize : probabilities.size = decision.chooser.model.size)
    {draw : α} {e : ChoiceError α} (h : decision.pick probabilities draw = .error e) (other : α) :
    decision.pick probabilities other = .error e := by
  rcases bind_eq_error.mp h with hselect | ⟨position, hselect, hid⟩
  · rw [pick, Selection.value_select_eq_error_of_error hselect other, error_bind]
  · rcases exists_alternativeAt_of_select hsize hselect with ⟨id, hfound⟩
    rw [hfound] at hid
    cases hid

/-- The simulated choice is the pick by the first draw. -/
theorem value_simulate {logsum : α} (hfound : decision.probabilities = .ok (probabilities, logsum)) :
    decision.simulate.value =
      decision.pick probabilities (decision.chooser.draws decision.id 0) := by
  rw [simulate, hfound]
  rfl

/-- Resampling is one pick for each draw. -/
theorem value_resample {logsum : α} (hfound : decision.probabilities = .ok (probabilities, logsum))
    (hsize : probabilities.size = decision.chooser.model.size) (count : Nat) :
    (decision.resample count).value =
      ((List.range count).map (decision.chooser.draws decision.id)).mapM
        (decision.pick probabilities) := by
  calc (decision.resample count).value
      = (Selection.selectAll decision.id probabilities.toList
          ((List.range count).map (decision.chooser.draws decision.id))).value >>= fun positions =>
            positions.mapM (decision.alternativeAt probabilities.size) := by
        rw [resample, hfound]
        rfl
    _ = ((List.range count).map (decision.chooser.draws decision.id)).mapM
          (decision.pick probabilities) := by
        rw [Selection.value_selectAll]
        exact mapM_bind_mapM fun draw _ position hselect =>
          exists_alternativeAt_of_select hsize hselect

/-- Without probabilities there are no choices. -/
theorem value_resample_of_error {e : ChoiceError α} (hfound : decision.probabilities = .error e)
    (count : Nat) : (decision.resample count).value = .error e := by
  rw [resample, hfound]
  rfl

/-- Without probabilities there is no simulated choice. -/
theorem value_simulate_of_error {e : ChoiceError α} (hfound : decision.probabilities = .error e) :
    decision.simulate.value = .error e := by
  rw [simulate, hfound]
  rfl

/-- The outcome of the mode for the choice has the simulated choice and nothing else. -/
theorem value_outcome_choice (decision : EvaluatedDecision α) :
    (decision.outcome .choice).value = decision.simulate.value.map fun id =>
      ⟨decision.id, some id, none, none, decision.trace⟩ := by
  rw [value_outcome, simulate]
  cases decision.probabilities with
  | error e => rfl
  | ok found =>
    rw [ok_bind, chosen?]
    dsimp only [OutputMode.hasChoice, if_true]
    cases (decision.choose found.1).value <;> rfl

/-! ## Prefixes of the draws -/

/-- The decision has a probability for each alternative of its model. -/
def IsSized (decision : EvaluatedDecision α) : Prop :=
  ∀ probabilities logsum, decision.probabilities = .ok (probabilities, logsum) →
    probabilities.size = decision.chooser.model.size

/-- An evaluated decision has a probability for each alternative. -/
theorem isSized_of_evaluate {context : Context α}
    (h : (decision.chooser.evaluate context).value = .ok decision) : decision.IsSized := by
  intro probabilities logsum hfound
  rw [Logit.size_probabilities hfound, (Chooser.evaluate_eq_ok h).2.1, Chooser.size_utilities]

omit [Numeric α] in
/-- The first of one draw more stands in front of the others. -/
theorem exists_draws_eq_cons (draws : Nat → α) (count : Nat) :
    ∃ others, (List.range (count + 1)).map draws = draws 0 :: others :=
  ⟨_, by rw [List.range_succ_eq_map, List.map_cons]⟩

/-- A shorter resample is the front of a longer one. -/
theorem IsSized.resample_take (sized : decision.IsSized) {n m : Nat} (hle : n ≤ m)
    {ids : List AlternativeId} (h : (decision.resample m).value = .ok ids) :
    (decision.resample n).value = .ok (ids.take n) := by
  cases hfound : decision.probabilities with
  | error cause =>
    rw [value_resample_of_error hfound] at h
    cases h
  | ok found =>
    have hresample := value_resample hfound (sized _ _ hfound)
    rw [hresample] at h ⊢
    have hfront := mapM_take h n
    rwa [← List.map_take, List.take_range, min_eq_left hle] at hfront

/-- Resampling fails as the simulated choice does. -/
theorem IsSized.resample_eq_error_iff (sized : decision.IsSized) {count : Nat} {e : ChoiceError α} :
    (decision.resample (count + 1)).value = .error e ↔ decision.simulate.value = .error e := by
  cases hfound : decision.probabilities with
  | error cause =>
    rw [value_resample_of_error hfound, value_simulate_of_error hfound, Except.error.injEq,
      Except.error.injEq]
  | ok found =>
    have hsize := sized _ _ hfound
    rcases exists_draws_eq_cons (decision.chooser.draws decision.id) count with ⟨others, hdraws⟩
    rw [value_resample hfound hsize, value_simulate hfound, hdraws]
    exact mapM_cons_eq_error_iff fun draw other e herror => pick_eq_error_of_error hsize herror other

/-- A resample has as many choices as were asked for, the first of which is the simulated one. -/
theorem IsSized.resample_eq_ok (sized : decision.IsSized) {count : Nat} {ids : List AlternativeId}
    (h : (decision.resample (count + 1)).value = .ok ids) :
    ids.length = count + 1 ∧
      ∃ first, ids.head? = some first ∧ decision.simulate.value = .ok first := by
  cases hfound : decision.probabilities with
  | error cause =>
    rw [value_resample_of_error hfound] at h
    cases h
  | ok found =>
    rw [value_resample hfound (sized _ _ hfound)] at h
    have hpicks := mapM_eq_ok.mp h
    have hlength := hpicks.length_eq
    rw [List.length_map, List.length_range] at hlength
    rcases exists_draws_eq_cons (decision.chooser.draws decision.id) count with ⟨others, hdraws⟩
    rw [hdraws] at hpicks
    cases hpicks with
    | @cons _ first _ _ hfirst hothers =>
      exact ⟨hlength.symm, first, rfl, (value_simulate hfound).trans hfirst⟩

end EvaluatedDecision

namespace Chooser

/-- Resampling extends the simulated choice. A shorter resample is the front of a longer one. One of at
least one choice fails as the simulated choice does, and otherwise has as many choices as were asked for,
the first of which is the simulated one and that of a run in the mode for the choice. -/
theorem resample_extends {chooser : Chooser α} {context : Context α}
    {decision : EvaluatedDecision α} (h : (chooser.evaluate context).value = .ok decision) :
    (∀ n m ids, n ≤ m → (decision.resample m).value = .ok ids →
      (decision.resample n).value = .ok (ids.take n)) ∧
    ∀ n, 0 < n →
      (∀ e, (decision.resample n).value = .error e ↔ decision.simulate.value = .error e) ∧
      ∀ ids, (decision.resample n).value = .ok ids →
        ids.length = n ∧ ∃ first, ids.head? = some first ∧ decision.simulate.value = .ok first ∧
          (chooser.run context .choice).value =
            .ok ⟨context.id, some first, none, none, decision.trace⟩ := by
  rcases evaluate_eq_ok h with ⟨rfl, hutilities, -⟩
  have sized := EvaluatedDecision.isSized_of_evaluate h
  refine ⟨fun n m ids hle hids => sized.resample_take hle hids, fun n hn => ?_⟩
  obtain ⟨count, rfl⟩ := Nat.exists_eq_add_one.mpr hn
  refine ⟨fun e => sized.resample_eq_error_iff, fun ids hids => ?_⟩
  rcases sized.resample_eq_ok hids with ⟨hlength, first, hfirst, hsimulate⟩
  refine ⟨hlength, first, hfirst, hsimulate, ?_⟩
  have hid : decision.id = context.id := by
    rw [EvaluatedDecision.id, hutilities]
    rfl
  rw [value_run, h, ok_bind, EvaluatedDecision.value_outcome_choice, hsimulate, hid]
  rfl

/-- A model of two alternatives of the same utility, and draws that take turns between them. -/
def takingTurns : Chooser (Double.With .exact) where
  model := {
    name := "taking turns"
    schema := .empty
    alternatives := #[
      ⟨1, "one", [⟨none, ⟨"0", .constant 0⟩, 1⟩], none, none⟩,
      ⟨2, "other", [⟨none, ⟨"0", .constant 0⟩, 1⟩], none, none⟩]
    positions := ((∅ : Std.TreeMap AlternativeId Nat).insert 1 0).insert 2 1
    nests := .flat 2 }
  draws := fun _ count => if count % 2 = 0 then (0.25 : Float) else (0.75 : Float)
  traced := []

/-- A decision of the model. -/
def takingTurnsDecision : EvaluatedDecision (Double.With .exact) :=
  ⟨takingTurns, ⟨7, #[some (-0 + 1 * 0), some (-0 + 1 * 0)]⟩, none⟩

/-- Three choices take turns, the first two of which are those of a shorter resample, and the first of
which is simulated. -/
theorem resample_takingTurns :
    (takingTurns.evaluate closedAndOpenContext).value = .ok takingTurnsDecision ∧
      (takingTurnsDecision.resample 3).value = .ok [1, 2, 1] ∧
      (takingTurnsDecision.resample 2).value = .ok [1, 2] ∧
      takingTurnsDecision.simulate.value = .ok 1 ∧
      (takingTurns.run closedAndOpenContext .choice).value = .ok ⟨7, some 1, none, none, none⟩ := by
  have hevaluate : (takingTurns.evaluate closedAndOpenContext).value = .ok takingTurnsDecision := by
    with_unfolding_all rfl
  have hresample : (takingTurnsDecision.resample 3).value = .ok [1, 2, 1] := by
    with_unfolding_all rfl
  rcases resample_extends hevaluate with ⟨hfront, hchoice⟩
  rcases (hchoice 3 (by omega)).2 _ hresample with ⟨-, first, hfirst, hsimulate, hrun⟩
  obtain rfl : 1 = first := Option.some.inj hfirst
  exact ⟨hevaluate, hresample, hfront 2 3 _ (by omega) hresample, hsimulate, hrun⟩

end Chooser
end DiscreteChoice
