import DiscreteChoice.Proofs.Choice.Failure

/-!
# Probabilities are valid

The selection refuses a probability that is negative or not finite, and a choice needs an alternative
at the position that was selected. Neither check ever fails on a decision of a compiled model: however
large the utilities are, and even where a composite utility is infinite, every probability is a share
of one, and there is one for each alternative.

Main results:

- Theorem `Selection.selectAll_eq_error`: a list of draws fails as one of its draws does.
- Theorem `EvaluatedDecision.IsFormed.probabilities_spec`: what the probabilities of a decision are.
- Theorem `Chooser.probabilities_areValid`: every probability is a finite number between zero and one,
  and what fails is one of two errors.
-/

namespace DiscreteChoice

open Numeric LawfulNumeric RoundingNumeric

variable {α : Type} [Numeric α]

/-- Selecting by a list of draws fails as selecting by one of them does. -/
theorem Selection.selectAll_eq_error {id : DecisionMakerId} {probabilities draws : List α}
    {e : ChoiceError α} (h : (selectAll id probabilities draws).value = .error e) :
    ∃ draw ∈ draws, (select id probabilities draw).value = .error e := by
  rw [value_selectAll] at h
  exact exists_of_mapM_eq_error h

/-- The value is a finite number between zero and one. -/
def Numeric.IsProbability (x : α) : Prop :=
  isFinite x = true ∧ le 0 x = true ∧ le x 1 = true

/-- A share of one is a probability. -/
theorem RoundingNumeric.IsShare.isProbability [RoundingNumeric α] {x : α} (hx : IsShare x) :
    IsProbability x := by
  refine ⟨hx.isFinite, (le_iff 0 x).mpr ⟨isNaN_zero, hx.defined, ?_⟩,
    (le_iff x 1).mpr ⟨hx.defined, isNaN_one, ?_⟩⟩
  · rw [value_zero]
    exact hx.nonneg
  · rw [value_one]
    exact hx.le_one

namespace EvaluatedDecision

/-- The decision is one of a model whose nests are formed: its utilities are finite, one for each
alternative, and some of them are available. -/
structure IsFormed (decision : EvaluatedDecision α) : Prop where
  nests : decision.chooser.model.nests.IsFormed decision.chooser.model.size
  finite : ∀ u ∈ decision.utilities.availableUtilities, isFinite u = true
  size : decision.utilities.size = decision.chooser.model.size
  available : decision.utilities.availableUtilities ≠ []

/-- The error is one that a decision with shares of one may have. -/
def IsExpected (decision : EvaluatedDecision α) (e : ChoiceError α) : Prop :=
  e = .nothingAvailable decision.id ∨ e = .zeroMass

variable {decision : EvaluatedDecision α}

omit [Numeric α] in
/-- There is an alternative at each position of the model. -/
theorem exists_alternativeAt {position : Nat} (h : position < decision.chooser.model.size)
    (count : Nat) : ∃ id, decision.alternativeAt count position = .ok id := by
  have hids : decision.chooser.model.ids.size = decision.chooser.model.size := Array.size_map
  have hid : position < decision.chooser.model.ids.size := by rwa [hids]
  exact ⟨_, by rw [alternativeAt, Array.getElem?_eq_getElem hid]⟩

variable [RoundingNumeric α]

/-- The probabilities of a decision are shares of one, one for each alternative, unless the root of
the nesting is lost. -/
theorem IsFormed.probabilities_spec (formed : decision.IsFormed) (functions : LawfulFunctions α) :
    decision.probabilities = .error (.nothingAvailable decision.id) ∨
      ∃ p total, decision.probabilities = .ok (p, total) ∧
        p.size = decision.chooser.model.size ∧ ∀ q ∈ p, IsShare q := by
  by_cases hdrops : Logit.Drops decision.chooser.model.nests decision.utilities 0
  · exact .inl (Logit.probabilities_of_drops functions formed.nests formed.finite hdrops).1
  · rcases Logit.probabilities_spec functions formed.nests formed.finite formed.size.le
      formed.available hdrops with ⟨p, total, hp, -, hshares, -⟩
    exact .inr ⟨p, total, hp, (Logit.size_probabilities hp).trans formed.size, hshares⟩

/-- The probabilities that a decision has are shares of one, one for each alternative. -/
theorem IsFormed.of_probabilities (formed : decision.IsFormed) (functions : LawfulFunctions α)
    {p : Array α} {total : α} (hp : decision.probabilities = .ok (p, total)) :
    p.size = decision.chooser.model.size ∧ ∀ q ∈ p, IsShare q := by
  rcases formed.probabilities_spec functions with herror | ⟨p', total', hp', hspec⟩
  · rw [hp] at herror
    cases herror
  · rw [hp] at hp'
    cases hp'
    exact hspec

/-- A simulated choice fails with the probabilities, or when none of them is positive. -/
theorem IsFormed.error_of_simulate (formed : decision.IsFormed) (functions : LawfulFunctions α)
    {e : ChoiceError α} (h : decision.simulate.value = .error e) : decision.IsExpected e := by
  rcases formed.probabilities_spec functions with hp | ⟨p, total, hp, hsize, hshares⟩
  · rw [simulate, hp] at h
    exact .inl (Except.error.inj h).symm
  · rw [simulate, hp] at h
    exact .inr ((choose_eq_error_iff hshares hsize).mp h).1

/-- Drawing many choices fails with the probabilities, or when none of them is positive. -/
theorem IsFormed.error_of_resample (formed : decision.IsFormed) (functions : LawfulFunctions α)
    {count : Nat} {e : ChoiceError α} (h : (decision.resample count).value = .error e) :
    decision.IsExpected e := by
  rcases formed.probabilities_spec functions with hp | ⟨p, total, hp, hsize, hshares⟩
  · rw [resample, hp] at h
    exact .inl (Except.error.inj h).symm
  · have hlist : ∀ q ∈ p.toList, IsShare q := by simpa using hshares
    rw [resample, hp] at h
    simp only [Logged.value_bind, Logged.value_pure] at h
    cases hselected : (Selection.selectAll decision.id p.toList
        ((List.range count).map (decision.chooser.draws decision.id))).value with
    | error cause =>
      obtain rfl : cause = e := by simpa [hselected, Except.bind] using h
      rcases Selection.selectAll_eq_error hselected with ⟨draw, -, hfails⟩
      exact .inr ((Selection.select_eq_error_iff hlist decision.id draw).mp hfails).1
    | ok positions =>
      -- every selected position is that of an alternative
      have hids : ∀ position ∈ positions,
          ∃ id, decision.alternativeAt p.size position = .ok id := by
        intro position hposition
        rcases Selection.selectAll_positive hselected position hposition with ⟨q, hq, -⟩
        rw [Array.getElem?_toList] at hq
        exact exists_alternativeAt (hsize ▸ (Array.getElem?_eq_some_iff.mp hq).1) p.size
      rcases exists_forall₂_iff.mpr hids with ⟨ids, hall⟩
      simp [hselected, Except.bind, mapM_eq_ok.mpr hall] at h

/-- An outcome fails with the probabilities, or when none of them is positive. -/
theorem IsFormed.error_of_outcome (formed : decision.IsFormed) (functions : LawfulFunctions α)
    {mode : OutputMode} {e : ChoiceError α} (h : (decision.outcome mode).value = .error e) :
    decision.IsExpected e := by
  rcases (outcome_eq_error_iff functions formed.nests formed.finite formed.size formed.available
    mode).mp h with ⟨rfl, -⟩ | ⟨rfl, -⟩
  · exact .inl rfl
  · exact .inr rfl

end EvaluatedDecision

namespace Chooser

/-- Decisions of a compiled model are formed. -/
theorem isFormed_of_evaluate {config : ModelConfig α} {chooser : Chooser α}
    (compiled : Model.compile config = .ok chooser.model) [LawfulNumeric α] {context : Context α}
    {decision : EvaluatedDecision α} (h : (chooser.evaluate context).value = .ok decision) :
    decision.IsFormed := by
  rcases evaluate_eq_ok h with ⟨rfl, hutilities, hcount⟩
  refine ⟨Model.isFormed_nests compiled, ?_, ?_, ?_⟩
  · rw [hutilities]
    exact decision.chooser.isFinite_utilities context
  · rw [hutilities, decision.chooser.size_utilities context]
  · rw [hutilities]
    exact fun hnone => hcount (UtilityVector.availableCount_eq_zero_iff.mpr hnone)

/-- The probabilities of a decision of a compiled model are finite numbers between zero and one, one
for each alternative. What fails is that nothing is available or left, or that all probabilities are
zero: no probability is refused, and no position is without an alternative. -/
theorem probabilities_areValid [RoundingNumeric α] (functions : LawfulFunctions α)
    {config : ModelConfig α} {model : Model α} (compiled : Model.compile config = .ok model)
    (draws : DrawSource α) (traced : List DecisionMakerId) (context : Context α) :
    let chooser : Chooser α := ⟨model, draws, traced⟩
    let IsExpected (e : ChoiceError α) : Prop := e = .nothingAvailable context.id ∨ e = .zeroMass
    (∀ decision, (chooser.evaluate context).value = .ok decision →
      (∀ p total, decision.probabilities = .ok (p, total) →
        p.size = model.size ∧ ∀ q ∈ p, IsProbability q) ∧
      (∀ e, decision.simulate.value = .error e → IsExpected e) ∧
      ∀ count e, (decision.resample count).value = .error e → IsExpected e) ∧
    ∀ mode e, (chooser.run context mode).value = .error e → IsExpected e := by
  intro chooser IsExpected
  have hid : ∀ decision, (chooser.evaluate context).value = .ok decision →
      decision.chooser = chooser ∧ decision.id = context.id := by
    intro decision hdecision
    rcases evaluate_eq_ok hdecision with ⟨hchooser, hutilities, -⟩
    refine ⟨hchooser, ?_⟩
    rw [EvaluatedDecision.id, hutilities]
    rfl
  constructor
  · intro decision hdecision
    have formed : decision.IsFormed := isFormed_of_evaluate compiled hdecision
    rcases hid decision hdecision with ⟨hchooser, hid⟩
    refine ⟨?_, ?_, ?_⟩
    · intro p total hp
      rcases formed.of_probabilities functions hp with ⟨hsize, hshares⟩
      rw [hchooser] at hsize
      exact ⟨hsize, fun q hq => (hshares q hq).isProbability⟩
    · intro e h
      have hexpected := formed.error_of_simulate functions h
      rwa [EvaluatedDecision.IsExpected, hid] at hexpected
    · intro count e h
      have hexpected := formed.error_of_resample functions h
      rwa [EvaluatedDecision.IsExpected, hid] at hexpected
  · intro mode e h
    rw [value_run] at h
    cases hevaluate : (chooser.evaluate context).value with
    | error cause =>
      rw [hevaluate] at h
      rw [value_evaluate, conclude] at hevaluate
      split at hevaluate
      · rcases Except.error.inj hevaluate with rfl
        exact .inl (Except.error.inj h).symm
      · cases hevaluate
    | ok decision =>
      rw [hevaluate, ok_bind] at h
      have hexpected := (isFormed_of_evaluate compiled hevaluate).error_of_outcome functions h
      rwa [EvaluatedDecision.IsExpected, (hid decision hevaluate).2] at hexpected

/-! ## A nest in which nothing is available -/

/-- A model of a walk, and of a ferry that never runs. -/
def walkOrFerry : ModelConfig (Double.With .coarse) where
  name := "walk or ferry"
  scopes := ∅
  constants := ∅
  alternatives := [⟨1, "walk", some "0", [], none, none⟩, ⟨2, "ferry", some "0", [], some "0", none⟩]
  nests := some (.nest "root" 1 [.alternative 1, .nested (.nest "water" (0.5 : Float) [.alternative 2])])

/-- The compiled model. -/
def walkOrFerryModel : Model (Double.With .coarse) where
  name := "walk or ferry"
  schema := .empty
  alternatives := #[
    ⟨1, "walk", [⟨none, ⟨"0", .constant 0⟩, 1⟩], none, none⟩,
    ⟨2, "ferry", [⟨none, ⟨"0", .constant 0⟩, 1⟩], some ⟨"0", .constant 0⟩, none⟩]
  positions := ((∅ : Std.TreeMap AlternativeId Nat).insert 1 0).insert 2 1
  nests := ⟨#[⟨"root", 1, [.alternative 0, .nest 1]⟩, ⟨"water", (0.5 : Float), [.alternative 1]⟩]⟩

theorem compile_walkOrFerry : Model.compile walkOrFerry = .ok walkOrFerryModel := by
  have hschema : Schema.ofTables (∅ : Std.TreeMap String Scope)
      (∅ : Std.TreeMap String (Double.With .coarse)) = .ok .empty := rfl
  simp only [Model.compile, walkOrFerry, hschema, Alternative.compile, Alternative.compileUtility,
    Alternative.compileTerms, Alternative.compileAvailability, Formula.compile_zero,
    CompileError.within, List.mapM_cons, List.mapM_nil, ok_bind, pure_eq_ok, Option.isNone_some,
    Bool.false_and, Bool.false_eq_true, if_false, List.append_nil]
  with_unfolding_all rfl

/-- A decision of the model. -/
def walkOrFerryDecision : EvaluatedDecision (Double.With .coarse) :=
  ⟨⟨walkOrFerryModel, fun _ _ => 0, []⟩, ⟨7, #[some (-0 + 1 * 0), none]⟩, none⟩

set_option maxRecDepth 4000 in
/-- The walk has all of the probability, and the ferry, which is lost with its nest, has a probability
as well. -/
theorem walkOrFerry_areValid :
    Model.compile walkOrFerry = .ok walkOrFerryModel ∧
      walkOrFerryDecision.probabilities = .ok (#[1, 0], 0) ∧
      ∀ q ∈ (#[1, 0] : Array (Double.With .coarse)), IsProbability q := by
  have hevaluate : (walkOrFerryDecision.chooser.evaluate tinyScaleContext).value =
      .ok walkOrFerryDecision := by
    with_unfolding_all rfl
  have hprobabilities : walkOrFerryDecision.probabilities = .ok (#[1, 0], 0) := by
    with_unfolding_all rfl
  rcases probabilities_areValid Double.lawful_coarse compile_walkOrFerry (fun _ _ => 0) []
    tinyScaleContext with ⟨hvalid, -⟩
  rcases hvalid walkOrFerryDecision hevaluate with ⟨hshares, -, -⟩
  exact ⟨compile_walkOrFerry, hprobabilities, (hshares _ _ hprobabilities).2⟩

end Chooser
end DiscreteChoice
