import DiscreteChoice.Proofs.Choice.Tracing
import DiscreteChoice.Proofs.Numeric.Absorption

/-!
# Available alternatives

An alternative is available when its availability holds, when no term of its utility reads a missing
variable, and when its utility is finite. Utilities are worked out without stopping at a missing
variable: its term becomes undefined, with it the sum of the terms, and an undefined sum is not
finite. Strict evaluation, which does stop, is what the result is compared with.

Main results:

- Theorem `Alternative.value_appraise_eq_some_iff`: the utility of an available alternative is the
  one that strict evaluation of its terms adds up to.
- Theorem `Chooser.value_run_close`: an alternative that is not available may as well be closed.
- Theorem `Model.available_exactly`: which alternatives are available, and with which utilities.
-/

namespace DiscreteChoice

open Numeric

variable {α : Type} [Numeric α]

/-! ## Strict evaluation -/

namespace Formula

variable {formula : Formula α} {context : Context α} {position : Nat}

theorem value_lenient_of_ok {value : α} (h : formula.evaluate context position = .ok value) :
    (formula.lenient context position).value = value := by
  rw [value_lenient, h]

theorem isNaN_value_lenient [LawfulNumeric α] {missing : MissingVariable}
    (h : formula.evaluate context position = .error missing) :
    isNaN (formula.lenient context position).value = true := by
  rw [value_lenient, h]
  exact LawfulNumeric.isNaN_nan

end Formula

namespace Alternative

variable {alternative : Alternative α} {context : Context α} {position : Nat}

/-- The availability of an alternative holds: it has none, or strict evaluation gives it a value
that is neither zero nor undefined. -/
def IsOpen (alternative : Alternative α) (context : Context α) (position : Nat) : Prop :=
  ∀ formula, alternative.availability = some formula →
    ∃ value, formula.evaluate context position = .ok value ∧ isNaN value = false ∧
      eq value 0 = false

/-- The sum of factor times value over terms, in order. -/
def weigh (terms : List (UtilityTerm α)) (values : List α) : α :=
  Numeric.sum (List.zipWith (fun term value => term.coefficient * value) terms values)

/-- Strict evaluation gives an alternative a utility: its availability holds, each of its terms has
a value, and the utility is what the terms add up to and is finite. -/
structure HasUtility (alternative : Alternative α) (context : Context α) (position : Nat) (u : α) :
    Prop where
  isOpen : alternative.IsOpen context position
  adds : ∃ values, List.Forall₂
    (fun (term : UtilityTerm α) value => term.formula.evaluate context position = .ok value)
      alternative.terms values ∧ weigh alternative.terms values = u
  finite : isFinite u = true

/-- An alternative is offered when its availability is a number other than zero. -/
theorem value_isOffered : (alternative.isOffered context position).value =
    match alternative.availability with
    | none => true
    | some formula =>
      !isNaN (formula.lenient context position).value &&
        Numeric.isTrue (formula.lenient context position).value := by
  unfold isOffered
  cases alternative.availability with
  | none => rfl
  | some formula =>
    simp only [Logged.value_bind]
    cases isNaN (formula.lenient context position).value <;> rfl

/-- An alternative is offered when strict evaluation finds its availability to hold. -/
theorem value_isOffered_iff [LawfulNumeric α] :
    (alternative.isOffered context position).value = true ↔
      alternative.IsOpen context position := by
  rw [value_isOffered, IsOpen]
  cases alternative.availability with
  | none => simp
  | some formula =>
    simp only [Option.some.injEq, forall_eq']
    cases hvalue : formula.evaluate context position with
    | error missing => simp [Formula.isNaN_value_lenient hvalue]
    | ok value => simp [Formula.value_lenient_of_ok hvalue, Numeric.isTrue]

/-- When every term has a value, the utility is what the terms add up to. -/
theorem value_utility_of_forall₂ {values : List α} (h : List.Forall₂
    (fun (term : UtilityTerm α) value => term.formula.evaluate context position = .ok value)
      alternative.terms values) :
    (alternative.utility context position).value = weigh alternative.terms values := by
  have hamounts : (alternative.terms.map fun term =>
      term.coefficient * (term.formula.lenient context position).value) =
        List.zipWith (fun term value => term.coefficient * value) alternative.terms values := by
    generalize alternative.terms = terms at h
    induction h with
    | nil => rfl
    | cons hvalue _ ih =>
      rw [List.map_cons, List.zipWith_cons_cons, ih, Formula.value_lenient_of_ok hvalue]
  simp [utility, weigh, hamounts]

/-- A term that reads a missing variable makes the utility undefined, whatever its factor is. -/
theorem isNaN_value_utility [LawfulNumeric α] [AbsorbingNumeric α] {term : UtilityTerm α}
    (hterm : term ∈ alternative.terms) {missing : MissingVariable}
    (h : term.formula.evaluate context position = .error missing) :
    isNaN (alternative.utility context position).value = true := by
  have hamount : term.coefficient * (term.formula.lenient context position).value ∈
      alternative.terms.map fun term =>
        term.coefficient * (term.formula.lenient context position).value :=
    List.mem_map_of_mem hterm
  simpa [utility] using AbsorbingNumeric.isNaN_sum hamount
    (AbsorbingNumeric.isNaN_mul (.inr (Formula.isNaN_value_lenient h)))

/-- An alternative has a utility when it is offered and the terms add up to a finite one. -/
theorem value_appraise_eq_some {u : α} :
    (alternative.appraise context position).value = some u ↔
      (alternative.isOffered context position).value = true ∧
        (alternative.utility context position).value = u ∧ isFinite u = true := by
  rw [appraise, Logged.value_bind]
  cases (alternative.isOffered context position).value with
  | false => simp
  | true =>
    simp only [if_true, Logged.value_bind, true_and]
    constructor
    · intro h
      split at h
      · rename_i hfinite
        rcases Option.some.inj h with rfl
        exact ⟨rfl, hfinite⟩
      · cases h
    · rintro ⟨rfl, hfinite⟩
      rw [if_pos hfinite]
      rfl

/-- The utility of an available alternative is the one that strict evaluation gives it. -/
theorem value_appraise_eq_some_iff [LawfulNumeric α] [AbsorbingNumeric α] {u : α} :
    (alternative.appraise context position).value = some u ↔
      alternative.HasUtility context position u := by
  rw [value_appraise_eq_some, value_isOffered_iff]
  constructor
  · rintro ⟨hopen, hutility, hfinite⟩
    have hvalues : ∀ term ∈ alternative.terms,
        ∃ value, term.formula.evaluate context position = .ok value := by
      intro term hterm
      cases hvalue : term.formula.evaluate context position with
      | ok value => exact ⟨value, rfl⟩
      | error missing =>
        have hdefined := LawfulNumeric.isNaN_of_isFinite hfinite
        rw [← hutility, isNaN_value_utility hterm hvalue] at hdefined
        cases hdefined
    rcases exists_forall₂_iff.mpr hvalues with ⟨values, hvalues⟩
    have hsum := (value_utility_of_forall₂ hvalues).symm.trans hutility
    exact ⟨hopen, ⟨values, hvalues, hsum⟩, hfinite⟩
  · rintro ⟨hopen, ⟨values, hvalues, hsum⟩, hfinite⟩
    exact ⟨hopen, (value_utility_of_forall₂ hvalues).trans hsum, hfinite⟩

/-- An alternative with a term that reads a missing variable has no utility. -/
theorem not_hasUtility_of_missing {term : UtilityTerm α} (hterm : term ∈ alternative.terms)
    {missing : MissingVariable} (h : term.formula.evaluate context position = .error missing)
    (u : α) : ¬alternative.HasUtility context position u := by
  rintro ⟨-, ⟨values, hvalues, -⟩, -⟩
  rcases exists_forall₂_iff.mp ⟨values, hvalues⟩ term hterm with ⟨value, hvalue⟩
  rw [h] at hvalue
  cases hvalue

end Alternative

/-! ## The utilities of a model -/

namespace Model

variable (model : Model α) (context : Context α) (position : Nat)

/-- The entry of an alternative is what appraising it gives. -/
theorem getElem?_entries_utilities :
    (model.utilities context).value.entries[position]? =
      model.alternatives[position]?.map fun alternative =>
        (alternative.appraise context position).value := by
  simp [utilities, List.getElem?_zipIdx, Function.comp_def]

/-- The utility of an alternative is what appraising it gives. -/
theorem utility?_utilities :
    (model.utilities context).value.utility? position =
      model.alternatives[position]?.bind fun alternative =>
        (alternative.appraise context position).value := by
  rw [UtilityVector.utility?, getElem?_entries_utilities]
  cases model.alternatives[position]? <;> rfl

/-- The model in which the alternative at a position is available to nobody. -/
def close : Model α :=
  { model with
    alternatives := model.alternatives.modify position fun alternative =>
      { alternative with availability := some ⟨"0", .constant 0⟩ } }

theorem ids_close : (model.close position).ids = model.ids := by
  apply Array.ext_getElem?
  intro other
  simp only [close, ids, Array.getElem?_map, Array.getElem?_modify]
  split <;> cases model.alternatives[other]? <;> rfl

/-- A closed alternative has no utility. -/
theorem value_appraise_closed [LawfulNumeric α] (alternative : Alternative α) (source : String) :
    (({ alternative with availability := some ⟨source, .constant 0⟩ } : Alternative α).appraise
      context position).value = none := by
  have hzero : eq (0 : α) 0 = true := by simp [LawfulNumeric.eq_iff]
  simp [Alternative.appraise, Alternative.value_isOffered, Formula.value_lenient, Formula.evaluate,
    Node.evaluate, Numeric.isTrue, hzero]

/-- Closing an alternative that is not available changes no utility. -/
theorem value_utilities_close [LawfulNumeric α]
    (h : (model.utilities context).value.isAvailable position = false) :
    ((model.close position).utilities context).value = (model.utilities context).value := by
  have hnone : (model.utilities context).value.utility? position = none := by
    simpa [UtilityVector.isAvailable] using h
  rw [utility?_utilities] at hnone
  have hentries : ((model.close position).utilities context).value.entries =
      (model.utilities context).value.entries := by
    apply Array.ext_getElem?
    intro other
    rw [getElem?_entries_utilities, getElem?_entries_utilities, close, Array.getElem?_modify]
    split_ifs with hsame
    · subst hsame
      cases halternative : model.alternatives[position]? with
      | none => rfl
      | some alternative =>
        rw [halternative, Option.bind_some] at hnone
        simp only [Option.map_some, value_appraise_closed, hnone]
    · rfl
  exact congrArg (UtilityVector.mk context.id) hentries

end Model

/-! ## Decisions with an alternative that is not available -/

/-- An outcome depends on the utilities, the nesting, the ids and the draws only. -/
theorem EvaluatedDecision.outcome_congr {decision decision' : EvaluatedDecision α}
    (hutilities : decision.utilities = decision'.utilities)
    (htrace : decision.trace = decision'.trace)
    (hnests : decision.chooser.model.nests = decision'.chooser.model.nests)
    (hids : decision.chooser.model.ids = decision'.chooser.model.ids)
    (hdraws : decision.chooser.draws = decision'.chooser.draws) (mode : OutputMode) :
    decision.outcome mode = decision'.outcome mode := by
  have hid : decision.id = decision'.id := by rw [id, id, hutilities]
  have hprobabilities : decision.probabilities = decision'.probabilities := by
    rw [probabilities, probabilities, hnests, hutilities]
  have hlogsum : decision.logsum = decision'.logsum := by
    rw [logsum, logsum, hnests, hutilities]
  have hsize : decision.chooser.model.size = decision'.chooser.model.size := by
    simpa [Model.ids, Model.size] using congrArg Array.size hids
  have hat (count : Nat) : decision.alternativeAt count = decision'.alternativeAt count := by
    funext position
    rw [alternativeAt, alternativeAt, hids, hsize]
  have hchoose : decision.choose = decision'.choose := by
    funext p
    rw [choose, choose, hid, hdraws, hat]
  simp only [outcome, hid, hprobabilities, hlogsum, hchoose, htrace]

/-- A decision in which an alternative is not available has the outcome that it has with the
alternative closed, and fails only where that one does. -/
theorem Chooser.value_run_close [LawfulNumeric α] (model : Model α) (draws : DrawSource α)
    (context : Context α) (mode : OutputMode) {position : Nat}
    (h : (model.utilities context).value.isAvailable position = false) :
    ((⟨model.close position, draws, []⟩ : Chooser α).run context mode).value =
      ((⟨model, draws, []⟩ : Chooser α).run context mode).value := by
  rw [value_run, value_run, value_evaluate, value_evaluate, model.value_utilities_close context _ h]
  simp only [conclude, trace?, isTraced, List.contains_nil]
  split
  · rfl
  · refine congrArg Logged.value (EvaluatedDecision.outcome_congr ?_ ?_ ?_ ?_ ?_ mode)
    · rfl
    · rfl
    · rfl
    · exact model.ids_close position
    · rfl

namespace Model

/-- An alternative is available exactly when its availability holds, each of its terms has a value
and the sum of factor times value, in order, is finite. That sum is then its utility, and an
alternative that is not available has an undefined entry. A term that reads a missing variable makes
the alternative unavailable, whatever its factor is, and does nothing else to the decision: its
outcome, or its failure, is that of the same decision with the alternative closed. -/
theorem available_exactly [LawfulNumeric α] [AbsorbingNumeric α] (model : Model α)
    (context : Context α) {position : Nat} {alternative : Alternative α}
    (hposition : model.alternatives[position]? = some alternative) :
    let v := (model.utilities context).value
    (v.isAvailable position = true ↔
      alternative.IsOpen context position ∧
      ∃ values, List.Forall₂
        (fun (term : UtilityTerm α) value => term.formula.evaluate context position = .ok value)
          alternative.terms values ∧
        isFinite (Alternative.weigh alternative.terms values) = true) ∧
    (∀ u, v.utility? position = some u ↔ alternative.HasUtility context position u) ∧
    v.utilities[position]? = some ((v.utility? position).getD nan) ∧
    ∀ term ∈ alternative.terms, ∀ missing,
      term.formula.evaluate context position = .error missing →
        v.isAvailable position = false ∧
        ∀ draws mode, ((⟨model, draws, []⟩ : Chooser α).run context mode).value =
          ((⟨model.close position, draws, []⟩ : Chooser α).run context mode).value := by
  intro v
  have hentry : v.entries[position]? = some (alternative.appraise context position).value := by
    rw [getElem?_entries_utilities, hposition, Option.map_some]
  have happraise : v.utility? position = (alternative.appraise context position).value := by
    rw [UtilityVector.utility?, hentry, Option.join_some]
  have hutility (u : α) :
      v.utility? position = some u ↔ alternative.HasUtility context position u := by
    rw [happraise, Alternative.value_appraise_eq_some_iff]
  have havailable : v.isAvailable position = true ↔
      ∃ u, alternative.HasUtility context position u := by
    rw [UtilityVector.isAvailable, Option.isSome_iff_exists]
    exact exists_congr hutility
  refine ⟨?_, hutility, ?_, ?_⟩
  · rw [havailable]
    constructor
    · rintro ⟨u, hopen, ⟨values, hvalues, rfl⟩, hfinite⟩
      exact ⟨hopen, values, hvalues, hfinite⟩
    · rintro ⟨hopen, values, hvalues, hfinite⟩
      exact ⟨_, hopen, ⟨values, hvalues, rfl⟩, hfinite⟩
  · rw [UtilityVector.utilities, Array.getElem?_map, hentry, happraise, Option.map_some]
  · intro term hterm missing hmissing
    have hnot : v.isAvailable position = false := by
      rw [← Bool.not_eq_true, havailable]
      rintro ⟨u, hu⟩
      exact Alternative.not_hasUtility_of_missing hterm hmissing u hu
    exact ⟨hnot, fun draws mode => (Chooser.value_run_close model draws context mode hnot).symm⟩

/-! ## A bus of unknown fare -/

/-- The part of the utility of a bus that its fare would make up, if it had any weight. -/
def fareTerm : UtilityTerm Float :=
  ⟨some "fare", ⟨"@fare", .read (.scalar "fare" 0)⟩, 0⟩

/-- A bus of utility 1, to which the fare adds nothing. -/
def bus : Alternative Float :=
  ⟨2, "bus", [⟨none, ⟨"1", .constant 1⟩, 1⟩, fareTerm], none, none⟩

/-- A choice between the bus and walking, which has the utility 2. -/
def walkOrBus : Model Float where
  name := "walk or bus"
  schema := ⟨[("fare", .scalar 0)], ["fare"], []⟩
  alternatives := #[⟨1, "walk", [⟨none, ⟨"1", .constant 1⟩, 2⟩], none, none⟩, bus]
  positions := ((∅ : Std.TreeMap AlternativeId Nat).insert 1 0).insert 2 1
  nests := .flat 2

/-- A decision maker about whom nothing is known. -/
def stranger : DecisionMaker Float :=
  ⟨7, ⟨none, none, none⟩, .empty⟩

/-- The fare is missing, so that the bus is not available although the fare has no weight, while
walking is available with its utility, and the choice is made as if the bus were closed. -/
theorem available_walk :
    let context := walkOrBus.bind stranger .empty
    let v := (walkOrBus.utilities context).value
    fareTerm.formula.evaluate context 1 = .error ⟨7, "fare"⟩ ∧
      v.isAvailable 1 = false ∧ v.utility? 0 = some 2 ∧
      ((⟨walkOrBus, fun _ _ => 0, []⟩ : Chooser Float).run context .choice).value =
        ((⟨walkOrBus.close 1, fun _ _ => 0, []⟩ : Chooser Float).run context .choice).value := by
  intro context v
  have hfirst : walkOrBus.alternatives[0]? =
      some ⟨1, "walk", [⟨none, ⟨"1", .constant 1⟩, 2⟩], none, none⟩ := rfl
  have hsecond : walkOrBus.alternatives[1]? = some bus := rfl
  have hmissing : fareTerm.formula.evaluate context 1 = .error ⟨7, "fare"⟩ := by
    with_unfolding_all rfl
  rcases available_exactly walkOrBus context hfirst with ⟨-, hwalk, -⟩
  rcases available_exactly walkOrBus context hsecond with ⟨-, -, -, hbus⟩
  rcases hbus fareTerm (by simp [bus]) _ hmissing with ⟨hnot, hrun⟩
  refine ⟨hmissing, hnot, (hwalk 2).mpr ⟨?_, ⟨[1], .cons rfl .nil, ?_⟩, ?_⟩, hrun _ _⟩
  · intro formula hformula
    cases hformula
  · with_unfolding_all rfl
  · with_unfolding_all rfl

end Model
end DiscreteChoice
