import DiscreteChoice.Choice.Chooser
import DiscreteChoice.Proofs.Outcome

/-!
# Tracing only observes

A traced decision maker is evaluated term by term and the terms are kept, while the utilities of the
others are only added up. Both ways evaluate the same formulas in the same order, so that they find the
same utilities and log the same warnings. What a run makes of the utilities does not look at the trace.

Main results:

- Theorems `Alternative.value_appraise` and `Alternative.log_appraise`: keeping the terms changes
  neither the utility nor the log.
- Theorem `Chooser.value_evaluate`: a decision has the same utilities whether it is traced or not.
- Theorem `Model.trace_isOf`: what the trace of a decision says.
- Theorem `Chooser.run_traced`: a traced run is the untraced one with the trace added.
-/

namespace DiscreteChoice

open Numeric

variable {α : Type} [Numeric α]

/-! ## The two ways to evaluate -/

namespace Alternative

variable (alternative : Alternative α) (context : Context α) (position : Nat)

/-- The amounts that are added up are those of the contributions. -/
theorem value_utility : (alternative.utility context position).value =
    Numeric.sum ((alternative.contributions context position).value.map (·.amount)) := by
  simp [utility, contributions, contribution, Function.comp_def]

/-- Adding up the terms logs what evaluating them one by one does. -/
theorem log_utility : (alternative.utility context position).log =
    (alternative.contributions context position).log := by
  simp [utility, contributions, contribution]

/-- What is found out about an alternative. -/
theorem value_assess : (alternative.assess context position).value =
    if (alternative.isOffered context position).value then
      let utility := (alternative.utility context position).value
      ⟨alternative.id, alternative.name, Numeric.isFinite utility,
        (some utility).filter Numeric.isFinite, (alternative.contributions context position).value⟩
    else ⟨alternative.id, alternative.name, false, none, []⟩ := by
  simp only [assess, Logged.value_bind]
  cases (alternative.isOffered context position).value with
  | false => rfl
  | true =>
    simp only [if_true, Logged.value_bind, value_utility]
    split <;> rfl

/-- Keeping the terms does not change the utility. -/
theorem value_appraise : (alternative.appraise context position).value =
    (alternative.assess context position).value.utility := by
  rw [value_assess]
  simp only [appraise, Logged.value_bind]
  cases (alternative.isOffered context position).value with
  | false => rfl
  | true =>
    simp only [if_true, Logged.value_bind, Option.filter_some]
    split <;> rfl

/-- Keeping the terms does not change what is logged. -/
theorem log_appraise : (alternative.appraise context position).log =
    (alternative.assess context position).log := by
  simp only [appraise, assess, Logged.log_bind]
  cases (alternative.isOffered context position).value with
  | false => rfl
  | true =>
    simp only [if_true, Logged.log_bind, log_utility, value_utility]
    split <;> rfl

end Alternative

namespace Model

variable (model : Model α) (context : Context α)

/-- The trace of a decision. -/
def trace : UtilityTrace α :=
  (model.tracedUtilities context).value.2

/-- The utilities of a traced decision are those of the decision. -/
theorem value_tracedUtilities :
    (model.tracedUtilities context).value = ((model.utilities context).value, model.trace context) := by
  simp [trace, tracedUtilities, utilities, assess, Alternative.value_appraise, Function.comp_def]

/-- Tracing the utilities of a decision changes nothing that is logged with them. -/
theorem log_tracedUtilities :
    (model.tracedUtilities context).log = (model.utilities context).log := by
  simp [tracedUtilities, utilities, assess, Alternative.log_appraise]

end Model

namespace Chooser

variable (chooser : Chooser α) (context : Context α)

/-- The trace of a decision, if the decision maker is traced. -/
def trace? : Option (UtilityTrace α) :=
  if chooser.isTraced context.id then some (chooser.model.trace context) else none

/-- A decision has the same utilities whether it is traced or not. -/
theorem value_evaluate : (chooser.evaluate context).value =
    chooser.conclude context (chooser.model.utilities context).value (chooser.trace? context) := by
  simp only [evaluate, measure, trace?, Logged.value_bind]
  split
  · simp [Model.value_tracedUtilities]
  · simp

/-- Tracing logs the trace behind the warnings and nothing else. -/
theorem log_evaluate : (chooser.evaluate context).log =
    (chooser.model.utilities context).log ++ (chooser.trace? context).toList.map .trace := by
  simp only [evaluate, measure, trace?, Logged.log_bind]
  split
  · simp [Model.value_tracedUtilities, Model.log_tracedUtilities]
  · simp

end Chooser

/-! ## What a trace says -/

/-- The contribution of a term: its coefficient times the value of its formula. -/
structure Contribution.IsOf (c : Contribution α) (term : UtilityTerm α) (context : Context α)
    (position : Nat) : Prop where
  description : c.description = term.description
  expression : c.expression = term.formula.source
  value : c.value = (term.formula.lenient context position).value
  coefficient : c.coefficient = term.coefficient
  amount : c.amount = c.coefficient * c.value

/-- An entry of a trace tells how an alternative got its utility, or why it got none: the terms are
listed when the alternative could be chosen, and add up to its utility. The utility is kept when it is
finite, and the entry is marked available exactly then. -/
structure Assessment.IsOf (entry : Assessment α) (alternative : Alternative α) (context : Context α)
    (position : Nat) : Prop where
  id : entry.id = alternative.id
  name : entry.name = alternative.name
  offered : (alternative.isOffered context position).value = true →
    List.Forall₂ (fun c term => c.IsOf term context position) entry.terms alternative.terms ∧
      Numeric.sum (entry.terms.map (·.amount)) = (alternative.utility context position).value
  refused : (alternative.isOffered context position).value = false → entry.terms = []
  utility : entry.utility =
    if (alternative.isOffered context position).value then
      (some (alternative.utility context position).value).filter Numeric.isFinite
    else none
  available : entry.isAvailable = entry.utility.isSome

/-- A trace has one entry for each alternative of a model, in order. The available ones have the
utilities of the decision, and the others have none. -/
structure UtilityTrace.IsOf (trace : UtilityTrace α) (model : Model α) (context : Context α) :
    Prop where
  id : trace.id = context.id
  name : trace.model = model.name
  length : trace.alternatives.length = model.alternatives.size
  entry {position : Nat} {entry : Assessment α} {alternative : Alternative α} :
    trace.alternatives[position]? = some entry → model.alternatives[position]? = some alternative →
      entry.IsOf alternative context position
  utility {position : Nat} {entry : Assessment α} (x : α) :
    trace.alternatives[position]? = some entry →
      (entry.isAvailable = true ∧ entry.utility = some x ↔
        (model.utilities context).value.utility? position = some x)
  available {position : Nat} {entry : Assessment α} :
    trace.alternatives[position]? = some entry →
      entry.isAvailable = (model.utilities context).value.isAvailable position

/-- The contributions of an alternative are those of its terms. -/
theorem Alternative.contributions_isOf (alternative : Alternative α) (context : Context α)
    (position : Nat) :
    List.Forall₂ (fun c term => c.IsOf term context position)
      (alternative.contributions context position).value alternative.terms := by
  rw [contributions, Logged.value_forAll, List.forall₂_map_left_iff, List.forall₂_same]
  intro term _
  exact ⟨rfl, rfl, rfl, rfl, rfl⟩

/-- An assessment tells how its alternative got its utility. -/
theorem Alternative.assess_isOf (alternative : Alternative α) (context : Context α)
    (position : Nat) :
    (alternative.assess context position).value.IsOf alternative context position := by
  rw [value_assess]
  cases hoffered : (alternative.isOffered context position).value with
  | false =>
    rw [if_neg Bool.false_ne_true]
    refine ⟨rfl, rfl, ?_, fun _ => rfl, ?_, rfl⟩
    · exact fun h => absurd (hoffered.symm.trans h) Bool.false_ne_true
    · rw [hoffered, if_neg Bool.false_ne_true]
  | true =>
    rw [if_pos rfl]
    refine ⟨rfl, rfl, fun _ => ⟨alternative.contributions_isOf context position,
      (alternative.value_utility context position).symm⟩, ?_, ?_, ?_⟩
    · exact fun h => absurd (h.symm.trans hoffered) Bool.false_ne_true
    · rw [hoffered, if_pos rfl]
    · cases h : Numeric.isFinite (alternative.utility context position).value <;> simp [h]

/-- The trace of a decision tells how its utilities came about. -/
theorem Model.trace_isOf (model : Model α) (context : Context α) :
    (model.trace context).IsOf model context := by
  have hentries (position : Nat) : (model.trace context).alternatives[position]? =
      model.alternatives[position]?.map fun alternative =>
        (alternative.assess context position).value := by
    simp [trace, tracedUtilities, assess, List.getElem?_zipIdx, Function.comp_def]
  have hutility (position : Nat) : (model.utilities context).value.utility? position =
      (model.trace context).alternatives[position]?.bind (·.utility) := by
    have hvector : (model.utilities context).value = (model.tracedUtilities context).value.1 := by
      rw [value_tracedUtilities]
    rw [hvector]
    simp only [UtilityVector.utility?, trace, tracedUtilities, Logged.value_bind, Logged.value_pure,
      List.getElem?_toArray, List.getElem?_map]
    cases (model.assess context).value[position]? <;> rfl
  have hisOf {position : Nat} {entry : Assessment α} {alternative : Alternative α}
      (hentry : (model.trace context).alternatives[position]? = some entry)
      (halternative : model.alternatives[position]? = some alternative) :
      entry.IsOf alternative context position := by
    rw [hentries, halternative] at hentry
    obtain rfl := Option.some.inj hentry
    exact alternative.assess_isOf context position
  have hagrees {position : Nat} {entry : Assessment α}
      (hentry : (model.trace context).alternatives[position]? = some entry) :
      entry.isAvailable = entry.utility.isSome := by
    have hmodel := hentry
    rw [hentries, Option.map_eq_some_iff] at hmodel
    rcases hmodel with ⟨alternative, halternative, -⟩
    exact (hisOf hentry halternative).available
  refine ⟨rfl, rfl, ?_, hisOf, ?_, ?_⟩
  · simp [trace, tracedUtilities, assess]
  · intro position entry x hentry
    rw [hutility, hentry, Option.bind_some, hagrees hentry]
    constructor
    · exact fun h => h.2
    · exact fun h => ⟨by rw [h, Option.isSome_some], h⟩
  · intro position entry hentry
    rw [hagrees hentry, UtilityVector.isAvailable, hutility, hentry, Option.bind_some]

/-! ## Traced runs -/

/-- An outcome with another trace, or with none. -/
def Outcome.withTrace (outcome : Outcome α) (trace : Option (UtilityTrace α)) : Outcome α :=
  { outcome with trace := trace }

section Log

variable {α : Type}

/-- The warnings of a log, in order. -/
def warnings (log : List (LogEntry α)) : List (Warning α) :=
  log.filterMap fun
    | .warning w => some w
    | .trace _ => none

/-- The traces of a log, in order. -/
def traces (log : List (LogEntry α)) : List (UtilityTrace α) :=
  log.filterMap fun
    | .warning _ => none
    | .trace t => some t

@[simp] theorem warnings_append (log log' : List (LogEntry α)) :
    warnings (log ++ log') = warnings log ++ warnings log' := List.filterMap_append

@[simp] theorem traces_append (log log' : List (LogEntry α)) :
    traces (log ++ log') = traces log ++ traces log' := List.filterMap_append

@[simp] theorem traces_nil : traces ([] : List (LogEntry α)) = [] := rfl

@[simp] theorem traces_warning (w : Warning α) : traces [.warning w] = [] := rfl

/-- The traces of a log of traces are all of it. -/
@[simp] theorem traces_map_trace (ts : List (UtilityTrace α)) :
    traces (ts.map LogEntry.trace) = ts := by
  simp [traces, List.filterMap_map]

/-- A log of traces has no warnings. -/
@[simp] theorem warnings_map_trace (ts : List (UtilityTrace α)) :
    warnings (ts.map LogEntry.trace) = [] := by
  simp [warnings]

/-- When no entry of a list logs a trace, neither do all of them together. -/
theorem traces_forAll {β γ : Type} {f : β → Logged (LogEntry α) γ}
    (h : ∀ x, traces (f x).log = []) (xs : List β) : traces (Logged.forAll f xs).log = [] := by
  induction xs with
  | nil => rfl
  | cons x xs ih => simpa [h] using ih

end Log

/-! ### Only traced runs log traces -/

@[simp] theorem Formula.traces_lenient (formula : Formula α) (context : Context α)
    (position : Nat) : traces (formula.lenient context position).log = [] := by
  unfold lenient
  split <;> rfl

@[simp] theorem Alternative.traces_isOffered (alternative : Alternative α) (context : Context α)
    (position : Nat) : traces (alternative.isOffered context position).log = [] := by
  unfold isOffered
  split
  · rfl
  · rw [Logged.log_bind, traces_append, Formula.traces_lenient]
    split <;> rfl

@[simp] theorem Alternative.traces_utility (alternative : Alternative α) (context : Context α)
    (position : Nat) : traces (alternative.utility context position).log = [] := by
  rw [utility, Logged.log_bind, traces_append, traces_forAll]
  · rfl
  · simp

/-- Evaluating utilities logs no trace. -/
theorem Model.traces_utilities (model : Model α) (context : Context α) :
    traces (model.utilities context).log = [] := by
  rw [utilities, Logged.log_bind, traces_append, traces_forAll]
  · rfl
  · rintro ⟨alternative, position⟩
    rw [Alternative.appraise, Logged.log_bind, traces_append, Alternative.traces_isOffered]
    split
    · rw [Logged.log_bind, traces_append, Alternative.traces_utility]
      split <;> rfl
    · rfl

/-- Selecting a position logs no trace. -/
@[simp] theorem Selection.traces_select (id : DecisionMakerId) (probabilities : List α) (draw : α) :
    traces (select id probabilities draw).log = [] := by
  rw [select]
  split
  · rfl
  · simp only
    split_ifs <;> split <;> rfl

namespace EvaluatedDecision

/-- The decision of a chooser that traces others, with another trace. -/
def retrace (decision : EvaluatedDecision α) (traced : List DecisionMakerId)
    (trace : Option (UtilityTrace α)) : EvaluatedDecision α :=
  ⟨{ decision.chooser with traced := traced }, decision.utilities, trace⟩

/-- The outcome of a decision takes its trace over and does not depend on it otherwise. -/
theorem value_outcome_retrace (decision : EvaluatedDecision α) (traced : List DecisionMakerId)
    (trace : Option (UtilityTrace α)) (mode : OutputMode) :
    ((decision.retrace traced trace).outcome mode).value =
      (decision.outcome mode).value.map (·.withTrace trace) := by
  have hprobabilities : (decision.retrace traced trace).probabilities = decision.probabilities := rfl
  have hlogsum : (decision.retrace traced trace).logsum = decision.logsum := rfl
  have hchoose (p : Array α) : (decision.retrace traced trace).choose p = decision.choose p := rfl
  cases mode with
  | logsum =>
    simp only [outcome, hlogsum]
    cases decision.logsum <;> rfl
  | probabilities =>
    simp only [outcome, hprobabilities]
    cases decision.probabilities <;> rfl
  | _ =>
    simp only [outcome, hprobabilities, hchoose]
    cases decision.probabilities with
    | error e => rfl
    | ok found =>
      simp only [OutputMode.hasChoice, if_true, Logged.value_bind, Logged.value_pure]
      cases (decision.choose found.1).value <;> rfl

/-- What is logged for an outcome does not depend on the trace. -/
theorem log_outcome_retrace (decision : EvaluatedDecision α) (traced : List DecisionMakerId)
    (trace : Option (UtilityTrace α)) (mode : OutputMode) :
    ((decision.retrace traced trace).outcome mode).log = (decision.outcome mode).log := by
  have hprobabilities : (decision.retrace traced trace).probabilities = decision.probabilities := rfl
  have hchoose (p : Array α) : (decision.retrace traced trace).choose p = decision.choose p := rfl
  cases mode with
  | logsum => rfl
  | _ =>
    simp only [outcome, hprobabilities, hchoose]
    cases decision.probabilities <;> rfl

/-- An outcome logs no trace. -/
theorem traces_outcome (decision : EvaluatedDecision α) (mode : OutputMode) :
    traces (decision.outcome mode).log = [] := by
  cases mode with
  | logsum => rfl
  | _ =>
    simp only [outcome]
    cases decision.probabilities with
    | error e => rfl
    | ok found => simp [OutputMode.hasChoice, choose]

end EvaluatedDecision

namespace Chooser

/-- A run in a mode is the outcome of the evaluated decision in the mode. -/
theorem value_run (chooser : Chooser α) (context : Context α) (mode : OutputMode) :
    (chooser.run context mode).value =
      (chooser.evaluate context).value >>= fun decision => (decision.outcome mode).value := by
  rw [run, Logged.value_bind]
  cases (chooser.evaluate context).value <;> rfl

/-- A run logs what evaluating the decision logs, and behind it what the outcome does. -/
theorem log_run (chooser : Chooser α) (context : Context α) (mode : OutputMode) :
    (chooser.run context mode).log = (chooser.evaluate context).log ++
      match (chooser.evaluate context).value with
      | .error _ => []
      | .ok decision => (decision.outcome mode).log := by
  rw [run, Logged.log_bind]
  cases (chooser.evaluate context).value <;> rfl

/-- A traced decision is the untraced one with its trace. -/
theorem value_evaluate_traced (model : Model α) (draws : DrawSource α)
    (traced : List DecisionMakerId) (context : Context α) :
    ((⟨model, draws, traced⟩ : Chooser α).evaluate context).value =
      ((⟨model, draws, []⟩ : Chooser α).evaluate context).value.map
        (·.retrace traced ((⟨model, draws, traced⟩ : Chooser α).trace? context)) := by
  rw [value_evaluate, value_evaluate, conclude, conclude]
  split <;> rfl

/-- A traced run is the untraced one with the trace added: the outcome is the same but for its trace,
an error is the same, and the same warnings are logged in the same order. The trace, which is logged
as well, has one entry for each alternative, with the terms of those that could be chosen. -/
theorem run_traced (model : Model α) (draws : DrawSource α) (traced : List DecisionMakerId)
    (context : Context α) (mode : OutputMode) :
    let plain := (⟨model, draws, []⟩ : Chooser α).run context mode
    let run := (⟨model, draws, traced⟩ : Chooser α).run context mode
    let trace? := if traced.contains context.id then some (model.trace context) else none
    run.value = plain.value.map (·.withTrace trace?) ∧
      warnings run.log = warnings plain.log ∧
      traces run.log = trace?.toList ∧ traces plain.log = [] ∧
      (model.trace context).IsOf model context := by
  intro plain run trace?
  have hvalue := value_evaluate_traced model draws traced context
  have hlog : ((⟨model, draws, traced⟩ : Chooser α).evaluate context).log =
      (model.utilities context).log ++ trace?.toList.map .trace := log_evaluate _ _
  have hplain : ((⟨model, draws, []⟩ : Chooser α).evaluate context).log =
      (model.utilities context).log := by
    rw [log_evaluate]
    exact List.append_nil _
  simp only [run, plain, value_run, log_run, hvalue, hlog, hplain]
  refine ⟨?_, ?_, ?_, ?_, model.trace_isOf context⟩
  · cases ((⟨model, draws, []⟩ : Chooser α).evaluate context).value with
    | error e => rfl
    | ok decision => exact decision.value_outcome_retrace traced trace? mode
  · cases ((⟨model, draws, []⟩ : Chooser α).evaluate context).value with
    | error e => simp [Except.map]
    | ok decision => simp [Except.map, EvaluatedDecision.log_outcome_retrace]
  · cases ((⟨model, draws, []⟩ : Chooser α).evaluate context).value with
    | error e => simp [Except.map, Model.traces_utilities]
    | ok decision =>
      simp [Except.map, Model.traces_utilities, EvaluatedDecision.log_outcome_retrace,
        EvaluatedDecision.traces_outcome]
  · cases ((⟨model, draws, []⟩ : Chooser α).evaluate context).value with
    | error e => simp [Model.traces_utilities]
    | ok decision => simp [Model.traces_utilities, EvaluatedDecision.traces_outcome]

end Chooser
end DiscreteChoice
