import DiscreteChoice.Proofs.Utility.Availability

/-!
# Warnings about utilities

An alternative that is not available has been left out for one of three reasons: its availability is
zero, its availability is undefined, or its utility is not finite. The first is what the model says
and is not worth a warning; each of the others is logged, once and for that alternative, and so is
every missing variable that stopped an expression on the way.

Main results:

- Theorem `Node.exists_of_evaluate_eq_error`: an evaluation stops at a variable that it reads.
- Theorem `Alternative.exclusionWarnings_appraise`: when one alternative is said to be left out, and
  by which warning.
- Theorem `Alternative.missingVariables_appraise`: which missing variables are logged for it.
- Theorem `Model.exclusions_logged`: no alternative is left out silently.
-/

namespace DiscreteChoice

open Numeric

/-! ## Missing variables -/

namespace Node

variable {α ε : Type} [Numeric α] {lookup : Reference → Except ε α} {e : ε}

mutual

/-- An evaluation stops at a variable that it reads. -/
theorem exists_of_evaluate_eq_error : (node : Node α) → node.evaluate lookup = .error e →
    ∃ reference ∈ node.references, lookup reference = .error e
  | constant _, h => by
    cases h
  | read reference, h => ⟨reference, List.mem_singleton_self reference, h⟩
  | unary op operand, h => by
    rcases bind_eq_error.mp h with h | ⟨x, -, h⟩
    · exact exists_of_evaluate_eq_error operand h
    · cases h
  | binary op lhs rhs, h => by
    rw [references]
    rcases bind_eq_error.mp h with h | ⟨x, -, h⟩
    · rcases exists_of_evaluate_eq_error lhs h with ⟨reference, hmem, hread⟩
      exact ⟨reference, List.mem_append_left _ hmem, hread⟩
    · -- the second operand is read only when the first one does not settle the result
      split at h
      · cases h
      · rcases bind_eq_error.mp h with h | ⟨y, -, h⟩
        · rcases exists_of_evaluate_eq_error rhs h with ⟨reference, hmem, hread⟩
          exact ⟨reference, List.mem_append_right _ hmem, hread⟩
        · cases h
  | conditional c t f, h => by
    simp only [references, List.mem_append]
    rcases bind_eq_error.mp h with h | ⟨x, -, h⟩
    · rcases exists_of_evaluate_eq_error c h with ⟨reference, hmem, hread⟩
      exact ⟨reference, .inl (.inl hmem), hread⟩
    · split_ifs at h
      · cases h
      · rcases exists_of_evaluate_eq_error t h with ⟨reference, hmem, hread⟩
        exact ⟨reference, .inl (.inr hmem), hread⟩
      · rcases exists_of_evaluate_eq_error f h with ⟨reference, hmem, hread⟩
        exact ⟨reference, .inr hmem, hread⟩
  | call function args, h => by
    rcases bind_eq_error.mp h with h | ⟨values, -, h⟩
    · exact exists_of_evaluateAll_eq_error args h
    · cases h

/-- The evaluation of a list stops at a variable that it reads. -/
theorem exists_of_evaluateAll_eq_error : (nodes : List (Node α)) →
    evaluateAll lookup nodes = .error e →
      ∃ reference ∈ referencesOfAll nodes, lookup reference = .error e
  | [], h => by
    cases h
  | node :: nodes, h => by
    rw [referencesOfAll]
    rcases bind_eq_error.mp h with h | ⟨value, -, h⟩
    · rcases exists_of_evaluate_eq_error node h with ⟨reference, hmem, hread⟩
      exact ⟨reference, List.mem_append_left _ hmem, hread⟩
    · rcases bind_eq_error.mp h with h | ⟨values, -, h⟩
      · rcases exists_of_evaluateAll_eq_error nodes h with ⟨reference, hmem, hread⟩
        exact ⟨reference, List.mem_append_right _ hmem, hread⟩
      · cases h

end

end Node

/-- A missing variable is missing for the decision maker of the decision. -/
theorem Formula.id_of_evaluate_eq_error {α : Type} [Numeric α] {formula : Formula α}
    {context : Context α} {position : Nat} {missing : MissingVariable}
    (h : formula.evaluate context position = .error missing) : missing.id = context.id := by
  rcases Node.exists_of_evaluate_eq_error formula.root h with ⟨reference, -, hread⟩
  rw [Context.read] at hread
  split at hread
  · cases hread
  · rw [← Except.error.inj hread]

/-! ## What warnings are about -/

section Log

variable {α β : Type}

/-- The alternative and the decision maker that a warning names, if it says that the alternative is
left out. -/
def Warning.excluded? : Warning α → Option (String × DecisionMakerId)
  | .undefinedAvailability alternative id => some (alternative, id)
  | .excludedUtility alternative _ id => some (alternative, id)
  | _ => none

/-- The decision maker, the variable and the expression that a warning names, if it says that the
variable is missing. -/
def Warning.missing? : Warning α → Option (DecisionMakerId × String × String)
  | .missingVariable id name source => some (id, name, source)
  | _ => none

/-- The alternatives that a log says are left out, each with the decision maker, in order. -/
def exclusions (log : List (LogEntry α)) : List (String × DecisionMakerId) :=
  (warnings log).filterMap Warning.excluded?

/-- The warnings of a log that an alternative is left out, in order. -/
def exclusionWarnings (log : List (LogEntry α)) : List (Warning α) :=
  (warnings log).filter (·.excluded?.isSome)

/-- The variables that a log says are missing, each with the decision maker and the expression, in
order. -/
def missingVariables (log : List (LogEntry α)) : List (DecisionMakerId × String × String) :=
  (warnings log).filterMap Warning.missing?

@[simp] theorem exclusionWarnings_nil : exclusionWarnings ([] : List (LogEntry α)) = [] := rfl

@[simp] theorem missingVariables_nil : missingVariables ([] : List (LogEntry α)) = [] := rfl

@[simp] theorem exclusionWarnings_append (log log' : List (LogEntry α)) :
    exclusionWarnings (log ++ log') = exclusionWarnings log ++ exclusionWarnings log' := by
  simp [exclusionWarnings]

@[simp] theorem missingVariables_append (log log' : List (LogEntry α)) :
    missingVariables (log ++ log') = missingVariables log ++ missingVariables log' := by
  simp [missingVariables]

theorem exclusionWarnings_flatMap (logs : β → List (LogEntry α)) (xs : List β) :
    exclusionWarnings (xs.flatMap logs) = xs.flatMap fun x => exclusionWarnings (logs x) := by
  induction xs with
  | nil => rfl
  | cons x xs ih => simp [ih]

theorem missingVariables_flatMap (logs : β → List (LogEntry α)) (xs : List β) :
    missingVariables (xs.flatMap logs) = xs.flatMap fun x => missingVariables (logs x) := by
  induction xs with
  | nil => rfl
  | cons x xs ih => simp [ih]

theorem mem_exclusions {log : List (LogEntry α)} {who : String × DecisionMakerId} :
    who ∈ exclusions log ↔ ∃ w ∈ warnings log, w.excluded? = some who :=
  List.mem_filterMap

/-- The alternatives that are said to be left out are those that the warnings about it name. -/
theorem exclusions_eq_filterMap (log : List (LogEntry α)) :
    exclusions log = (exclusionWarnings log).filterMap Warning.excluded? := by
  rw [exclusions, exclusionWarnings, List.filterMap_filter]
  refine List.filterMap_congr fun w _ => ?_
  cases w.excluded? <;> rfl

/-- A variable is said to be missing by the warning about it. -/
theorem mem_missingVariables {log : List (LogEntry α)} {id : DecisionMakerId}
    {name source : String} :
    (id, name, source) ∈ missingVariables log ↔ .missingVariable id name source ∈ warnings log := by
  rw [missingVariables, List.mem_filterMap]
  constructor
  · rintro ⟨w, hw, hmissing⟩
    cases w <;> cases hmissing
    exact hw
  · exact fun h => ⟨_, h, rfl⟩

end Log

variable {α : Type} [Numeric α]

namespace Formula

variable (formula : Formula α) (context : Context α) (position : Nat)

/-- The missing variable that stops a formula, with the decision maker and the expression. -/
def stop? : Option (DecisionMakerId × String × String) :=
  match formula.evaluate context position with
  | .ok _ => none
  | .error missing => some (context.id, missing.name, formula.source)

/-- A formula says of no alternative that it is left out. -/
@[simp] theorem exclusionWarnings_lenient :
    exclusionWarnings (formula.lenient context position).log = [] := by
  unfold lenient
  split <;> rfl

/-- The missing variable that stops a formula is logged. -/
@[simp] theorem missingVariables_lenient :
    missingVariables (formula.lenient context position).log =
      (formula.stop? context position).toList := by
  unfold lenient stop?
  cases h : formula.evaluate context position with
  | ok value => rfl
  | error missing =>
    rw [← id_of_evaluate_eq_error h]
    rfl

end Formula

/-! ## One alternative -/

namespace Alternative

variable (alternative : Alternative α) (context : Context α) (position : Nat)

/-- Strict evaluation gives the availability of an alternative the value zero. -/
def isClosed : Bool :=
  match alternative.availability with
  | none => false
  | some formula =>
    match formula.evaluate context position with
    | .ok value => eq value 0
    | .error _ => false

/-- The formulas that are evaluated for an alternative: its availability, and its terms unless the
availability rules it out. -/
def consulted : List (Formula α) :=
  alternative.availability.toList ++
    if (alternative.isOffered context position).value then alternative.terms.map (·.formula) else []

/-- The availability of an alternative is undefined: strict evaluation stops at a missing variable, or
gives it an undefined value. -/
def IsUndefined : Prop :=
  ∃ formula, alternative.availability = some formula ∧
    ∀ value, formula.evaluate context position = .ok value → isNaN value = true

/-- The warning about an alternative that is left out without being closed: about its utility when its
availability holds, and about its availability otherwise. -/
def exclusion : Warning α :=
  if (alternative.isOffered context position).value then
    .excludedUtility alternative.name (alternative.utility context position).value context.id
  else .undefinedAvailability alternative.name context.id

theorem isClosed_iff : alternative.isClosed context position = true ↔
    ∃ formula value, alternative.availability = some formula ∧
      formula.evaluate context position = .ok value ∧ eq value 0 = true := by
  unfold isClosed
  cases alternative.availability with
  | none => simp
  | some formula => cases hvalue : formula.evaluate context position <;> simp [hvalue]

/-- An alternative that is offered is not closed. -/
theorem isClosed_of_isOffered [LawfulNumeric α]
    (h : (alternative.isOffered context position).value = true) :
    alternative.isClosed context position = false := by
  have hopen := value_isOffered_iff.mp h
  unfold isClosed
  split
  · rfl
  · rename_i formula hformula
    rcases hopen formula hformula with ⟨value, hvalue, -, hzero⟩
    rw [hvalue]
    exact hzero

/-- An availability is closed or says that the alternative is offered, unless it is undefined. -/
theorem value_isOffered_or_isClosed [LawfulNumeric α] {formula : Formula α}
    (hformula : alternative.availability = some formula) :
    ((alternative.isOffered context position).value || alternative.isClosed context position) =
      !isNaN (formula.lenient context position).value := by
  simp only [value_isOffered, isClosed, hformula]
  rcases hvalue : formula.evaluate context position with missing | value
  · simp [Formula.isNaN_value_lenient hvalue]
  · rw [Formula.value_lenient_of_ok hvalue]
    cases hnan : isNaN value with
    | true =>
      have hzero : eq value 0 = false := by
        rw [← Bool.not_eq_true]
        intro heq
        simp [LawfulNumeric.isNaN_of_eq heq] at hnan
      simp [hzero]
    | false => simp [Numeric.isTrue]

/-- An availability that neither holds nor is zero is undefined. -/
theorem isUndefined_of_not_isOffered [LawfulNumeric α]
    (hoffered : (alternative.isOffered context position).value = false)
    (hclosed : alternative.isClosed context position = false) :
    alternative.IsUndefined context position := by
  cases hformula : alternative.availability with
  | none => simp [value_isOffered, hformula] at hoffered
  | some formula =>
    have hnan := value_isOffered_or_isClosed alternative context position hformula
    rw [hoffered, hclosed] at hnan
    refine ⟨formula, hformula, fun value hvalue => ?_⟩
    simpa [Formula.value_lenient_of_ok hvalue] using hnan

/-- The availability of an alternative that is neither offered nor closed is logged as undefined. -/
theorem exclusionWarnings_isOffered [LawfulNumeric α] :
    exclusionWarnings (alternative.isOffered context position).log =
      if (alternative.isOffered context position).value || alternative.isClosed context position
      then [] else [.undefinedAvailability alternative.name context.id] := by
  cases hformula : alternative.availability with
  | none => simp [isOffered, hformula]
  | some formula =>
    rw [value_isOffered_or_isClosed alternative context position hformula]
    simp only [isOffered, hformula, Logged.log_bind, exclusionWarnings_append,
      Formula.exclusionWarnings_lenient, List.nil_append]
    cases isNaN (formula.lenient context position).value <;> rfl

/-- The terms of an alternative do not say that it is left out. -/
theorem exclusionWarnings_utility :
    exclusionWarnings (alternative.utility context position).log = [] := by
  simp [utility, exclusionWarnings_flatMap]

/-- The log of an alternative says that it is left out when it has no utility and is not closed, and
at most once. -/
theorem exclusionWarnings_appraise [LawfulNumeric α] :
    exclusionWarnings (alternative.appraise context position).log =
      if (alternative.appraise context position).value.isSome ||
        alternative.isClosed context position then []
      else [alternative.exclusion context position] := by
  rw [appraise, Logged.log_bind, Logged.value_bind, exclusionWarnings_append,
    exclusionWarnings_isOffered, exclusion]
  cases hoffered : (alternative.isOffered context position).value with
  | false => simp
  | true =>
    simp only [if_true, Logged.log_bind, Logged.value_bind, exclusionWarnings_append,
      exclusionWarnings_utility, isClosed_of_isOffered alternative context position hoffered,
      List.nil_append, Bool.or_false]
    split <;> rfl

/-- The warning about an alternative names it. -/
theorem excluded?_exclusion :
    (alternative.exclusion context position).excluded? = some (alternative.name, context.id) := by
  rw [exclusion]
  split <;> rfl

/-- The log of an alternative names the missing variables that stop its formulas. -/
theorem missingVariables_appraise :
    missingVariables (alternative.appraise context position).log =
      (alternative.consulted context position).filterMap (·.stop? context position) := by
  have hoffered : missingVariables (alternative.isOffered context position).log =
      alternative.availability.toList.flatMap fun formula =>
        (formula.stop? context position).toList := by
    unfold isOffered
    cases alternative.availability with
    | none => rfl
    | some formula =>
      simp only [Logged.log_bind, missingVariables_append, Formula.missingVariables_lenient,
        Option.toList_some, List.flatMap_cons, List.flatMap_nil]
      cases isNaN (formula.lenient context position).value <;> rfl
  have hutility : missingVariables (alternative.utility context position).log =
      (alternative.terms.map (·.formula)).flatMap fun formula =>
        (formula.stop? context position).toList := by
    simp [utility, missingVariables_flatMap, List.flatMap_map]
  rw [consulted, List.filterMap_eq_flatMap_toList, List.flatMap_append, ← hoffered, appraise,
    Logged.log_bind, missingVariables_append]
  congr 1
  cases (alternative.isOffered context position).value with
  | false => rfl
  | true =>
    simp only [if_true, Logged.log_bind, missingVariables_append, hutility]
    split <;> simp [missingVariables, warnings, Warning.missing?]

end Alternative

/-! ## All alternatives -/

namespace Model

variable (model : Model α) (context : Context α)

/-- The alternatives are logged one behind the other, in model order. -/
theorem log_utilities : (model.utilities context).log =
    model.alternatives.toList.zipIdx.flatMap fun entry =>
      (entry.1.appraise context entry.2).log := by
  simp [utilities]

/-- The alternatives that are left out without being closed, with their positions. -/
def dropped : List (Alternative α × Nat) :=
  model.alternatives.toList.zipIdx.filter fun entry =>
    !(model.utilities context).value.isAvailable entry.2 && !entry.1.isClosed context entry.2

/-- An alternative is available when appraising it gives a utility. -/
theorem isAvailable_utilities {position : Nat} {alternative : Alternative α}
    (h : model.alternatives[position]? = some alternative) :
    (model.utilities context).value.isAvailable position =
      (alternative.appraise context position).value.isSome := by
  rw [UtilityVector.isAvailable, utility?_utilities, h, Option.bind_some]

/-- The log says of each alternative that is left out without being closed that it is and why, once,
and of no other one. -/
theorem exclusionWarnings_utilities [LawfulNumeric α] :
    exclusionWarnings (model.utilities context).log =
      (model.dropped context).map fun entry => entry.1.exclusion context entry.2 := by
  rw [log_utilities, exclusionWarnings_flatMap, dropped, ← List.filterMap_eq_map,
    List.filterMap_filter, List.filterMap_eq_flatMap_toList]
  refine List.flatMap_congr fun entry hentry => ?_
  have halternative : model.alternatives[entry.2]? = some entry.1 := by
    simpa [List.mem_zipIdx_iff_getElem?] using hentry
  rw [Alternative.exclusionWarnings_appraise, isAvailable_utilities model context halternative,
    ← Bool.not_or]
  cases (entry.1.appraise context entry.2).value.isSome || entry.1.isClosed context entry.2 <;> rfl

/-- The alternatives that the log says are left out are those that are left out without being
closed. -/
theorem exclusions_utilities [LawfulNumeric α] :
    exclusions (model.utilities context).log =
      (model.dropped context).map fun entry => (entry.1.name, context.id) := by
  rw [exclusions_eq_filterMap, exclusionWarnings_utilities, List.filterMap_map,
    ← List.filterMap_eq_map]
  exact List.filterMap_congr fun entry _ => entry.1.excluded?_exclusion context entry.2

/-- The log names the missing variables that stop the formulas of the alternatives, and no other
ones. -/
theorem missingVariables_utilities :
    missingVariables (model.utilities context).log =
      model.alternatives.toList.zipIdx.flatMap fun entry =>
        (entry.1.consulted context entry.2).filterMap (·.stop? context entry.2) := by
  simp only [log_utilities, missingVariables_flatMap, Alternative.missingVariables_appraise]

variable {model context} {position : Nat} {alternative : Alternative α}

theorem mem_dropped : (alternative, position) ∈ model.dropped context ↔
    model.alternatives[position]? = some alternative ∧
      (model.utilities context).value.isAvailable position = false ∧
      alternative.isClosed context position = false := by
  simp [dropped, List.mk_mem_zipIdx_iff_getElem?]

/-- The log says that an alternative which is neither available nor closed is left out. -/
theorem exclusion_mem_warnings [LawfulNumeric α]
    (h : model.alternatives[position]? = some alternative)
    (hunavailable : (model.utilities context).value.isAvailable position = false)
    (hclosed : alternative.isClosed context position = false) :
    alternative.exclusion context position ∈ warnings (model.utilities context).log := by
  have hmem : alternative.exclusion context position ∈
      exclusionWarnings (model.utilities context).log := by
    rw [exclusionWarnings_utilities]
    exact List.mem_map.mpr ⟨_, mem_dropped.mpr ⟨h, hunavailable, hclosed⟩, rfl⟩
  exact (List.mem_filter.mp hmem).1

/-- An alternative whose availability holds and that has no utility adds up to one that is not
finite. -/
theorem isFinite_utility_of_not_isAvailable
    (h : model.alternatives[position]? = some alternative)
    (hunavailable : (model.utilities context).value.isAvailable position = false)
    (hoffered : (alternative.isOffered context position).value = true) :
    isFinite (alternative.utility context position).value = false := by
  rw [isAvailable_utilities model context h, Option.isSome_eq_false_iff, Option.isNone_iff_eq_none,
    Option.eq_none_iff_forall_ne_some] at hunavailable
  rw [← Bool.not_eq_true]
  exact fun hfinite =>
    hunavailable _ (Alternative.value_appraise_eq_some.mpr ⟨hoffered, rfl, hfinite⟩)

/-- Why an alternative that is neither available nor closed is left out, as the log says: its
availability is undefined, or behind an availability that holds its utility is not finite. -/
theorem exclusion_logged_of_not_isClosed [LawfulNumeric α]
    (h : model.alternatives[position]? = some alternative)
    (hunavailable : (model.utilities context).value.isAvailable position = false)
    (hclosed : alternative.isClosed context position = false) :
    let log := (model.utilities context).log
    (alternative.IsUndefined context position ∧
      .undefinedAvailability alternative.name context.id ∈ warnings log) ∨
    alternative.IsOpen context position ∧
      isFinite (alternative.utility context position).value = false ∧
      .excludedUtility alternative.name (alternative.utility context position).value context.id ∈
        warnings log := by
  have hlogged := exclusion_mem_warnings h hunavailable hclosed
  rw [Alternative.exclusion] at hlogged
  cases hoffered : (alternative.isOffered context position).value with
  | false =>
    rw [hoffered, if_neg Bool.false_ne_true] at hlogged
    exact .inl ⟨alternative.isUndefined_of_not_isOffered context position hoffered hclosed, hlogged⟩
  | true =>
    rw [hoffered, if_pos rfl] at hlogged
    exact .inr ⟨Alternative.value_isOffered_iff.mp hoffered,
      isFinite_utility_of_not_isAvailable h hunavailable hoffered, hlogged⟩

/-- When no other alternative has the name of an available one, the log does not say of that name
that it is left out. -/
theorem not_mem_exclusions_of_isAvailable [LawfulNumeric α]
    (havailable : (model.utilities context).value.isAvailable position = true)
    (hname : ∀ other a, model.alternatives[other]? = some a → a.name = alternative.name →
      other = position) :
    (alternative.name, context.id) ∉ exclusions (model.utilities context).log := by
  rw [exclusions_utilities]
  intro hmem
  rcases List.mem_map.mp hmem with ⟨⟨a, other⟩, hdropped, hsame⟩
  rcases mem_dropped.mp hdropped with ⟨ha, hunavailable, -⟩
  rcases hname other a ha (Prod.ext_iff.mp hsame).1 with rfl
  rw [havailable] at hunavailable
  cases hunavailable

/-- A missing variable that stops a formula which is evaluated is logged. -/
theorem missingVariable_mem_warnings (h : model.alternatives[position]? = some alternative)
    {formula : Formula α} (hformula : formula ∈ alternative.consulted context position)
    {missing : MissingVariable} (hmissing : formula.evaluate context position = .error missing) :
    .missingVariable context.id missing.name formula.source ∈
      warnings (model.utilities context).log := by
  have hentry : (alternative, position) ∈ model.alternatives.toList.zipIdx := by
    simpa [List.mk_mem_zipIdx_iff_getElem?] using h
  rw [← mem_missingVariables, missingVariables_utilities, List.mem_flatMap]
  refine ⟨(alternative, position), hentry, List.mem_filterMap.mpr ⟨formula, hformula, ?_⟩⟩
  rw [Formula.stop?, hmissing]

/-- No alternative is left out silently. The log of the utilities is that of the alternatives, one
behind the other, and what it says to be left out is what is left out without being closed, once for
each such alternative and in model order. So an alternative that is not available has an
availability of zero, or a warning names it with the decision maker: an undefined availability is
logged as such, and behind an availability that holds a utility that is not finite, with its value.
Nothing is logged about leaving out one that is available, and when no other alternative has its
name, no warning names it. Each missing variable that stops one of the formulas that are evaluated is
logged with the decision maker and the text of the formula. -/
theorem exclusions_logged [LawfulNumeric α] (model : Model α) (context : Context α) :
    let v := (model.utilities context).value
    let log := (model.utilities context).log
    (log = model.alternatives.toList.zipIdx.flatMap fun entry =>
      (entry.1.appraise context entry.2).log) ∧
    (exclusionWarnings log = (model.dropped context).map fun entry =>
      entry.1.exclusion context entry.2) ∧
    (exclusions log = (model.dropped context).map fun entry => (entry.1.name, context.id)) ∧
    ∀ position alternative, model.alternatives[position]? = some alternative →
      (v.isAvailable position = false →
        (∃ formula value, alternative.availability = some formula ∧
          formula.evaluate context position = .ok value ∧ eq value 0 = true) ∨
        (alternative.IsUndefined context position ∧
          .undefinedAvailability alternative.name context.id ∈ warnings log) ∨
        alternative.IsOpen context position ∧
          isFinite (alternative.utility context position).value = false ∧
          .excludedUtility alternative.name (alternative.utility context position).value context.id ∈
            warnings log) ∧
      (v.isAvailable position = true →
        exclusions (alternative.appraise context position).log = [] ∧
        ((∀ other a, model.alternatives[other]? = some a → a.name = alternative.name →
            other = position) →
          ∀ w ∈ warnings log, w.excluded? ≠ some (alternative.name, context.id))) ∧
      ∀ formula ∈ alternative.consulted context position, ∀ missing,
        formula.evaluate context position = .error missing →
          missing.id = context.id ∧
          .missingVariable missing.id missing.name formula.source ∈ warnings log := by
  intro v log
  refine ⟨model.log_utilities context, model.exclusionWarnings_utilities context,
    model.exclusions_utilities context, ?_⟩
  intro position alternative halternative
  refine ⟨fun hunavailable => ?_, fun havailable => ⟨?_, fun hname w hw hexcluded => ?_⟩, ?_⟩
  · cases hclosed : alternative.isClosed context position with
    | true => exact .inl ((alternative.isClosed_iff context position).mp hclosed)
    | false => exact .inr (exclusion_logged_of_not_isClosed halternative hunavailable hclosed)
  · have hsome : (alternative.appraise context position).value.isSome = true := by
      rw [← isAvailable_utilities model context halternative]
      exact havailable
    rw [exclusions_eq_filterMap, Alternative.exclusionWarnings_appraise, hsome]
    rfl
  · exact not_mem_exclusions_of_isAvailable havailable hname
      (mem_exclusions.mpr ⟨w, hw, hexcluded⟩)
  · intro formula hformula missing hmissing
    have hid := Formula.id_of_evaluate_eq_error hmissing
    refine ⟨hid, ?_⟩
    rw [hid]
    exact missingVariable_mem_warnings halternative hformula hmissing

/-- The log says that the bus is left out because of its utility and that its fare is missing. -/
theorem exclusions_logged_bus :
    let context := walkOrBus.bind stranger .empty
    let log := (walkOrBus.utilities context).log
    exclusions log = [("bus", 7)] ∧
      exclusionWarnings log = [.excludedUtility "bus" (bus.utility context 1).value 7] ∧
      .missingVariable 7 "fare" "@fare" ∈ warnings log := by
  intro context log
  rcases exclusions_logged walkOrBus context with ⟨-, hwarnings, hexclusions, hentry⟩
  rcases hentry 1 bus rfl with ⟨-, -, hmissing⟩
  have hdropped : walkOrBus.dropped (walkOrBus.bind stranger .empty) = [(bus, 1)] := by
    with_unfolding_all rfl
  have hfare : fareTerm.formula ∈ bus.consulted context 1 := by
    simp [Alternative.consulted, Alternative.value_isOffered, bus]
  have hoffered : (bus.isOffered context 1).value = true := rfl
  have hexclusion : bus.exclusion context 1 =
      .excludedUtility "bus" (bus.utility context 1).value 7 := if_pos hoffered
  refine ⟨?_, ?_, ?_⟩
  · rw [hexclusions, hdropped]
    rfl
  · rw [hwarnings, hdropped, List.map_singleton, hexclusion]
  · exact (hmissing fareTerm.formula hfare ⟨7, "fare"⟩ (by with_unfolding_all rfl)).2

end Model

end DiscreteChoice
