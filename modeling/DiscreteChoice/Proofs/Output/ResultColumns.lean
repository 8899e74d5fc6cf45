import DiscreteChoice.Proofs.Choice.Failure
import DiscreteChoice.Proofs.Run.Fates

/-!
# Columns of a result table

The header and the rows of a result table are put together each by itself. Both follow the same list
of columns, so that every row has its cells below their titles, and a cell is empty only where the
outcome has nothing for its column. The outcomes of a population have something for every column of
the mode that they were worked out in.

Main results:

- Theorem `Double.plain_ne_empty`: no double has an empty text.
- Theorem `header_eq_map_title`: the header has the titles of the columns.
- Theorem `row_eq_map_cell`: a row has the cells of the columns.
- Theorem `Outcome.Fills.of_run`: an outcome has a value for every column of its mode.
- Theorem `write_aligned`: a result table is rectangular and aligned.
-/

namespace DiscreteChoice

/-! ## Texts of numbers -/

/-- No decimal has an empty text. -/
theorem Decimal.positional_ne_empty (d : Decimal) : d.positional ≠ "" := by
  have hdigits : digitChars d.digits ≠ [] := Nat.toDigits_ne_nil
  rw [positional, ne_eq, String.ofList_eq_empty_iff]
  split_ifs <;> simp [hdigits]

/-- No double has an empty text. -/
theorem Double.plain_ne_empty (x : Float) : NumberText.plain x ≠ "" := by
  have hdecimal := Decimal.positional_ne_empty (toDecimal x)
  have htext : NumberText.plain x = text Decimal.positional x := rfl
  rw [htext, text]
  dsimp only
  split_ifs <;> simp [hdecimal]

/-- The probabilities of an outcome, if it has some, are as many as given. -/
def Outcome.IsSized {α : Type} (outcome : Outcome α) (count : Nat) : Prop :=
  ∀ probabilities ∈ outcome.probabilities, probabilities.size = count

/-! ## Columns -/

namespace ResultTable

variable {α : Type}

/-- A column of a result table, where the given number is that of the alternatives. -/
inductive Column (count : Nat) where
  | person
  | choice
  | logsum
  | probability (position : Fin count)

/-- The columns that a mode asks for, in order. -/
def columns (mode : OutputMode) (count : Nat) : List (Column count) :=
  [.person] ++ (if mode.hasChoice then [.choice] else []) ++
    (if mode.hasLogsum then [.logsum] else []) ++
    (if mode.hasProbabilities then (List.finRange count).map .probability else [])

/-- The title of a column. -/
def Column.title (model : Model α) : Column model.alternatives.size → String
  | person => "decision_maker_id"
  | choice => "chosen"
  | logsum => "logsum"
  | probability position => "p_" ++ model.alternatives[position].name

/-- The header has the titles of the columns. -/
theorem header_eq_map_title (model : Model α) (mode : OutputMode) :
    header model mode = (columns mode model.alternatives.size).map (Column.title model) := by
  have hprobabilities : (model.alternatives.toList.map fun a => "p_" ++ a.name) =
      (List.finRange model.alternatives.size).map fun position =>
        Column.title model (.probability position) := by
    refine List.ext_getElem (by simp) fun i hi _ => ?_
    simp [Column.title]
  rw [header, hprobabilities, columns, List.map_append, List.map_append, List.map_append]
  cases mode <;> simp [OutputMode.hasChoice, OutputMode.hasLogsum, OutputMode.hasProbabilities,
    Column.title]

variable [NumberText α]

/-- The text of what an outcome has for a column. -/
def Column.text? {count : Nat} (outcome : Outcome α) : Column count → Option String
  | person => some (toString outcome.id.toNat)
  | choice => outcome.chosen.map fun id => toString id.toNat
  | logsum => outcome.logsum.map NumberText.plain
  | probability position =>
    outcome.probabilities.bind fun probabilities =>
      probabilities[position.val]?.map NumberText.plain

/-- The cell of a column, empty when the outcome has nothing for it. -/
def Column.cell {count : Nat} (outcome : Outcome α) (column : Column count) : String :=
  (column.text? outcome).getD ""

/-- The cells of the probabilities are those of their columns. -/
theorem probabilityCells_eq_map_cell {model : Model α} {outcome : Outcome α}
    (sized : outcome.IsSized model.alternatives.size) :
    probabilityCells model outcome =
      (List.finRange model.alternatives.size).map fun position =>
        Column.cell outcome (.probability position) := by
  rw [probabilityCells]
  cases hprobabilities : outcome.probabilities with
  | none =>
    refine List.ext_getElem (by simp [Model.size]) fun i hi _ => ?_
    simp [Column.cell, Column.text?, hprobabilities]
  | some probabilities =>
    have hsize := sized probabilities hprobabilities
    refine List.ext_getElem (by simp [hsize]) fun i hi _ => ?_
    have hposition : i < probabilities.size := by simpa using hi
    simp [Column.cell, Column.text?, hprobabilities, hposition]

/-- A row has the cells of the columns. -/
theorem row_eq_map_cell {model : Model α} {outcome : Outcome α}
    (sized : outcome.IsSized model.alternatives.size) (mode : OutputMode) :
    row model mode outcome =
      (columns mode model.alternatives.size).map (Column.cell outcome) := by
  rw [row, probabilityCells_eq_map_cell sized, columns, List.map_append, List.map_append,
    List.map_append]
  cases mode <;> simp [OutputMode.hasChoice, OutputMode.hasLogsum, OutputMode.hasProbabilities,
    Column.cell, Column.text?]

end ResultTable

/-! ## Outcomes of a population -/

section Population

variable {α : Type} [Numeric α]

/-- An outcome has everything that a mode asks for, a probability for each alternative among it. -/
structure Outcome.Fills (outcome : Outcome α) (mode : OutputMode) (count : Nat) : Prop where
  sized : outcome.IsSized count
  choice : mode.hasChoice = true → outcome.chosen ≠ none
  logsum : mode.hasLogsum = true → outcome.logsum ≠ none
  probabilities : mode.hasProbabilities = true → outcome.probabilities ≠ none

/-- A decision has an outcome with everything that the mode asks for. -/
theorem Outcome.Fills.of_run {chooser : Chooser α} {context : Context α} {mode : OutputMode}
    {outcome : Outcome α} (h : (chooser.run context mode).value = .ok outcome) :
    outcome.Fills mode chooser.model.alternatives.size := by
  rw [Chooser.value_run, bind_eq_ok] at h
  rcases h with ⟨decision, hdecision, h⟩
  rcases Chooser.evaluate_eq_ok hdecision with ⟨hchooser, hutilities, -⟩
  rw [EvaluatedDecision.value_outcome, bind_eq_ok] at h
  rcases h with ⟨⟨probabilities, logsum⟩, hfound, h⟩
  have hsize : probabilities.size = chooser.model.alternatives.size := by
    rw [EvaluatedDecision.probabilities, hutilities] at hfound
    rw [Logit.size_probabilities hfound, Chooser.size_utilities]
    rfl
  cases hchosen : decision.chosen? mode probabilities with
  | error e => simp [hchosen, Except.map] at h
  | ok chosen =>
    obtain rfl : decision.view mode (probabilities, logsum) chosen = outcome := by
      simpa [hchosen, Except.map] using h
    refine ⟨fun found hfound => ?_, fun hchoice => ?_, fun hlogsum => ?_, fun hprobabilities => ?_⟩
    · have hview : mode.hasProbabilities = true ∧ probabilities = found := by
        simpa [EvaluatedDecision.view] using hfound
      rw [← hview.2, hsize]
    · rw [EvaluatedDecision.chosen?, if_pos hchoice] at hchosen
      cases hchoose : (decision.choose probabilities).value with
      | error e => simp [hchoose, Except.map] at hchosen
      | ok id =>
        obtain rfl : some id = chosen := by simpa [hchoose, Except.map] using hchosen
        simp [EvaluatedDecision.view]
    · simp [EvaluatedDecision.view, hlogsum]
    · simp [EvaluatedDecision.view, hprobabilities]

/-- An outcome in the report on a population is that of one of its members. -/
theorem Batch.exists_run_of_mem_outcomes [NumberText α] {chooser : Chooser α} {data : ModelData α}
    {options : BatchOptions} {cancelled : Nat → Bool} {people : List (DecisionMaker α)}
    {outcome : Outcome α}
    (h : outcome ∈ (run chooser data options cancelled people).value.outcomes) :
    ∃ person ∈ people,
      (chooser.run (chooser.model.bind person data) options.mode).value = .ok outcome := by
  rw [value_run_eq_ofFates, Report.ofFates, List.mem_filterMap] at h
  rcases h with ⟨fate, hfate, houtcome⟩
  rw [fates, List.mem_map] at hfate
  rcases hfate with ⟨⟨person, position⟩, hperson, rfl⟩
  refine ⟨person, List.fst_mem_of_mem_zipIdx hperson, ?_⟩
  dsimp only at houtcome
  split_ifs at houtcome
  · cases houtcome
  · rw [alone] at houtcome
    cases hrun : (chooser.run (chooser.model.bind person data) options.mode).value with
    | error e => simp [hrun, Fate.outcome?] at houtcome
    | ok found => simpa [hrun, Fate.outcome?] using houtcome

end Population

/-! ## Tables of outcomes -/

namespace ResultTable

/-- An outcome that has everything that a mode asks for leaves no cell empty. -/
theorem cell_ne_empty {outcome : Outcome Float} {mode : OutputMode} {count : Nat}
    (fills : outcome.Fills mode count) {column : Column count} (h : column ∈ columns mode count) :
    column.cell outcome ≠ "" := by
  cases column with
  | person => simp [Column.cell, Column.text?]
  | choice =>
    have hmode : mode.hasChoice = true := by simpa [columns] using h
    cases hchosen : outcome.chosen with
    | none => exact absurd hchosen (fills.choice hmode)
    | some id => simp [Column.cell, Column.text?, hchosen]
  | logsum =>
    have hmode : mode.hasLogsum = true := by simpa [columns] using h
    cases hlogsum : outcome.logsum with
    | none => exact absurd hlogsum (fills.logsum hmode)
    | some x => simpa [Column.cell, Column.text?, hlogsum] using Double.plain_ne_empty x
  | probability position =>
    have hmode : mode.hasProbabilities = true := by simpa [columns] using h
    cases hprobabilities : outcome.probabilities with
    | none => exact absurd hprobabilities (fills.probabilities hmode)
    | some probabilities =>
      have hposition : position.val < probabilities.size :=
        fills.sized probabilities hprobabilities ▸ position.isLt
      simpa [Column.cell, Column.text?, hprobabilities, hposition] using Double.plain_ne_empty _

/-- A result table is rectangular and aligned. Outcomes whose probabilities are those of the
alternatives can always be written, and what is written is split into the header and one row for
each outcome. The header has the titles of the columns of the mode and a row has their cells, so
that every row is as long as the header and has below the title of a column the text of what the
outcome has for it, and nothing when the outcome has nothing. The outcomes of a population can be
written, and in the mode that they were worked out in none of their cells is empty. -/
theorem write_aligned (model : Model Float) (mode : OutputMode) (outcomes : List (Outcome Float))
    (sized : ∀ outcome ∈ outcomes, outcome.IsSized model.alternatives.size) :
    (∃ text, write model mode outcomes = .ok text ∧
      Csv.split (Text.bytes text) =
        (header model mode :: outcomes.map (row model mode)).map (·.map Text.bytes)) ∧
    header model mode = (columns mode model.alternatives.size).map (Column.title model) ∧
    (∀ outcome ∈ outcomes,
      (row model mode outcome).length = (header model mode).length ∧
      row model mode outcome =
        (columns mode model.alternatives.size).map (Column.cell outcome)) ∧
    ∀ (chooser : Chooser Float) data options cancelled people, chooser.model = model →
      ∀ outcome ∈ (Batch.run chooser data options cancelled people).value.outcomes,
        outcome.IsSized model.alternatives.size ∧
        (options.mode = mode → ∀ cell ∈ row model mode outcome, cell ≠ "") := by
  refine ⟨?_, header_eq_map_title model mode, fun outcome houtcome => ?_, ?_⟩
  · have hexists : ∃ text, write model mode outcomes = .ok text :=
      exists_write_eq_ok fun _ => sized
    rcases hexists with ⟨text, hwrite⟩
    exact ⟨text, hwrite, split_bytes_of_write hwrite⟩
  · exact ⟨length_row fun _ => sized outcome houtcome,
      row_eq_map_cell (sized outcome houtcome) mode⟩
  · rintro chooser data options cancelled people rfl outcome houtcome
    rcases Batch.exists_run_of_mem_outcomes houtcome with ⟨person, -, hrun⟩
    have fills := Outcome.Fills.of_run hrun
    refine ⟨fills.sized, ?_⟩
    rintro rfl cell hcell
    rw [row_eq_map_cell fills.sized, List.mem_map] at hcell
    rcases hcell with ⟨column, hcolumn, rfl⟩
    exact cell_ne_empty fills hcolumn

/-- The outcome of a driver and that of somebody of whom nothing is known, in a table that has all
columns. -/
theorem write_aligned_driving :
    let outcomes : List (Outcome Float) :=
      [⟨1, some 1, some #[1], some 0, none⟩, ⟨2, none, none, none, none⟩]
    (∀ outcome ∈ outcomes, outcome.IsSized Batch.driving.model.alternatives.size) ∧
    (∃ text, write Batch.driving.model .all outcomes = .ok text) ∧
    (columns .all Batch.driving.model.alternatives.size).map
        (Column.title Batch.driving.model) = ["decision_maker_id", "chosen", "logsum", "p_drive"] ∧
    row Batch.driving.model .all ⟨2, none, none, none, none⟩ = ["2", "", "", ""] := by
  intro outcomes
  have hsized : ∀ outcome ∈ outcomes,
      outcome.IsSized Batch.driving.model.alternatives.size := by
    intro outcome houtcome
    rcases List.mem_cons.mp houtcome with rfl | houtcome
    · intro probabilities hprobabilities
      rcases Option.some.inj hprobabilities with rfl
      rfl
    · rcases List.mem_singleton.mp houtcome with rfl
      exact nofun
  rcases write_aligned Batch.driving.model .all outcomes hsized with
    ⟨⟨text, hwrite, -⟩, hheader, hrows, -⟩
  refine ⟨hsized, ⟨text, hwrite⟩, ?_, ?_⟩
  · rw [← hheader]
    rfl
  · rw [(hrows ⟨2, none, none, none, none⟩ (by simp [outcomes])).2]
    rfl

end ResultTable
end DiscreteChoice
