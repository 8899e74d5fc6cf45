import Mathlib
import DiscreteChoice.Input.Population
import DiscreteChoice.Output.ResultTable
import DiscreteChoice.Proofs.Batch
import DiscreteChoice.Proofs.Format.Csv

/-!
# What becomes of the rows of a population

A row of a population is read as one decision maker, whose fate is to have an outcome, to fail, or to
be in a chunk that is skipped. The report is read off the fates, and its outcomes and failures are
the rows of the tables that are written.

Main results:

- Theorem `Population.areOf_of_ofTable`: a population has one decision maker for each row.
- Theorem `Batch.value_run_eq_ofFates`: a report is read off the fates of the population.
- Theorem `Report.ofFates_conserves`: every fate is counted once.
- Theorem `ResultTable.split_bytes_of_write`: a result table has one row for each outcome.
- Theorem `ResultTable.split_bytes_of_writeFailures`: and a failure table for each failure.
-/

namespace DiscreteChoice

/-! ## Rows and decision makers -/

namespace Population

/-- Decision makers are those of the rows of a table, one for each row and in their order. -/
def AreOf (people : List (DecisionMaker Float)) (table : Csv.Table) : Prop :=
  ∃ header, table.header = .ok header ∧
    List.Forall₂ (fun row person => ∃ cells, row.1 = .ok cells ∧
      ofRow (header.map Column.ofHeader) row.2 cells = .ok person) table.rows.zipIdx people

/-- The rows from a number on are read one by one. -/
theorem forall₂_of_ofRows {file : String} {columns : List Column} {number : Nat}
    {rows : List (Except Csv.Fault (List String))} {people : List (DecisionMaker Float)}
    (h : ofRows file columns number rows = .ok people) :
    List.Forall₂ (fun row person => ∃ cells, row.1 = .ok cells ∧
      ofRow columns row.2 cells = .ok person) (rows.zipIdx number) people := by
  induction rows generalizing number people with
  | nil =>
    rcases Except.ok.inj h with rfl
    exact .nil
  | cons row rows ih =>
    cases row with
    | error fault => exact absurd h nofun
    | ok cells =>
      rw [ofRows] at h
      cases hperson : ofRow columns number cells with
      | error fault => simp [hperson] at h
      | ok person =>
        rw [hperson] at h
        rcases bind_eq_ok.mp h with ⟨others, hothers, hall⟩
        rcases Except.ok.inj hall with rfl
        exact .cons ⟨cells, rfl, hperson⟩ (ih hothers)

/-- A population has one decision maker for each row. -/
theorem areOf_of_ofTable {file : String} {table : Csv.Table}
    {people : List (DecisionMaker Float)} (h : ofTable file table = .ok people) :
    AreOf people table := by
  rw [ofTable] at h
  cases hheader : table.header with
  | error fault => simp [hheader] at h
  | ok header =>
    simp only [hheader] at h
    split_ifs at h
    exact ⟨header, hheader, forall₂_of_ofRows h⟩

theorem AreOf.length_eq {people : List (DecisionMaker Float)} {table : Csv.Table}
    (h : AreOf people table) : people.length = table.rows.length := by
  rcases h with ⟨header, -, hrows⟩
  rw [← hrows.length_eq, List.length_zipIdx]

end Population

/-! ## Fates -/

variable {α : Type}

/-- What becomes of a decision maker: an outcome or a failure, or nothing when it is skipped. -/
abbrev Fate (α : Type) :=
  Option (Except Failure (Outcome α))

namespace Fate

/-- The outcome of a decision maker, if it has one. -/
def outcome? : Fate α → Option (Outcome α)
  | some (.ok outcome) => some outcome
  | _ => none

/-- The failure of a decision maker, if it failed. -/
def failure? : Fate α → Option Failure
  | some (.error failure) => some failure
  | _ => none

/-- A fate names a decision maker when what is reported is about it. -/
def Names (fate : Fate α) (id : DecisionMakerId) : Prop :=
  (∀ outcome ∈ fate.outcome?, outcome.id = id) ∧ ∀ failure ∈ fate.failure?, failure.id = id

@[simp] theorem names_none (id : DecisionMakerId) : Names (none : Fate α) id := by
  simp [Names, outcome?, failure?]

theorem names_some {result : Except Failure (Outcome α)} {id : DecisionMakerId}
    (houtcome : ∀ outcome, result = .ok outcome → outcome.id = id)
    (hfailure : ∀ failure, result = .error failure → failure.id = id) :
    Names (some result) id := by
  cases result with
  | ok outcome => simpa [Names, outcome?, failure?] using houtcome outcome rfl
  | error failure => simpa [Names, outcome?, failure?] using hfailure failure rfl

end Fate

namespace Report

/-- The report on fates. -/
def ofFates (fates : List (Fate α)) : Report α where
  outcomes := fates.filterMap Fate.outcome?
  failures := fates.filterMap Fate.failure?
  skipped := fates.countP Option.isNone

/-- Every fate is counted once, as an outcome, as a failure or as skipped. -/
theorem ofFates_conserves (fates : List (Fate α)) :
    (ofFates fates).outcomes.length + (ofFates fates).failures.length +
      (ofFates fates).skipped = fates.length := by
  induction fates with
  | nil => rfl
  | cons fate fates ih =>
    simp only [ofFates] at ih ⊢
    match fate with
    | none => simp [Fate.outcome?, Fate.failure?, List.filterMap_cons]; omega
    | some (.ok outcome) => simp [Fate.outcome?, Fate.failure?, List.filterMap_cons]; omega
    | some (.error failure) => simp [Fate.outcome?, Fate.failure?, List.filterMap_cons]; omega

theorem ofFates_append (fates others : List (Fate α)) :
    ofFates (fates ++ others) = (ofFates fates).append (ofFates others) := by
  simp [ofFates, append]

/-- Where nobody is skipped, the report on fates is that on the results. -/
theorem ofFates_map_some (results : List (Except Failure (Outcome α))) :
    ofFates (results.map some) = ofResults results := by
  have houtcomes : Fate.outcome? ∘ some = Except.toOption (α := Outcome α) (ε := Failure) := by
    funext result
    cases result <;> rfl
  have hfailures : (results.filterMap (Fate.failure? ∘ some)) = (ofResults results).failures :=
    List.filterMap_congr fun result _ => by cases result <;> rfl
  rw [ofFates, List.filterMap_map, List.filterMap_map, houtcomes, hfailures]
  simp [ofResults]

/-- The reports on fates, one behind the other, are the report on all of them. -/
theorem foldl_append_map_ofFates (groups : List (List (Fate α))) :
    (groups.map ofFates).foldl append empty = ofFates groups.flatten := by
  induction groups with
  | nil => rfl
  | cons group groups ih =>
    rw [List.map_cons, List.foldl_cons, empty_append, foldl_append, ih, List.flatten_cons,
      ofFates_append]

end Report

namespace Batch

/-- The members of chunks, with the numbers of the chunks, are the members of the list, each with the
number of the chunk that its position falls into. -/
theorem flatMap_zipIdx_chunks_map {β γ : Type} (size first : Nat) (f : Nat → β → γ) (xs : List β) :
    ((chunks size xs).zipIdx first).flatMap (fun entry => entry.1.map (f entry.2)) =
      xs.zipIdx.map fun entry => f (first + entry.2 / max 1 size) entry.1 := by
  have hsize : max 1 size = size - 1 + 1 := by omega
  rw [hsize]
  generalize hwidth : size - 1 = width
  induction h : xs.length using Nat.strongRecOn generalizing xs first with
  | _ n ih =>
    match xs with
    | [] => simp [chunks]
    | x :: rest =>
      have hfirst : ∀ entry ∈ (x :: rest.take width).zipIdx,
          f first entry.1 = f (first + entry.2 / (width + 1)) entry.1 := by
        intro entry hentry
        have hposition := List.snd_lt_of_mem_zipIdx hentry
        have hlength : (x :: rest.take width).length ≤ width + 1 := by simp
        rw [Nat.div_eq_of_lt (by omega), Nat.add_zero]
      have hparts : x :: rest = (x :: rest.take width) ++ rest.drop width := by simp
      have hothers := ih _ (by subst h; simp) (first + 1) (rest.drop width) rfl
      rw [chunks, hwidth, List.zipIdx_cons, List.flatMap_cons, hothers, hparts, List.zipIdx_append,
        List.map_append]
      congr 1
      · rw [← List.map_congr_left hfirst, ← Function.comp_def (f first), ← List.map_map,
          List.zipIdx_map_fst]
      · rcases Nat.lt_or_ge width rest.length with hlong | hshort
        · have hlength : (x :: rest.take width).length = width + 1 := by simp; omega
          rw [hlength, List.zipIdx_eq_map_add (i := 0 + (width + 1)), List.map_map]
          refine List.map_congr_left fun entry _ => ?_
          have hnext : (width + 1 + entry.2) / (width + 1) = entry.2 / (width + 1) + 1 :=
            Nat.add_div_left _ (Nat.succ_pos width)
          simp only [Function.comp_apply, Nat.zero_add, hnext]
          congr 1
          omega
        · rw [List.drop_eq_nil_of_le hshort]
          rfl

variable [Numeric α] [NumberText α] (chooser : Chooser α) (data : ModelData α)

/-- The report on a chunk is that on the fates of its members. -/
theorem value_decideChunk_eq_ofFates (mode : OutputMode) (cancelled : Bool)
    (chunk : List (DecisionMaker α)) :
    (decideChunk chooser data mode cancelled chunk).value = .ofFates (chunk.map fun person =>
      if cancelled then none else some (alone chooser data mode person)) := by
  cases cancelled with
  | true =>
    simp [decideChunk, Report.ofFates, Report.empty, Fate.outcome?, Fate.failure?,
      List.countP_replicate]
  | false =>
    have hfates : (chunk.map fun person =>
        if false then none else some (alone chooser data mode person)) =
        (chunk.map (alone chooser data mode)).map some := List.map_map.symm
    rw [hfates, Report.ofFates_map_some, decideChunk, if_neg Bool.false_ne_true, Logged.value_bind,
      Logged.value_forAll, Logged.value_pure]
    exact congrArg Report.ofResults
      (List.map_congr_left fun person _ => value_decide chooser data mode person)

/-- The fates of a population: a member is skipped when the work has been cancelled at its chunk, and
otherwise has what comes of it alone. -/
def fates (options : BatchOptions) (cancelled : Nat → Bool) (people : List (DecisionMaker α)) :
    List (Fate α) :=
  people.zipIdx.map fun entry =>
    if cancelled (entry.2 / max 1 options.batchSize) then none
    else some (alone chooser data options.mode entry.1)

theorem length_fates (options : BatchOptions) (cancelled : Nat → Bool)
    (people : List (DecisionMaker α)) :
    (fates chooser data options cancelled people).length = people.length := by
  rw [fates, List.length_map, List.length_zipIdx]

/-- A report is read off the fates of the population. -/
theorem value_run_eq_ofFates (options : BatchOptions) (cancelled : Nat → Bool)
    (people : List (DecisionMaker α)) :
    (run chooser data options cancelled people).value =
      .ofFates (fates chooser data options cancelled people) := by
  have hchunks := flatMap_zipIdx_chunks_map options.batchSize 0 (fun number person =>
    if cancelled number then none else some (alone chooser data options.mode person)) people
  simp only [Nat.zero_add] at hchunks
  rw [fates, ← hchunks, List.flatMap_def, ← Report.foldl_append_map_ofFates, List.map_map, run,
    Logged.value_bind, Logged.value_forAll, Logged.value_pure]
  congr 1
  exact List.map_congr_left fun entry _ => value_decideChunk_eq_ofFates ..

/-- The fate of a member of a population is about this member. -/
theorem forall₂_names_fates (options : BatchOptions) (cancelled : Nat → Bool)
    (people : List (DecisionMaker α)) :
    List.Forall₂ (fun person fate => Fate.Names fate person.id) people
      (fates chooser data options cancelled people) := by
  have hpeople : people = people.zipIdx.map Prod.fst := (List.zipIdx_map_fst 0 people).symm
  rw [fates]
  conv => arg 2; rw [hpeople]
  rw [List.forall₂_map_left_iff, List.forall₂_map_right_iff, List.forall₂_same]
  intro entry _
  rcases id_alone chooser data options.mode entry.1 with ⟨houtcome, hfailure⟩
  split_ifs
  · exact Fate.names_none _
  · exact Fate.names_some houtcome hfailure

end Batch

/-! ## Tables of a report -/

namespace ResultTable

open Text (bytes bytes_eq)

/-- A table whose first column is that of the decision makers is split into its rows. -/
theorem split_bytes_of_write_ids {fields : List String} {table : List (List String)} {text : String}
    (hwrite : Csv.write (("decision_maker_id" :: fields) :: table) = .ok text)
    (htable : ∀ row ∈ table, row ≠ []) :
    Csv.split (bytes text) = (("decision_maker_id" :: fields) :: table).map (·.map bytes) := by
  refine Csv.split_bytes_of_write hwrite (List.forall_mem_cons.mpr ⟨by simp, htable⟩) ?_
  rw [Csv.head?_bytes_of_write hwrite (by decide) (by decide), bytes_eq]
  decide

/-- The table of outcomes has their header, and one row for each of them. -/
theorem split_bytes_of_write [NumberText α] {model : Model α} {mode : OutputMode}
    {outcomes : List (Outcome α)} {text : String} (hwrite : write model mode outcomes = .ok text) :
    Csv.split (bytes text) =
      (header model mode :: outcomes.map (row model mode)).map (·.map bytes) := by
  refine split_bytes_of_write_ids hwrite fun cells hcells => ?_
  rcases List.mem_map.mp hcells with ⟨outcome, -, rfl⟩
  simp [row]

/-- The rows of a result table start with the title of the decision makers and with their numbers. -/
theorem map_head?_rows [NumberText α] (model : Model α) (mode : OutputMode)
    (outcomes : List (Outcome α)) :
    (header model mode :: outcomes.map (row model mode)).map List.head? =
      some "decision_maker_id" :: outcomes.map fun outcome => some (toString outcome.id.toNat) := by
  rw [List.map_cons, List.map_map]
  rfl

/-- The row of an outcome has the columns of the header when its probabilities, if it has to have
some, are those of the alternatives. -/
theorem length_row [NumberText α] {model : Model α} {mode : OutputMode} {outcome : Outcome α}
    (h : mode.hasProbabilities = true →
      ∀ probabilities ∈ outcome.probabilities, probabilities.size = model.size) :
    (row model mode outcome).length = (header model mode).length := by
  have hcells (hmode : mode.hasProbabilities = true) :
      (probabilityCells model outcome).length = model.size := by
    rw [probabilityCells]
    cases hprobabilities : outcome.probabilities with
    | none => simp
    | some probabilities => simpa using h hmode probabilities hprobabilities
  have hlast : (if mode.hasProbabilities then probabilityCells model outcome else []).length =
      if mode.hasProbabilities then model.size else 0 := by
    split_ifs with hmode
    · exact hcells hmode
    · rfl
  rw [length_header, row, List.length_append, List.length_append, List.length_append, hlast]
  cases mode.hasChoice <;> cases mode.hasLogsum <;> rfl

/-- Outcomes can be written when their probabilities are those of the alternatives. -/
theorem exists_write_eq_ok [NumberText α] {model : Model α} {mode : OutputMode}
    {outcomes : List (Outcome α)} (h : mode.hasProbabilities = true → ∀ outcome ∈ outcomes,
      ∀ probabilities ∈ outcome.probabilities, probabilities.size = model.size) :
    ∃ text, write model mode outcomes = .ok text := by
  have hrows : (outcomes.map (row model mode)).all (·.length == (header model mode).length) := by
    rw [List.all_map, List.all_eq_true]
    exact fun outcome houtcome => beq_iff_eq.mpr (length_row fun hmode => h hmode outcome houtcome)
  exact ⟨_, by rw [write, Csv.write, if_pos hrows]⟩

/-- Failures can be written. -/
theorem exists_writeFailures_eq_ok (failures : List Failure) :
    ∃ text, writeFailures failures = .ok text := by
  cases failures with
  | nil => exact ⟨_, rfl⟩
  | cons failure failures =>
    have hrows : ((failure :: failures).map fun failure =>
        [toString failure.id.toNat, failure.model, failure.message]).all
          (·.length == ["decision_maker_id", "model", "message"].length) := by simp
    exact ⟨_, by rw [writeFailures, Csv.write, if_pos hrows]; simp⟩

/-- The rows of failures, below their header when there are some. -/
def failureRows (failures : List Failure) : List (List String) :=
  match failures with
  | [] => []
  | _ => ["decision_maker_id", "model", "message"] ::
      failures.map fun failure => [toString failure.id.toNat, failure.model, failure.message]

/-- The table of failures has one row for each of them. -/
theorem split_bytes_of_writeFailures {failures : List Failure} {text : String}
    (hwrite : writeFailures failures = .ok text) :
    Csv.split (bytes text) = (failureRows failures).map (·.map bytes) := by
  cases failures with
  | nil =>
    rcases Except.ok.inj hwrite with rfl
    exact Csv.split_bytes_of_write hwrite nofun (by simp)
  | cons failure failures => exact split_bytes_of_write_ids hwrite (by simp)

end ResultTable
end DiscreteChoice
