import DiscreteChoice.Choice.Chooser

/-!
# Batches

The decisions of a population. The population is cut into chunks, and no chunk is started once the
work has been cancelled. A decision that fails does not stop the others.
-/

namespace DiscreteChoice

/-- A decision maker without an outcome. -/
structure Failure where
  id : DecisionMakerId
  model : String
  message : String
deriving Repr, DecidableEq

/-- What came of a population. -/
structure Report (α : Type) where
  outcomes : List (Outcome α)
  failures : List Failure
  /-- How many decision makers were in chunks that were not started. -/
  skipped : Nat
deriving Repr

namespace Report

variable {α : Type}

/-- Nothing was done. -/
def empty : Report α :=
  ⟨[], [], 0⟩

/-- Whether no decision maker was left out. -/
def isComplete (report : Report α) : Bool :=
  report.skipped == 0

/-- How many decision makers have an outcome or a failure. -/
def processed (report : Report α) : Nat :=
  report.outcomes.length + report.failures.length

/-- Adds what came of one decision maker. -/
def add (report : Report α) : Except Failure (Outcome α) → Report α
  | .ok outcome => { report with outcomes := report.outcomes ++ [outcome] }
  | .error failure => { report with failures := report.failures ++ [failure] }

/-- Puts a report behind another. -/
def append (first second : Report α) : Report α :=
  ⟨first.outcomes ++ second.outcomes, first.failures ++ second.failures,
    first.skipped + second.skipped⟩

/-- The report of a chunk that was worked on. -/
def ofResults (results : List (Except Failure (Outcome α))) : Report α where
  outcomes := results.filterMap Except.toOption
  failures := results.filterMap fun result =>
    match result with
    | .ok _ => none
    | .error failure => some failure
  skipped := 0

end Report

/-- How a batch is worked on. -/
structure BatchOptions where
  mode : OutputMode
  /-- How many decision makers make up a chunk. -/
  batchSize : Nat
  /-- How many chunks are worked on at the same time, as many as there are processors when it is
  not given. -/
  parallelism : Option Nat
  showProgress : Bool
deriving Repr, DecidableEq

namespace Batch

/-- Cuts a list into chunks of a size, of which the last one may be smaller. -/
def chunks {β : Type} (size : Nat) (xs : List β) : List (List β) :=
  match xs with
  | [] => []
  | x :: rest => (x :: rest.take (size - 1)) :: chunks size (rest.drop (size - 1))
termination_by xs.length
decreasing_by simp only [List.length_drop, List.length_cons]; omega

/-- The chunks of a list make up the list. -/
theorem flatten_chunks {β : Type} (size : Nat) (xs : List β) : (chunks size xs).flatten = xs := by
  induction h : xs.length using Nat.strongRecOn generalizing xs with
  | _ n ih =>
    match xs with
    | [] => simp [chunks]
    | x :: rest =>
      rw [chunks, List.flatten_cons, ih _ _ (rest.drop (size - 1)) rfl]
      · simp
      · subst h; simp only [List.length_drop, List.length_cons]; omega

variable {α : Type} [Numeric α] [NumberText α]

/-- Works on one decision maker. A failure is logged. -/
def decide (chooser : Chooser α) (data : ModelData α) (mode : OutputMode)
    (person : DecisionMaker α) : Logged (LogEntry α) (Except Failure (Outcome α)) := do
  match ← chooser.run (chooser.model.bind person data) mode with
  | .ok outcome => return .ok outcome
  | .error e =>
    Logged.write (.warning (.decisionFailed person.id e.message))
    return .error ⟨person.id, chooser.model.name, e.message⟩

/-- Works on a chunk, unless the work has been cancelled. -/
def decideChunk (chooser : Chooser α) (data : ModelData α) (mode : OutputMode) (cancelled : Bool)
    (chunk : List (DecisionMaker α)) : Logged (LogEntry α) (Report α) :=
  if cancelled then pure { Report.empty with skipped := chunk.length }
  else do
    let results ← Logged.forAll (decide chooser data mode) chunk
    return .ofResults results

/-- Works on a population. The chunks at whose numbers the work has been cancelled are skipped. -/
def run (chooser : Chooser α) (data : ModelData α) (options : BatchOptions)
    (cancelled : Nat → Bool) (people : List (DecisionMaker α)) :
    Logged (LogEntry α) (Report α) := do
  let reports ← Logged.forAll
    (fun entry => decideChunk chooser data options.mode (cancelled entry.2) entry.1)
    (chunks options.batchSize people).zipIdx
  return reports.foldl Report.append .empty

end Batch
end DiscreteChoice
