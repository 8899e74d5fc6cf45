import DiscreteChoice.Batch
import DiscreteChoice.Format.Decode
import DiscreteChoice.Run.Path

/-!
# Run configurations

The inputs, the outputs and the execution of a run. File names are as seen from the directory of the
configuration file until they are resolved.

Main results:

- Theorem `RunConfig.resolvePaths_of_isAbsolute`: a configuration whose files are given from the root
  is the same one in every directory.
-/

namespace DiscreteChoice

/-- The inputs, the outputs and the execution of a run. -/
structure RunConfig where
  modelFile : String
  populationFile : String
  matricesFile : Option String
  zonesFile : Option String
  outputFile : String
  failuresFile : Option String
  mode : OutputMode
  seed : UInt64
  /-- How many chunks are worked on at the same time, as many as there are processors when it is
  not given. -/
  parallelism : Option Nat
  batchSize : Nat
  /-- The decision makers whose utilities are traced. -/
  traced : List DecisionMakerId
  showProgress : Bool
deriving Repr, DecidableEq

namespace RunConfig

open Decode

/-- How many decision makers make up a chunk when nothing else is said. -/
def defaultBatchSize : Nat := 1000

/-- The names of the fields in their order. -/
def fieldNames : List String :=
  ["model_spec_file", "population_file", "matrices_file", "zones_file", "output_file",
    "failures_file", "output_mode", "seed", "parallelism", "batch_size", "trace_decision_makers",
    "show_progress"]

/-- The configuration that a document holds. -/
def ofDocument? (dialect : Dialect) (d : Document) : Option RunConfig := do
  match ← fields? dialect fieldNames d with
  | [model, population, matrices, zones, output, failures, mode, seed, parallelism, batchSize,
      traced, showProgress] =>
    return {
      modelFile := ← required? text? model
      populationFile := ← required? text? population
      matricesFile := ← optional? text? matrices
      zonesFile := ← optional? text? zones
      outputFile := ← required? text? output
      failuresFile := ← optional? text? failures
      mode := ← withDefault? .choice (word? dialect OutputMode.ofName?) mode
      seed := ← withDefault? 0 word64? seed
      parallelism := ← withDefault? none (fun count => (below? UInt64.size count).map some) parallelism
      batchSize := ← withDefault? defaultBatchSize (below? UInt64.size) batchSize
      traced := ← withDefault? [] (list? word64?) traced
      showProgress := ← withDefault? false bool? showProgress }
  | _ => none

/-- The configuration with its files as seen from a directory. -/
def resolvePaths (config : RunConfig) (directory : String) : RunConfig :=
  { config with
    modelFile := Path.join directory config.modelFile
    populationFile := Path.join directory config.populationFile
    matricesFile := config.matricesFile.map (Path.join directory)
    zonesFile := config.zonesFile.map (Path.join directory)
    outputFile := Path.join directory config.outputFile
    failuresFile := config.failuresFile.map (Path.join directory) }

/-- How the population is worked on. -/
def batchOptions (config : RunConfig) : BatchOptions :=
  ⟨config.mode, config.batchSize, config.parallelism, config.showProgress⟩

/-- The files that a configuration names. -/
def files (config : RunConfig) : List String :=
  [config.modelFile, config.populationFile, config.outputFile] ++ config.matricesFile.toList ++
    config.zonesFile.toList ++ config.failuresFile.toList

/-- A configuration whose files are given from the root is the same one in every directory. -/
theorem resolvePaths_of_isAbsolute {config : RunConfig}
    (h : ∀ file ∈ config.files, Path.isAbsolute file = true) (directory : String) :
    config.resolvePaths directory = config := by
  have hfile (file : String) (hmem : file ∈ config.files) : Path.join directory file = file :=
    Path.join_absolute (h file hmem) directory
  have hoptional (file? : Option String) (hmem : ∀ file ∈ file?, file ∈ config.files) :
      file?.map (Path.join directory) = file? := by
    cases file? with
    | none => rfl
    | some file => exact congrArg some (hfile file (hmem file rfl))
  rw [resolvePaths, hfile config.modelFile (by simp [files]),
    hfile config.populationFile (by simp [files]), hfile config.outputFile (by simp [files]),
    hoptional config.matricesFile (by simp +contextual [files]),
    hoptional config.zonesFile (by simp +contextual [files]),
    hoptional config.failuresFile (by simp +contextual [files])]

end RunConfig
end DiscreteChoice
