import DiscreteChoice.Format.Toml.Reader
import DiscreteChoice.Format.Json
import DiscreteChoice.Input.MatrixTable
import DiscreteChoice.Input.ZoneTable
import DiscreteChoice.Model.Reading
import DiscreteChoice.Output.ResultTable
import DiscreteChoice.Run.Config

/-!
# Runs

A run reads its configuration, compiles the model, reads the data and the population, works on the
population, and writes the results and the failures. The files are those of any place that gives
access to files.

Main results:

- Theorem `dialect?_eq_none_iff`: which files are no configuration files.
-/

namespace DiscreteChoice
namespace Run

variable {m : Type → Type} [Monad m] [FileAccess m]

/-- An error or a value as the outcome of a computation. -/
def liftExcept {ε β : Type} (x : Except ε β) : ExceptT ε m β :=
  ExceptT.mk (pure x)

/-! ## Configuration files -/

/-- The format that the name of a file stands for. -/
def dialect? (file : String) : Option Decode.Dialect :=
  if ".toml".toList.isSuffixOf file.toList then some .toml
  else if ".json".toList.isSuffixOf file.toList then some .json
  else none

/-- A configuration file is one whose name ends in one of two ways. -/
theorem dialect?_eq_none_iff (file : String) :
    dialect? file = none ↔
      ¬ ".toml".toList <:+ file.toList ∧ ¬ ".json".toList <:+ file.toList := by
  simp only [dialect?, List.isSuffixOf_iff_suffix]
  split <;> simp_all

/-- The document of a text. -/
def document? (text : String) : Decode.Dialect → Option Document
  | .toml => Toml.parse? text
  | .json => Json.parse? text

/-- What the bytes of a configuration file hold. -/
def decodeConfig {β : Type} (file : String) (dialect : Decode.Dialect)
    (ofDocument? : Decode.Dialect → Document → Option β) (bytes : ByteArray) :
    Except RunError β :=
  match String.fromUTF8? bytes with
  | none => .error (.configuration (.unreadable file "stream did not contain valid UTF-8"))
  | some text =>
    match (document? text dialect).bind (ofDocument? dialect) with
    | none => .error (.configuration (.undecodable file))
    | some config => .ok config

/-- Reads a configuration file. -/
def readConfig {β : Type} (file : String) (ofDocument? : Decode.Dialect → Document → Option β) :
    ExceptT RunError m β :=
  match dialect? file with
  | none => throw (.configuration (.unsupportedType file))
  | some dialect => do
    match ← FileAccess.read file with
    | .error e => throw (.configuration (.unreadable file e.message))
    | .ok bytes => liftExcept (decodeConfig file dialect ofDocument? bytes)

/-- Reads the configuration of a run. Its files are as seen from the directory of the file. -/
def loadConfig (file : String) : ExceptT RunError m RunConfig := do
  let config ← readConfig file RunConfig.ofDocument?
  if config.batchSize = 0 then throw (.configuration (.emptyBatches file))
  else return config.resolvePaths (Path.parent file)

/-- Reads and compiles a model. -/
def loadModel (file : String) : ExceptT RunError m (Model Float) := do
  let config ← readConfig file ModelConfig.ofDocument?
  liftExcept ((Model.compile config).mapError .compile)

/-! ## Tables -/

/-- Reads a table. A directory can be opened as a table but not read. -/
def readTable {β : Type} (file : String) (ofBytes : ByteArray → Except RunError β) :
    ExceptT RunError m β := do
  match ← FileAccess.read file with
  | .error .isDirectory => throw (.table .unreadable)
  | .error e => throw (.file e)
  | .ok bytes => liftExcept (ofBytes bytes)

/-- Writes a table. -/
def writeTable (file : String) (text : Except Csv.Fault String) : ExceptT RunError m Unit := do
  let text ← liftExcept (text.mapError .table)
  match ← FileAccess.write file text with
  | .error e => throw (.file e)
  | .ok () => return ()

/-! ## Runs -/

/-- What a run works on. -/
structure Inputs where
  model : Model Float
  data : ModelData Float
  people : List (DecisionMaker Float)

/-- Reads a table that may be left out. -/
def readOptional {β : Type} (absent : β) (ofBytes : String → ByteArray → Except RunError β) :
    Option String → ExceptT RunError m β
  | none => return absent
  | some file => readTable file (ofBytes file)

/-- Reads the model, then the matrices, the zones and the population. -/
def loadInputs (config : RunConfig) : ExceptT RunError m Inputs := do
  let model ← loadModel config.modelFile
  let matrices ← readOptional .empty (fun _ => MatrixTable.read) config.matricesFile
  let zones ← readOptional .empty ZoneTable.read config.zonesFile
  let people ← readTable config.populationFile (Population.read config.populationFile)
  return ⟨model, ⟨matrices, zones⟩, people⟩

/-- Works on the population. -/
def decideAll (config : RunConfig) (cancelled : Nat → Bool) (inputs : Inputs) :
    Logged (LogEntry Float) (Report Float) :=
  Batch.run (Chooser.seeded inputs.model config.seed config.traced) inputs.data config.batchOptions
    cancelled inputs.people

/-- Writes the results, and then the failures if there is a file for them. Failures that are not
written are to be logged. -/
def writeOutputs (config : RunConfig) (model : Model Float) (report : Report Float) :
    ExceptT RunError m (List (LogEntry Float)) := do
  writeTable config.outputFile (ResultTable.write model config.mode report.outcomes)
  match config.failuresFile with
  | some file =>
    writeTable file (ResultTable.writeFailures report.failures)
    return []
  | none =>
    if report.failures.isEmpty then return []
    else return [.warning (.unrecordedFailures report.failures.length)]

/-- Runs a configuration. The chunks at whose numbers the work has been cancelled are skipped. What
was logged stays logged when the outputs cannot be written. -/
def run (config : RunConfig) (cancelled : Nat → Bool) :
    m (Logged (LogEntry Float) (Except RunError (Report Float))) := do
  match ← (loadInputs config).run with
  | .error e => return pure (.error e)
  | .ok inputs =>
    let ⟨report, log⟩ := decideAll config cancelled inputs
    match ← (writeOutputs config inputs.model report).run with
    | .error e => return ⟨.error e, log⟩
    | .ok entries => return ⟨.ok report, log ++ entries⟩

end Run
end DiscreteChoice
