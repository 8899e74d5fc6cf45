import DiscreteChoice.Run.Basic

/-!
# The command line

There are two commands. `run` works on the population of a configuration file, with another output
mode or another seed if they are given; `validate` compiles a model. An option is written as
`--name value` or as `--name=value`, at most once.

Main results:

- Theorem `Exit.code_eq_zero_iff`: when the program reports success.
-/

namespace DiscreteChoice
namespace CommandLine

/-- What the program is asked to do. -/
inductive Command where
  | run (configuration : String) (mode : Option OutputMode) (seed : Option UInt64)
  | validate (modelFile : String)
deriving Repr, DecidableEq

/-- What a command line says. -/
inductive Request (κ : Type) where
  | execute (command : κ)
  /-- A question about the program itself. -/
  | information
  | misuse
deriving Repr, DecidableEq

/-! ## Options -/

/-- An option of a command and the values that it takes. -/
structure Setting where
  name : String
  admits : String → Bool

/-- The options that have been given, with their values. -/
abbrev Settings := List (String × String)

/-- The shape of an argument. -/
inductive Shape where
  /-- Two dashes alone, behind which there are no options. -/
  | terminator
  | long (name : String) (value : Option String)
  | short (flag : Char)
  | plain
deriving Repr, DecidableEq

/-- The shape of an argument. A dash alone is a plain argument. -/
def Shape.ofArgument (argument : String) : Shape :=
  match argument.toList with
  | ['-', '-'] => terminator
  | '-' :: '-' :: cs =>
    let name := String.ofList (cs.takeWhile (· ≠ '='))
    match cs.dropWhile (· ≠ '=') with
    | _ :: value => long name (some (String.ofList value))
    | [] => long name none
  | '-' :: flag :: _ => short flag
  | _ => plain

/-- Whether an argument is a question about the program itself. -/
def asksForInformation (shape : Shape) : Bool :=
  shape = .long "help" none || shape = .long "version" none || shape = .short 'h' ||
    shape = .short 'V'

/-- The options given so far and one more, unless it has been given before or does not take the
value. -/
def give? (known : List Setting) (given : Settings) (name value : String) : Option Settings :=
  if (given.lookup name).isSome then none
  else if known.any fun setting => setting.name = name && setting.admits value then
    some (given ++ [(name, value)])
  else none

/-- Reads the options of a command behind those that have been given. -/
def settingsFrom (known : List Setting) (given : Settings) : List String → Request Settings
  | [] => .execute given
  | argument :: arguments =>
    let shape := Shape.ofArgument argument
    if asksForInformation shape then .information
    else
      match shape, arguments with
      | .terminator, [] => .execute given
      | .long name (some value), arguments =>
        match give? known given name value with
        | some given => settingsFrom known given arguments
        | none => .misuse
      | .long name none, value :: arguments =>
        if Shape.ofArgument value = .plain then
          match give? known given name value with
          | some given => settingsFrom known given arguments
          | none => .misuse
        else .misuse
      | _, _ => .misuse

/-! ## Commands -/

/-- The seed that a text stands for. -/
def seed? (text : String) : Option UInt64 :=
  (Text.word64 text).toOption

/-- The options of `run`. -/
def runSettings : List Setting :=
  [⟨"configuration-file", fun _ => true⟩,
    ⟨"output-mode", fun value => (OutputMode.ofName? value).isSome⟩,
    ⟨"seed", fun value => (seed? value).isSome⟩]

/-- The options of `validate`. -/
def validateSettings : List Setting :=
  [⟨"model-spec-file", fun _ => true⟩]

/-- The command `run` with the given options. Its configuration file has to be among them. -/
def runCommand? (given : Settings) : Option Command := do
  let configuration ← given.lookup "configuration-file"
  return .run configuration ((given.lookup "output-mode").bind OutputMode.ofName?)
    ((given.lookup "seed").bind seed?)

/-- The command `validate` with the given options. Its model has to be among them. -/
def validateCommand? (given : Settings) : Option Command :=
  (given.lookup "model-spec-file").map .validate

namespace Request

/-- Makes a command of options. -/
def complete (command? : Settings → Option Command) : Request Settings → Request Command
  | execute given =>
    match command? given with
    | some command => execute command
    | none => misuse
  | information => information
  | misuse => misuse

/-- What a command line says. -/
def ofArguments : List String → Request Command
  | [] => misuse
  | "run" :: arguments => complete runCommand? (settingsFrom runSettings [] arguments)
  | "validate" :: arguments =>
    complete validateCommand? (settingsFrom validateSettings [] arguments)
  | "help" :: arguments =>
    if arguments ∈ [[], ["run"], ["validate"], ["help"]] then information else misuse
  | argument :: _ => if asksForInformation (Shape.ofArgument argument) then information else misuse

end Request

/-! ## Execution -/

/-- How the program ends. -/
inductive Exit where
  | finished (results failures : Nat)
  | valid (model : String) (alternatives : Nat)
  | failed (error : RunError)
  | information
  | misuse
deriving Repr

namespace Exit

/-- The exit code. -/
def code : Exit → UInt32
  | finished _ _ | valid _ _ | information => 0
  | failed _ => 1
  | misuse => 2

/-- The program reports success unless it failed or was not used properly. -/
theorem code_eq_zero_iff (exit : Exit) :
    exit.code = 0 ↔ exit ≠ .misuse ∧ ∀ error, exit ≠ .failed error := by
  cases exit <;> simp [code]

/-- How the program is used. -/
def usage : String :=
  "usage: discrete-choice run --configuration-file FILE [--output-mode MODE] [--seed SEED]\n" ++
    "       discrete-choice validate --model-spec-file FILE\n"

/-- What the program says when it ends, as a text for the standard error. -/
def text : Exit → String
  | finished results failures => s!"finished. {results} results, {failures} failures.\n"
  | valid model alternatives => s!"model '{model}' is valid with {alternatives} alternatives.\n"
  | failed error => error.message ++ "\n"
  | information => ""
  | misuse => usage

end Exit

variable {m : Type → Type} [Monad m] [FileAccess m]

/-- The configuration with the output mode and the seed of a command line. -/
def override (config : RunConfig) (mode : Option OutputMode) (seed : Option UInt64) : RunConfig :=
  { config with mode := mode.getD config.mode, seed := seed.getD config.seed }

/-- Executes a command. -/
def Command.execute : Command → m Exit
  | run configuration mode seed => do
    match ← (Run.loadConfig configuration).run with
    | .error e => return .failed e
    | .ok config =>
      match (← Run.run (override config mode seed) fun _ => false).value with
      | .error e => return .failed e
      | .ok report => return .finished report.outcomes.length report.failures.length
  | validate file => do
    match ← (Run.loadModel file).run with
    | .error e => return .failed e
    | .ok model => return .valid model.name model.size

/-- Does what a command line says. -/
def run (arguments : List String) : m Exit :=
  match Request.ofArguments arguments with
  | .execute command => command.execute
  | .information => return .information
  | .misuse => return .misuse

end CommandLine
end DiscreteChoice
