import DiscreteChoice.CompileError
import DiscreteChoice.Data.Skim
import DiscreteChoice.Format.Csv
import DiscreteChoice.Run.FileAccess
import DiscreteChoice.Numeric.Double

/-!
# Errors of a run

Why a run stops before its results are written.
-/

namespace DiscreteChoice

/-- Why a configuration file is refused. -/
inductive ConfigFault where
  | unsupportedType (file : String)
  | unreadable (file : String) (reason : String)
  | undecodable (file : String)
  | emptyBatches (file : String)
deriving Repr, DecidableEq

/-- What is wrong with the cells of a table. -/
inductive InputFault where
  | missingColumn (name : String)
  | missingId (row : Nat)
  | badCell (row : Nat) (cell : String) (reason : Text.NumberFault)
  | badZone (row : Nat) (reason : Text.NumberFault)
  | badValue (row : Nat) (field cell : String) (reason : Text.NumberFault)
deriving Repr, DecidableEq

/-- Why a run stops. -/
inductive RunError where
  | configuration (fault : ConfigFault)
  | compile (error : CompileError Float)
  | data (fault : DataFault)
  | file (error : FileError)
  | table (fault : Csv.Fault)
  | input (file : String) (fault : InputFault)
deriving Repr

/-- The description of a fault. -/
def ConfigFault.message : ConfigFault → String
  | unsupportedType file => s!"unsupported file type: {file}"
  | unreadable file reason => s!"failure reading {file}: {reason}"
  | undecodable file => s!"failure decoding {file}"
  | emptyBatches file => s!"batch_size in {file} must be positive"

/-- The description of a fault. -/
def InputFault.message : InputFault → String
  | missingColumn name => s!"missing '{name}' column"
  | missingId row => s!"row {row}: missing id"
  | badCell row cell reason => s!"row {row}: failure parsing '{cell}': {reason.message}"
  | badZone row reason => s!"row {row}: invalid zone: {reason.message}"
  | badValue row field cell reason =>
    s!"row {row}: failure parsing '{field}' value '{cell}': {reason.message}"

/-- The description of data that is refused. -/
def DataFault.description (fault : DataFault) : String :=
  s!"invalid model data: {fault.message}"

/-- The description of an error. -/
def RunError.message : RunError → String
  | configuration fault => s!"failure reading run configuration: {fault.message}"
  | compile error => s!"failure compiling model specification: {error.message}"
  | data fault => s!"invalid model data: {fault.description}"
  | file error => s!"failure reading or writing file: {error.message}"
  | table _ => "failure reading or writing CSV"
  | input path fault => s!"invalid input in {path}: {fault.message}"

end DiscreteChoice
