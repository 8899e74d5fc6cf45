import DiscreteChoice.CommandLine

/-!
# The program

The command line on the files of the system.
-/

namespace DiscreteChoice

/-- The reason for which the system refuses a file. -/
def FileError.ofSystem : IO.Error → FileError
  | .noFileOrDirectory _ _ _ => .notFound
  | .inappropriateType _ code details =>
    if code = 20 then .notDirectory else if code = 21 then .isDirectory else .other details
  | .invalidArgument _ 36 _ => .nameTooLong
  | e => .other (toString e)

instance : FileAccess IO where
  read path := do
    try return .ok (← IO.FS.readBinFile path)
    catch e => return .error (.ofSystem e)
  write path contents := do
    try
      IO.FS.writeFile path contents
      return .ok ()
    catch e => return .error (.ofSystem e)

end DiscreteChoice

/-- Does what the command line says. -/
def main (arguments : List String) : IO UInt32 := do
  let ending ← DiscreteChoice.CommandLine.run arguments
  match ending with
  | .information => IO.print DiscreteChoice.CommandLine.Exit.usage
  | _ => IO.eprint ending.text
  return ending.code
