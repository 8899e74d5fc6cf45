/-!
# Paths

The directory of a file, and a path as seen from a directory.

Main results:

- Theorem `join_absolute`: a path from the root does not depend on the directory.
-/

namespace DiscreteChoice
namespace Path

/-- Whether a path starts at the root. -/
def isAbsolute (path : String) : Bool :=
  path.toList.head? = some '/'

/-- The characters of a path, last first, without separators and references to the same directory
at its end. -/
def trimEnd : List Char → List Char
  | '/' :: rest => trimEnd rest
  | '.' :: '/' :: rest => trimEnd ('/' :: rest)
  | cs => cs

/-- The directory of a file, empty when the path is a name alone. -/
def parent (path : String) : String :=
  let behind := path.toList.reverse
  if behind.contains '/' then
    let directory := trimEnd (behind.dropWhile (· ≠ '/'))
    if directory.isEmpty then "/" else String.ofList directory.reverse
  else ""

/-- A path as seen from a directory. -/
def join (directory path : String) : String :=
  if isAbsolute path || directory.isEmpty then path
  else if directory.toList.getLast? = some '/' then directory ++ path
  else directory ++ "/" ++ path

/-- A path from the root does not depend on the directory. -/
theorem join_absolute {path : String} (h : isAbsolute path = true) (directory : String) :
    join directory path = path := by
  simp [join, h]

end Path
end DiscreteChoice
