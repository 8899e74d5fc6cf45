import DiscreteChoice.Run.Path
import DiscreteChoice.Text.Integer
import Std.Data.TreeMap

/-!
# Files

What the program needs of files, and a store of files in memory that gives it. A path that starts with
a separator is walked from the root of the store, any other from its working directory.

Main results:

- Theorem `FileStore.contents?_put`: a new file replaces the one of its path only.
-/

namespace DiscreteChoice

/-- Why a file cannot be read or written. -/
inductive FileError where
  | notFound
  | notDirectory
  | isDirectory
  | nameTooLong
  | nameWithNul
  | other (text : String)
deriving Repr, DecidableEq

/-- The description of an error. -/
def FileError.message : FileError → String
  | notFound => "No such file or directory (os error 2)"
  | notDirectory => "Not a directory (os error 20)"
  | isDirectory => "Is a directory (os error 21)"
  | nameTooLong => "File name too long (os error 36)"
  | nameWithNul => "file name contained an unexpected NUL byte"
  | other text => text

/-- Computations that can read and write files. -/
class FileAccess (m : Type → Type) where
  /-- The contents of a file. -/
  read : String → m (Except FileError ByteArray)
  /-- Makes a file with the given contents, in place of the one that is there. -/
  write : String → String → m (Except FileError Unit)

instance {ε : Type} {m : Type → Type} [Monad m] [FileAccess m] : FileAccess (ExceptT ε m) where
  read path := ExceptT.lift (FileAccess.read path)
  write path contents := ExceptT.lift (FileAccess.write path contents)

/-- Files by the names on the way to them from the root. A directory is there when it holds a file or
the working directory. -/
structure FileStore where
  files : Std.TreeMap (List String) ByteArray
  /-- The names on the way to the working directory. -/
  directory : List String

namespace FileStore

/-- No files, and the root as the working directory. -/
def empty : FileStore :=
  ⟨∅, []⟩

/-- The contents of the file at a path. -/
def contents? (store : FileStore) (path : List String) : Option ByteArray :=
  store.files[path]?

/-- Sets the contents of the file at a path. -/
def put (store : FileStore) (path : List String) (contents : ByteArray) : FileStore :=
  { store with files := store.files.insert path contents }

/-- Whether a path is that of a directory. -/
def isDirectory (store : FileStore) (path : List String) : Bool :=
  path.isPrefixOf store.directory ||
    store.files.keys.any fun file => path.isPrefixOf file && path.length < file.length

/-- A new file replaces the one of its path only. -/
@[simp] theorem contents?_put (store : FileStore) (path other : List String)
    (contents : ByteArray) :
    (store.put path contents).contents? other =
      if path = other then some contents else store.contents? other := by
  simp [put, contents?, Std.TreeMap.getElem?_insert]

/-- The parts of a path between its separators. -/
def parts (path : String) : List String :=
  (path.toList.splitOn '/').map String.ofList

/-- The names on a path. -/
def names (path : String) : List String :=
  (parts path).filter fun name => name ≠ "" ∧ name ≠ "."

/-- Whether a path can only be that of a directory. -/
def namesDirectory (path : String) : Bool :=
  match (parts path).getLast? with
  | some name => name = "" || name = "."
  | none => false

/-- Whether a path goes on behind its last name, in the directory of that name. -/
def entersLast (path : String) : Bool :=
  ((parts path).reverse.takeWhile fun name => name = "" || name = ".").contains "."

/-- Where a name leads from a directory. Above the root there is the root. -/
def below (directory : List String) (name : String) : List String :=
  if name = ".." then directory.dropLast else directory ++ [name]

/-- Walks names from a directory. All but the last one have to be directories, and the last one too
when the path enters it. -/
def walk (store : FileStore) (enters : Bool) :
    List String → List String → Except FileError (List String)
  | directory, [] => .ok directory
  | directory, name :: rest =>
    if 255 < name.utf8ByteSize then .error .nameTooLong
    else if (rest.isEmpty && !enters) || store.isDirectory (below directory name) then
      walk store enters (below directory name) rest
    else if (store.contents? (below directory name)).isSome then .error .notDirectory
    else .error .notFound

/-- Where the walk of a path starts. -/
def start (store : FileStore) (path : String) : List String :=
  if Path.isAbsolute path then [] else store.directory

/-- Where a path leads. -/
def locate (store : FileStore) (path : String) : Except FileError (List String) :=
  if path.toList.contains '\x00' then .error .nameWithNul
  else if path.isEmpty then .error .notFound
  else if 4096 ≤ path.utf8ByteSize then .error .nameTooLong
  else walk store (entersLast path) (store.start path) (names path)

/-- The contents of the file that a path leads to. -/
def read (store : FileStore) (path : String) : Except FileError ByteArray := do
  let location ← store.locate path
  if store.isDirectory location then .error .isDirectory
  else
    match store.contents? location with
    | none => .error .notFound
    | some contents => if namesDirectory path then .error .notDirectory else .ok contents

/-- The store with a file at the place that a path leads to. -/
def write (store : FileStore) (path : String) (contents : String) : Except FileError FileStore := do
  let location ← store.locate path
  if store.isDirectory location || namesDirectory path then .error .isDirectory
  else .ok (store.put location contents.toUTF8)

end FileStore

instance : FileAccess (StateM FileStore) where
  read path := do
    let store ← get
    return store.read path
  write path contents := do
    let store ← get
    match store.write path contents with
    | .error e => return .error e
    | .ok store =>
      set store
      return .ok ()

end DiscreteChoice
