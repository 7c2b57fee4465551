/-!
# Files by name

What opening a name finds: the bytes of a file, or the reason why it could not
be opened or read. A `FileTree` holds files in memory and finds them by the
rules of path names.
-/

namespace Lox

/-- A reason that the system gives for a failure. -/
structure SystemError where
  /-- Its description. -/
  text : String
  /-- Its number. -/
  code : Nat
  deriving DecidableEq, Repr

namespace SystemError

/-- Nothing has the name. -/
def notFound : SystemError := ⟨"No such file or directory", 2⟩

/-- A file stands where a directory has to be. -/
def notDirectory : SystemError := ⟨"Not a directory", 20⟩

/-- A directory stands where a file has to be. -/
def isDirectory : SystemError := ⟨"Is a directory", 21⟩

/-- The name, or one of its steps, has too many bytes. -/
def nameTooLong : SystemError := ⟨"File name too long", 36⟩

/-- The full text of a reason. -/
def message (error : SystemError) : String :=
  error.text ++ " (os error " ++ toString error.code ++ ")"

end SystemError

/-- What is found under a name, or on standard input. -/
inductive Contents where
  /-- The name could not be opened. -/
  | unopened (error : SystemError)
  /-- The name was opened but could not be read. -/
  | unread (error : SystemError)
  /-- All bytes. -/
  | bytes (bytes : List UInt8)
  deriving DecidableEq, Repr

/-- A path from the root, as the list of its steps. -/
abbrev Path := List String

/-- Files and directories by their paths. -/
structure FileTree where
  /-- The files with their bytes. -/
  files : List (Path × List UInt8)
  /-- Directories that are there whether files lie below them or not. -/
  directories : List Path
  /-- The directory from which path names start that do not start at the root. -/
  current : Path

/-- What a path leads to. -/
inductive Place where
  /-- The directory with the given path. -/
  | directory (path : Path)
  /-- A file with its bytes. -/
  | file (bytes : List UInt8)
  deriving DecidableEq, Repr

/-- The greatest number of bytes of one step of a path. -/
def maxStepBytes : Nat := 255

/-- The greatest number of bytes of a path name. -/
def maxPathBytes : Nat := 4095

namespace FileTree

/-- All paths that a tree knows of. -/
def paths (tree : FileTree) : List Path :=
  tree.current :: tree.directories ++ tree.files.map (·.1)

/-- What the given path leads to. A path on the way to a known one is that of a
directory. -/
def place? (tree : FileTree) (path : Path) : Option Place :=
  match tree.files.lookup path with
  | some bytes => some (.file bytes)
  | none => if tree.paths.any path.isPrefixOf then some (.directory path) else none

/-- One step of a path name. No step leads on from a file, not even the empty
step behind a slash at the end. -/
def step (tree : FileTree) (place : Place) (name : String) : Except SystemError Place :=
  match place with
  | .file _ => .error .notDirectory
  | .directory path =>
    if name == "" || name == "." then .ok place
    else if name == ".." then .ok (.directory path.dropLast)
    else if maxStepBytes < name.utf8ByteSize then .error .nameTooLong
    else
      match tree.place? (path ++ [name]) with
      | some next => .ok next
      | none => .error .notFound

/-- What opening a path name finds. -/
def find (tree : FileTree) (name : String) : Contents :=
  let start := if name.toList.head? == some '/' then [] else tree.current
  if maxPathBytes < name.utf8ByteSize then .unopened .nameTooLong
  else
    match (name.splitOn "/").foldlM tree.step (.directory start) with
    | .error error => .unopened error
    | .ok (.file bytes) => .bytes bytes
    | .ok (.directory _) => .unread .isDirectory

end FileTree

end Lox
