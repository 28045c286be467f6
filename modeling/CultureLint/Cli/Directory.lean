import CultureLint.Document.Path

/-! Files in a directory, as a command sees them through the paths it is given. -/

namespace CultureLint.Cli

/-- Why a file cannot be read. -/
inductive ReadFailure
  | notFound
  | notADirectory
  | isADirectory
  | nameTooLong
  | other (reason : String)
deriving DecidableEq, Repr

namespace ReadFailure

def reason : ReadFailure → String
  | .notFound => "No such file or directory (os error 2)"
  | .notADirectory => "Not a directory (os error 20)"
  | .isADirectory => "Is a directory (os error 21)"
  | .nameTooLong => "File name too long (os error 36)"
  | .other reason => reason

def message (path : String) (failure : ReadFailure) : String :=
  "failed to read " ++ path ++ ": " ++ failure.reason

end ReadFailure

/-- The files of a directory and of those inside it, by the parts of their paths. -/
structure Directory where
  files : List (List String × String)
deriving DecidableEq, Repr

namespace Directory

/-- A directory with the given files; of two files with one path the later one is there. -/
def ofFiles (files : List (String × String)) : Directory :=
  ⟨(files.map fun (path, text) => (Path.parts path, text)).reverse⟩

variable (d : Directory)

/-- The text of the file at a place. -/
def file? (place : List String) : Option String := d.files.lookup place

/-- Whether there are files below a place. -/
def isDirectory (place : List String) : Bool :=
  place.isEmpty || d.files.any fun (other, _) => place.isPrefixOf other && place != other

/-- The most bytes that one part of a path has. -/
def maxPartSize : Nat := 255

/-- The most bytes that a path has. -/
def maxPathSize : Nat := 4095

/-- Follows the parts of a path from a place on. A way out of the directory leads nowhere. -/
def follow (place : List String) : List String → Except ReadFailure (List String)
  | [] => .ok place
  | part :: rest =>
    if (d.file? place).isSome then .error .notADirectory
    else if part = ".." then
      if place.isEmpty then .error .notFound else follow place.dropLast rest
    else if maxPartSize < part.utf8ByteSize then .error .nameTooLong
    else
      let next := place ++ [part]
      if (d.file? next).isSome || d.isDirectory next then follow next rest else .error .notFound

/-- Whether a path can lead to a directory only. -/
def wantsDirectory (path : String) : Bool :=
  (Path.pieces path).getLast?.any fun piece => piece = "" || piece = "."

/-- The place that a path leads to. -/
def locate (path : String) : Except ReadFailure (List String) :=
  if maxPathSize < path.utf8ByteSize then .error .nameTooLong
  else if path.toList.head? = some '/' then .error .notFound
  else d.follow [] (Path.parts path)

/-- The text of the file that a path leads to. -/
def read (path : String) : Except ReadFailure String := do
  match d.file? (← d.locate path) with
  | none => .error .isADirectory
  | some text => if wantsDirectory path then .error .notADirectory else return text

/-- The directory with another text in the file that a path leads to. -/
def write (path text : String) : Directory :=
  match d.locate path with
  | .ok place => ⟨(place, text) :: d.files⟩
  | .error _ => d

end Directory

end CultureLint.Cli
