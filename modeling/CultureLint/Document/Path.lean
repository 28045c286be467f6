import CultureLint.Text.Search

/-! The parts of a path, which are separated by slashes. -/

namespace CultureLint.Path

/-- What stands between the slashes. -/
def pieces (path : String) : List String := (Text.pieces '/' path.toList).map String.ofList

/-- The parts of a path that lead somewhere: an empty part and a `.` do not. -/
def parts (path : String) : List String :=
  (pieces path).filter fun part => part != "" && part != "."

/-- The name of the file that a path leads to; a path that ends on the way up has none. -/
def fileName? (path : String) : Option String :=
  ((parts path).getLast?).filter (· != "..")

/-- What stands behind the last point of a file name, unless nothing stands before that point. -/
def extensionOf? (name : String) : Option String :=
  let ending := name.toList.reverse.takeWhile (· != '.')
  if ending.length + 1 < name.length then some (String.ofList ending.reverse) else none

def extension? (path : String) : Option String := (fileName? path).bind extensionOf?

end CultureLint.Path
