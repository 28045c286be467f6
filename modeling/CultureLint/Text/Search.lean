/-! Finding and replacing one piece of text in another. -/

namespace CultureLint.Text

/-- Whether a piece stands somewhere in a text. -/
def hasPiece (piece : List Char) : List Char → Bool
  | [] => piece.isEmpty
  | c :: cs => piece.isPrefixOf (c :: cs) || hasPiece piece cs

/-- Replaces every piece of a text from left to right, behind some characters that are left out. -/
def replaceFrom (piece replacement : List Char) : Nat → List Char → List Char
  | _, [] => []
  | skipped + 1, _ :: cs => replaceFrom piece replacement skipped cs
  | 0, c :: cs =>
    if piece.isPrefixOf (c :: cs) then
      replacement ++ replaceFrom piece replacement (piece.length - 1) cs
    else c :: replaceFrom piece replacement 0 cs

/-- Replaces every occurrence of a piece, which is not empty, from left to right. -/
def replaceAll (piece replacement text : String) : String :=
  String.ofList (replaceFrom piece.toList replacement.toList 0 text.toList)

/-- What stands between the places where a character is. -/
def pieces (separator : Char) : List Char → List (List Char)
  | [] => [[]]
  | c :: cs =>
    match pieces separator cs with
    | [] => [[c]]
    | first :: rest => if c = separator then [] :: first :: rest else (c :: first) :: rest

/-- A line without the carriage return at its end. -/
def dropReturn (line : List Char) : List Char :=
  if line.getLast? = some '\r' then line.dropLast else line

/-- The lines that a text is printed as, without their ends. -/
def printedLines (text : String) : List String :=
  (pieces '\n' text.toList).map fun line => String.ofList (dropReturn line)

end CultureLint.Text
