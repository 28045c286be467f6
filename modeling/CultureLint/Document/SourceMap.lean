import CultureLint.Text.Blank
import CultureLint.Text.Slice
import CultureLint.Token.Basic

/-! Places in a document as people read them: file, line and column. A `#line` directive gives the
lines behind it other numbers, or another file, or hides them. -/

namespace CultureLint

/-- A line and column of a file, both counted from one. -/
structure Location where
  file : String
  line : Nat
  column : Nat
deriving DecidableEq, Repr

def Location.render (l : Location) : String :=
  l.file ++ ":" ++ toString l.line ++ ":" ++ toString l.column

/-- What a directive says about the lines behind it. -/
inductive LineMapping
  | default
  | hidden
  | renumber (first : Nat) (file : Option String)
deriving DecidableEq, Repr

namespace LineMapping

/-- The number that digits write. -/
def decimal? : List Char → Option Nat
  | [] => none
  | cs => if cs.all Char.isDigit then some (cs.foldl (fun n c => n * 10 + (c.toNat - 48)) 0) else none

/-- A line number: digits, perhaps behind a plus, for a number of at most 64 bits. -/
def lineNumber? (cs : List Char) : Option Nat :=
  let digits := match cs with
    | '+' :: digits => digits
    | digits => digits
  (decimal? digits).filter (· ≤ 0xFFFFFFFFFFFFFFFF)

/-- The file name behind a line number, without the quotes around it. -/
def fileName (cs : List Char) : String :=
  String.ofList (Text.dropAround (· == '\x22') (Text.dropAround Text.isBlank cs))

/-- Reads what stands behind `line`. -/
def ofArguments? (cs : List Char) : Option LineMapping :=
  if cs = "default".toList then some .default
  else if cs = "hidden".toList then some .hidden
  else do
    let first ← lineNumber? (cs.takeWhile fun c => !Text.isBlank c)
    match cs.dropWhile fun c => !Text.isBlank c with
    | [] => return .renumber first none
    | _ :: file => return .renumber first (some (fileName file))

/-- Reads the text of a directive; most directives are about something else. -/
def ofDirective? (text : String) : Option LineMapping :=
  if "line".toList.isPrefixOf text.toList then
    ofArguments? (Text.dropAround Text.isBlank (text.toList.drop 4))
  else none

end LineMapping

/-- A directive that maps the lines behind its own, which is counted from zero. -/
structure MappedLine where
  line : Nat
  mapping : LineMapping
deriving DecidableEq, Repr

/-- What is needed to find the place of a byte of a document. -/
structure SourceMap where
  file : String
  text : List Char
  lineStarts : List Nat
  directives : List MappedLine
deriving Repr

namespace SourceMap

/-- The offsets behind the line ends of a text that starts at an offset. -/
def startsBehind (offset : Nat) : List Char → List Nat
  | [] => []
  | c :: cs =>
    let next := offset + c.utf8Size
    if c = '\n' then next :: startsBehind next cs else startsBehind next cs

/-- The line of an offset, counted from zero, among lines that start at the given offsets. -/
def lineAmong (lineStarts : List Nat) (offset : Nat) : Nat :=
  (lineStarts.takeWhile (· ≤ offset)).length - 1

def ofText (file : String) (text : String) (directives : List Directive) : SourceMap :=
  let lineStarts := 0 :: startsBehind 0 text.toList
  { file
    text := text.toList
    lineStarts
    directives := directives.filterMap fun d =>
      (LineMapping.ofDirective? d.text).map fun mapping =>
        ⟨lineAmong lineStarts d.span.start, mapping⟩ }

variable (map : SourceMap)

/-- The line and column of a byte as they are in the document, counted from one; a column is a
character. There is none inside of a character or behind the end. -/
def position? (offset : Nat) : Option (Nat × Nat) := do
  let line := lineAmong map.lineStarts offset
  let span ← Span.ofBounds? (← map.lineStarts[line]?) offset
  let (_, inside, _) ← Text.cut? map.text span
  return (line + 1, inside.length + 1)

/-- The last directive before a line, which is counted from zero. -/
def directiveBefore? (line : Nat) : Option MappedLine :=
  map.directives.reverse.find? (·.line < line)

/-- The number of a line, which has 64 bits: counting on from the last number begins again with zero. -/
def wrapLine (line : Nat) : Nat := line % UInt64.size

/-- The place of a byte; a hidden line has none. -/
def location? (offset : Nat) : Option Location := do
  let (line, column) ← map.position? offset
  match map.directiveBefore? (line - 1) with
  | none => return ⟨map.file, line, column⟩
  | some directive =>
    match directive.mapping with
    | .default => return ⟨map.file, line, column⟩
    | .hidden => none
    | .renumber first file =>
      return ⟨file.getD map.file, wrapLine (first + (line - 1 - directive.line - 1)), column⟩

end SourceMap

end CultureLint
