import CultureLint.Cli.Directory
import CultureLint.Cli.Options
import CultureLint.Lint.FixAll
import CultureLint.Text.LineDiff
import CultureLint.Text.Json
import CultureLint.Text.Search

/-! The check command: what it prints, which files it writes, and how it ends. -/

namespace CultureLint

open Text (JsonValue)

/-! ### Findings as JSON -/

def Span.toJson (s : Span) : JsonValue :=
  .object [("start", .number s.start), ("end", .number s.stop)]

def Location.toJson (l : Location) : JsonValue :=
  .object [("file", .string l.file), ("line", .number l.line), ("column", .number l.column)]

def Diagnostic.toJson (d : Diagnostic) : JsonValue :=
  .object [("id", .string d.rule.name), ("message", .string d.message),
    ("severity", .string d.severity.name), ("range", d.span.elim .null Span.toJson),
    ("location", d.location.elim .null Location.toJson)]

namespace Cli

/-- How a command went. -/
structure Outcome where
  exitCode : Nat := 0
  output : String := ""
  failures : List String := []
  writes : List (String × String) := []
deriving DecidableEq, Repr

/-- Whether a line is the first one of a failure's message. -/
def opensFailure (line : String) : Bool := "failed to ".toList.isPrefixOf line.toList

/-- The printed lines that name a failure. A message has several lines where its path has, and those
behind the first one do not count unless they begin as a message does. -/
def Outcome.failureLines (o : Outcome) : List String :=
  (o.failures.flatMap Text.printedLines).filter opensFailure

/-- A file by its path, and what came of reading it. -/
structure SourceFile where
  path : String
  content : Except ReadFailure String

/-- Puts the files that can be parsed into a project; nothing comes of it where one cannot be read. -/
def loadProject (references : List Reference) (files : List SourceFile) : Except String Project :=
  files.foldlM (fun p file =>
    match file.content with
    | .error failure => .error (failure.message file.path)
    | .ok text =>
      match Document.parse file.path text with
      | .ok d => .ok (p.addDocument d)
      | .error _ => .ok p) { references }

/-- A line with its end. -/
def line (text : String) : String := text ++ "\n"

/-! ### Summaries -/

/-- The line that counts the findings of a rule. -/
def statisticsLine (colors : Bool) (rule : Rule) (count : Nat) : String :=
  let code := Text.paint colors .boldRed (Text.padRight 4 rule.code)
  let mark := Text.paint colors .cyan (if rule.hasFix then "*" else " ")
  toString count ++ "    " ++ code ++ "   [" ++ mark ++ "] " ++ rule.name

/-- The sentence at the end. -/
def summary (colors : Bool) (options : CheckOptions) (count : Nat) : String :=
  if count = 0 then "No errors!"
  else if options.fix then "Fixed " ++ toString count ++ " errors."
  else if options.diff then "Would fix " ++ toString count ++ " errors."
  else
    "Found " ++ toString count ++ " errors.\n[" ++ Text.paint colors .cyan "*" ++ "] " ++
      toString count ++ " fixable with the `--fix` option."

/-- All that is printed when the findings are counted. There is one rule, and all it finds counts. -/
def closing (colors : Bool) (options : CheckOptions) (count : Nat) : String :=
  let statistics :=
    if options.statistics && count != 0 then
      line (statisticsLine colors .stringConcatConversion count)
    else ""
  match options.format with
  | .text => statistics ++ line (summary colors options count)
  | .json => ""

/-- The line that says which rules run. -/
def opening (colors : Bool) (options : CheckOptions) : String :=
  match options.format with
  | .text =>
    let codes := options.rules.map fun rule => Text.paint colors .green rule.code
    line ("Config: [" ++ ", ".intercalate codes ++ "]")
  | .json => ""

/-! ### Running -/

namespace CheckOptions

variable (colors : Bool) (o : CheckOptions)

/-- The files that are looked at: those whose names end as source files do. -/
def sources : List String := o.files.filter fun path => Path.extension? path = some "cs"

/-- How imports are added. -/
def importHost : ImportHost :=
  match o.importMode with
  | .auto => .adding
  | .never => .absent

/-- The findings of one document as they are printed. -/
def listing (d : Document) (found : List Diagnostic) : String :=
  if o.statistics || found.isEmpty then ""
  else line ("\n".intercalate (found.map (Diagnostic.render colors d.text)))

/-- Prints the findings of a project, and counts them. -/
def report (p : Project) : Run (String × Nat) := do
  let found ← p.check o.settings
  let output :=
    match o.format with
    | .text => String.join ((p.documents.zip found).map fun (d, ds) => o.listing colors d ds)
    | .json => line (JsonValue.array (found.flatten.map Diagnostic.toJson)).render
  return (output, found.flatten.length)

/-- The documents that mending changed, as they were and as they are. -/
def changedDocuments (p fixed : Project) : List (Document × Document) :=
  (p.documents.zip fixed.documents).filter fun (old, new) => old.text != new.text

/-- What changed in a document, as it is printed. -/
def difference (old new : Document) : String :=
  line ((Text.Diff.ofTexts old.text new.text).render colors (some (old.path, old.path)))

/-- Mends a project; the changes are shown or else written. -/
def mend (p : Project) : Run (Outcome × Nat) := do
  let (fixed, count) ← p.fixAll o.settings o.importHost
  let changed := changedDocuments p fixed
  if o.diff then
    return ({ output := String.join (changed.map fun (old, new) => difference colors old new) },
      count)
  else
    return ({ writes := changed.map fun (old, new) => (old.path, new.text) }, count)

/-- Shows or mends the findings of a project. -/
def work (p : Project) : Run (Outcome × Nat) := do
  if o.diff || o.fix then o.mend colors p
  else
    let (output, count) ← o.report colors p
    return ({ output }, count)

/-- Runs the command on the files that were read. -/
def runOn (files : List SourceFile) : Outcome :=
  let start := opening colors o
  let failed (message : String) : Outcome := { exitCode := 1, output := start, failures := [message] }
  match loadProject o.settings.references files with
  | .error message => failed message
  | .ok p =>
    match (Run.run' (o.work colors p) CancelToken.live).1 with
    | .error failure => failed failure.message
    | .ok (outcome, count) =>
      { outcome with output := start ++ outcome.output ++ closing colors o count }

/-- Runs the command, where something is to be looked at. -/
def run (read : String → Except ReadFailure String) : Outcome :=
  if o.sources.isEmpty then {}
  else o.runOn colors (o.sources.map fun path => ⟨path, read path⟩)

/-- Runs the command in a directory. -/
def runIn (d : Directory) : Outcome × Directory :=
  let outcome := o.run colors d.read
  (outcome, outcome.writes.foldl (fun d (path, text) => d.write path text) d)

end CheckOptions

end Cli

end CultureLint
