import CultureLint.Cli.Word
import CultureLint.Lint.Settings
import CultureLint.Text.Search

/-! The options of the check command. A word waits until the next one shows that nothing more belongs
to it, and only then is its value looked at; a name that nobody knows is refused at once. -/

namespace CultureLint.Cli

/-- How findings are written. -/
inductive OutputFormat
  | text
  | json
deriving DecidableEq, Repr

def OutputFormat.ofName? : String → Option OutputFormat
  | "text" => some .text
  | "json" => some .json
  | _ => none

/-- Whether mending may add imports. -/
inductive ImportMode
  | auto
  | never
deriving DecidableEq, Repr

def ImportMode.ofName? : String → Option ImportMode
  | "auto" => some .auto
  | "never" => some .never
  | _ => none

/-- What the words of a check command ask for. -/
structure CheckOptions where
  files : List String := []
  fix : Bool := false
  diff : Bool := false
  statistics : Bool := false
  includeGenerated : Bool := false
  noGlobalization : Bool := false
  verbosity : Nat := 0
  select : Option (List RuleSelector) := none
  ignore : Option (List RuleSelector) := none
  outputFormat : Option OutputFormat := none
  imports : Option ImportMode := none
deriving DecidableEq, Repr

/-! ### Names -/

/-- Options that take no value. -/
inductive Flag
  | fix
  | diff
  | statistics
  | includeGenerated
  | noGlobalization
  | verbose
  | help
deriving DecidableEq, Repr

namespace Flag

def ofName? : String → Option Flag
  | "fix" => some .fix
  | "diff" => some .diff
  | "statistics" => some .statistics
  | "include-generated" => some .includeGenerated
  | "no-globalization" => some .noGlobalization
  | "verbose" => some .verbose
  | "help" => some .help
  | _ => none

def ofLetter? : Char → Option Flag
  | 'v' => some .verbose
  | 'h' => some .help
  | _ => none

end Flag

/-- Options that take a value. -/
inductive Setting
  | select
  | ignore
  | outputFormat
  | imports
deriving DecidableEq, Repr

def Setting.ofName? : String → Option Setting
  | "select" => some .select
  | "ignore" => some .ignore
  | "output-format" => some .outputFormat
  | "imports" => some .imports
  | _ => none

/-! ### Values -/

/-- The choices in a list with commas. -/
def selectorsOf (value : String) : Except UsageError (List RuleSelector) :=
  (Text.pieces ',' value.toList).mapM fun word =>
    match RuleSelector.ofWord? (String.ofList word) with
    | some selector => .ok selector
    | none => .error .badRule

namespace CheckOptions

/-- A flag that may be given once. -/
def raise (given : Bool) : Except UsageError Bool :=
  if given then .error .repeatedArgument else .ok true

/-- A value that may be given once. -/
def assign {α : Type} (given value : Option α) : Except UsageError (Option α) :=
  if given.isSome then .error .repeatedArgument
  else if value.isNone then .error .badValue
  else .ok value

/-- More choices behind those given before. -/
def choose (given : Option (List RuleSelector)) (value : String) :
    Except UsageError (Option (List RuleSelector)) := do
  return some (given.getD [] ++ (← selectorsOf value))

/-- How often the flag for verbosity counts at most. -/
def maxVerbosity : Nat := 255

variable (o : CheckOptions)

def setFlag : Flag → Except UsageError CheckOptions
  | .fix => do return { o with fix := ← raise o.fix }
  | .diff => do return { o with diff := ← raise o.diff }
  | .statistics => do return { o with statistics := ← raise o.statistics }
  | .includeGenerated => do return { o with includeGenerated := ← raise o.includeGenerated }
  | .noGlobalization => do return { o with noGlobalization := ← raise o.noGlobalization }
  | .verbose => .ok { o with verbosity := min (o.verbosity + 1) maxVerbosity }
  | .help => .error .helpAsked

/-- Takes a value for an option; a missing one is bad, whatever the option. -/
def setValue (setting : Setting) (value : Option String) : Except UsageError CheckOptions := do
  match value with
  | none => .error .badValue
  | some value =>
    match setting with
    | .select => return { o with select := ← choose o.select value }
    | .ignore => return { o with ignore := ← choose o.ignore value }
    | .outputFormat =>
      return { o with outputFormat := ← assign o.outputFormat (OutputFormat.ofName? value) }
    | .imports => return { o with imports := ← assign o.imports (ImportMode.ofName? value) }

/-- Takes more files; every one of them must have a name. -/
def addFiles (files : List String) : Except UsageError CheckOptions :=
  if files.any String.isEmpty then .error .badValue else .ok { o with files := o.files ++ files }

end CheckOptions

/-! ### Reading -/

/-- What waits for the words that may still belong to it. -/
inductive Pending
  | files (paths : List String)
  | setting (setting : Setting) (value : Option String)
deriving DecidableEq, Repr

/-- What was read so far. Behind a separator all words are files. -/
structure CheckReader where
  options : CheckOptions := {}
  pending : Option Pending := none
  onlyFiles : Bool := false
deriving DecidableEq, Repr

namespace CheckReader

variable (r : CheckReader)

/-- Takes over what waits. -/
def settle : Except UsageError CheckReader := do
  match r.pending with
  | none => return r
  | some (.files paths) => return { r with options := ← r.options.addFiles paths, pending := none }
  | some (.setting setting value) =>
    return { r with options := ← r.options.setValue setting value, pending := none }

/-- Reads a word that is a file. -/
def readFile (path : String) : Except UsageError CheckReader := do
  match r.pending with
  | some (.files paths) => return { r with pending := some (.files (paths ++ [path])) }
  | some (.setting _ _) | none => return { ← r.settle with pending := some (.files [path]) }

/-- Reads a word without dashes: the value that is waited for, or a file. -/
def readPlain (text : String) : Except UsageError CheckReader :=
  match r.pending with
  | some (.setting setting none) => .ok { r with pending := some (.setting setting (some text)) }
  | some (.setting _ (some _)) | some (.files _) | none => r.readFile text

def readFlag (flag : Flag) : Except UsageError CheckReader := do
  let r ← r.settle
  return { r with options := ← r.options.setFlag flag }

/-- Reads an option, perhaps with its value in the same word. -/
def readSetting (setting : Setting) (value : Option String) : Except UsageError CheckReader := do
  let r ← r.settle
  match value with
  | none => return { r with pending := some (.setting setting none) }
  | some value => return { r with options := ← r.options.setValue setting (some value) }

def readLong (name : String) (value : Option String) : Except UsageError CheckReader :=
  match Flag.ofName? name, Setting.ofName? name, value with
  | some flag, _, none => r.readFlag flag
  | some _, _, some _ => .error .unwantedValue
  | none, some setting, value => r.readSetting setting value
  | none, none, _ => .error .unknownArgument

def readLetter (letter : Char) : Except UsageError CheckReader :=
  match Flag.ofLetter? letter with
  | some flag => r.readFlag flag
  | none => .error .unknownArgument

/-- Reads the next word. -/
def read (text : String) : Except UsageError CheckReader :=
  if r.onlyFiles then r.readFile text
  else
    match Word.ofText text with
    | .separator => .ok { r with onlyFiles := true }
    | .long name value => r.readLong name value
    | .short letters => letters.foldlM readLetter r
    | .plain text => r.readPlain text

end CheckReader

namespace CheckOptions

/-- The options that some words give; there must be a file among them. -/
def ofWords (words : List String) : Except UsageError CheckOptions := do
  let r ← words.foldlM CheckReader.read {}
  let options := (← r.settle).options
  if options.files.isEmpty then .error .missingArgument else return options

/-! ### Meaning -/

variable (o : CheckOptions)

def format : OutputFormat := o.outputFormat.getD .text

def importMode : ImportMode := o.imports.getD .auto

/-- The rules to run. -/
def rules : List Rule := Rule.selected o.select o.ignore

def settings : Settings where
  rules := o.rules
  includeGenerated := o.includeGenerated
  references := if o.noGlobalization then [.core] else [.core, .globalization]

/-- What is written to the log. -/
def logFilter : String :=
  match o.verbosity with
  | 0 => "warn"
  | 1 => programName ++ "=debug,warn"
  | _ => programName ++ "=trace,debug"

end CheckOptions

end CultureLint.Cli
