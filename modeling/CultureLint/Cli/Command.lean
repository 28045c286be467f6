import CultureLint.Cli.Options

/-! The commands of the program. -/

namespace CultureLint.Cli

/-- The shells that can be taught the names of commands. -/
inductive Shell
  | bash
  | elvish
  | fish
  | powershell
  | zsh
deriving DecidableEq, Repr

namespace Shell

def all : List Shell := [.bash, .elvish, .fish, .powershell, .zsh]

def name : Shell → String
  | .bash => "bash"
  | .elvish => "elvish"
  | .fish => "fish"
  | .powershell => "powershell"
  | .zsh => "zsh"

def ofName? (name : String) : Option Shell := all.find? (·.name == name)

end Shell

/-! ### Choosing a shell -/

/-- The shell that was asked for, before anybody looked at it. Behind a separator no word is a flag. -/
structure ShellReader where
  asked : Option String := none
  onlyPlain : Bool := false
deriving DecidableEq, Repr

namespace ShellReader

variable (r : ShellReader)

/-- The shell that was asked for, if it is one. -/
def shell? : Except UsageError (Option Shell) :=
  match r.asked with
  | none => .ok none
  | some name =>
    match Shell.ofName? name with
    | some shell => .ok (some shell)
    | none => .error .badValue

/-- Help is given only if nothing is wrong so far. -/
def askHelp : Except UsageError ShellReader := do
  let _ ← r.shell?
  .error .helpAsked

/-- Takes the name of a shell, of which there may be one. -/
def readPlain (text : String) : Except UsageError ShellReader :=
  if r.asked.isSome then .error .unknownArgument else .ok { r with asked := some text }

/-- Reads the next word. -/
def read (text : String) : Except UsageError ShellReader :=
  if r.onlyPlain then r.readPlain text
  else
    match Word.ofText text with
    | .separator => .ok { r with onlyPlain := true }
    | .long "help" none | .short ('h' :: _) => r.askHelp
    | .long "help" (some _) => .error .unwantedValue
    | .long _ _ | .short _ => .error .unknownArgument
    | .plain text => r.readPlain text

end ShellReader

/-- The shell that some words choose. -/
def Shell.ofWords (words : List String) : Except UsageError Shell := do
  let r ← words.foldlM ShellReader.read {}
  match ← r.shell? with
  | some shell => return shell
  | none => .error .missingArgument

/-! ### Commands -/

/-- What the program can be asked to do. -/
inductive Command
  | check (options : CheckOptions)
  | completions (shell : Shell)
deriving DecidableEq, Repr

namespace Command

/-- The words that commands begin with. -/
def names : List String := ["check", "generate-completions", "help"]

/-- Why a word at the place of a command is none. -/
def refuse (word : String) : UsageError :=
  match Word.ofText word with
  | .long "help" none | .short ('h' :: _) => .helpAsked
  | .long "version" none | .short ('V' :: _) => .versionAsked
  | .long "help" (some _) | .long "version" (some _) => .unwantedValue
  | .long _ _ | .short _ => .unknownArgument
  | .plain _ | .separator => .unknownCommand

/-- What becomes of a call for help with the given words: it is about one command, or none. -/
def helpError : List String → UsageError
  | [] => .helpAsked
  | [word] => if names.contains word then .helpAsked else .unknownCommand
  | _ => .unknownCommand

/-- What is wrong with words behind a separator where a command should be. -/
def separatedError : List String → UsageError
  | [] => .noCommand
  | word :: _ => if names.contains word then .unknownArgument else .unknownCommand

/-- The command that the words of a command line give. -/
def ofWords : List String → Except UsageError Command
  | [] => .error .noCommand
  | "check" :: words => .check <$> CheckOptions.ofWords words
  | "generate-completions" :: words => .completions <$> Shell.ofWords words
  | "help" :: words => .error (helpError words)
  | "--" :: words => .error (separatedError words)
  | word :: _ => .error (refuse word)

end Command

end CultureLint.Cli
