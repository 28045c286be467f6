/-! The words of a command line, and what can be wrong with them. -/

namespace CultureLint.Cli

/-- The name under which the program is called. -/
def programName : String := "strconcat"

/-- Why a command line is not carried out. To ask for help or for the version is such a reason too. -/
inductive UsageError
  | noCommand
  | unknownCommand
  | unknownArgument
  | missingArgument
  | repeatedArgument
  | unwantedValue
  | badValue
  | badRule
  | helpAsked
  | versionAsked
deriving DecidableEq, Repr

/-- Whether the user asked for what the program says then. -/
def UsageError.isAnswer (e : UsageError) : Bool := e = .helpAsked || e = .versionAsked

/-- A word as it looks, before anybody knows what it is for. -/
inductive Word
  | separator
  | long (name : String) (value : Option String)
  | short (letters : List Char)
  | plain (text : String)
deriving DecidableEq, Repr

namespace Word

/-- A long name, with the value behind its first equals sign. -/
def ofLong (cs : List Char) : Word :=
  let name := String.ofList (cs.takeWhile (· != '='))
  match cs.dropWhile (· != '=') with
  | [] => .long name none
  | _ :: value => .long name (some (String.ofList value))

/-- Two dashes open a long name and one dash opens letters; a dash alone is a plain word. -/
def ofText (text : String) : Word :=
  match text.toList with
  | ['-', '-'] => .separator
  | '-' :: '-' :: cs => ofLong cs
  | '-' :: c :: cs => .short (c :: cs)
  | _ => .plain text

end Word

end CultureLint.Cli
