import CultureLint.Cli.Command

/-! What the program says about itself. -/

namespace CultureLint.Cli

def version : String := programName ++ " 0.1.0"

/-- What is shown when help is asked for. -/
def usage : String :=
  "\n".intercalate
    ["Finds culture-sensitive conversions in C# string concatenation.",
     "",
     "Usage: " ++ programName ++ " check [OPTIONS] <FILES>...",
     "       " ++ programName ++ " generate-completions <SHELL>",
     "       " ++ programName ++ " help [COMMAND]",
     "",
     "Options of check:",
     "      --fix                     Replace the input files",
     "      --diff                    Show what would be replaced",
     "      --select <RULE_CODE>      Specify which rules to check",
     "      --ignore <RULE_CODE>      Specify which rules to ignore",
     "      --statistics              Show statistics after processing",
     "      --output-format <FORMAT>  text or json",
     "      --imports <MODE>          auto or never: whether fixes may add imports",
     "      --include-generated       Also check generated files",
     "      --no-globalization        Compile without the System.Globalization library",
     "  -v, --verbose                 Increase logging verbosity",
     "  -h, --help                    Print help",
     "  -V, --version                 Print version"]

/-- What is said about a command line that is not carried out. -/
def UsageError.message : UsageError → String
  | .noCommand | .helpAsked => usage
  | .versionAsked => version
  | .unknownCommand => "error: unrecognized subcommand"
  | .unknownArgument => "error: unexpected argument"
  | .missingArgument => "error: a required argument was not provided"
  | .repeatedArgument => "error: an argument cannot be used multiple times"
  | .unwantedValue => "error: unexpected value for a flag"
  | .badValue => "error: invalid or missing value"
  | .badRule => "error: unknown rule code"

/-- The line that teaches a shell the names of the commands. -/
def Shell.completions (shell : Shell) : String :=
  let words := " ".intercalate Command.names
  match shell with
  | .bash => "complete -W \"" ++ words ++ "\" " ++ programName
  | .elvish =>
    "set edit:completion:arg-completer[" ++ programName ++ "] = \x7b|@words| put " ++ words ++ " \x7d"
  | .fish => "complete -c " ++ programName ++ " -f -a \"" ++ words ++ "\""
  | .powershell =>
    "Register-ArgumentCompleter -Native -CommandName " ++ programName ++
      " -ScriptBlock \x7b -split '" ++ words ++ "' \x7d"
  | .zsh => "compctl -k \"(" ++ words ++ ")\" " ++ programName

end CultureLint.Cli
