import CultureLint.Cli.Check
import CultureLint.Cli.Usage

/-! The program: it reads the files that a command asks for, and prints and writes what comes of it. -/

namespace CultureLint.Cli

/-- Why reading a file failed. -/
def ReadFailure.ofError : IO.Error → ReadFailure
  | .noFileOrDirectory .. => .notFound
  | .inappropriateType _ code _ => if code = 21 then .isADirectory else .notADirectory
  | .invalidArgument _ 36 _ => .nameTooLong
  | e => .other (toString e)

/-- Reads a file. -/
def readSource (path : String) : IO SourceFile := do
  try
    return ⟨path, .ok (← IO.FS.readFile path)⟩
  catch e =>
    return ⟨path, .error (ReadFailure.ofError e)⟩

/-- Writes a file, and says whether that went well. -/
def writeSource (path text : String) : IO Bool := do
  try
    IO.FS.writeFile path text
    return true
  catch e =>
    IO.eprintln ("failed to write " ++ path ++ ": " ++ toString e)
    return false

/-- Carries out the check command on real files. -/
def check (options : CheckOptions) : IO UInt32 := do
  if options.sources.isEmpty then
    return 0
  let colors ← (← IO.getStdout).isTty
  let outcome := options.runOn colors (← options.sources.mapM readSource)
  let written ← outcome.writes.allM fun (path, text) => writeSource path text
  IO.print (if written then outcome.output else opening colors options)
  outcome.failures.forM (IO.eprintln ·)
  return if written then outcome.exitCode.toUInt32 else 1

end CultureLint.Cli

open CultureLint.Cli in
/-- Carries out the command that the words of the command line give. -/
def main (words : List String) : IO UInt32 := do
  match Command.ofWords words with
  | .ok (.check options) => check options
  | .ok (.completions shell) =>
    IO.println shell.completions
    return 0
  | .error e =>
    if e.isAnswer then
      IO.println e.message
      return 0
    else
      IO.eprintln e.message
      return 2
