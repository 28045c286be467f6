import CultureLint.Lint.Settings
import CultureLint.Rule.Diagnostic
import CultureLint.Text.Style

/-! Checking documents, and writing down what was found. -/

namespace CultureLint

/-- The findings in a document under some settings; generated code is passed over unless asked for. -/
def Snapshot.check (s : Snapshot) (settings : Settings) : Run (List Diagnostic) :=
  if !settings.rules.contains .stringConcatConversion then return []
  else if !settings.includeGenerated && s.document.isGenerated then return []
  else s.analyze

/-- The findings in each document of a project. -/
def Project.check (p : Project) (settings : Settings) : Run (List (List Diagnostic)) :=
  p.snapshots.mapM (·.check settings)

/-! ### Messages -/

/-- The line of a text that a span starts in, with the span highlighted as far as it is on it. -/
def contextLine (colors : Bool) (text : String) (span : Span) : String :=
  match Text.cut? text.toList span with
  | none => ""
  | some (before, inside, after) =>
    let start := (before.reverse.takeWhile (· != '\n')).reverse
    let highlighted := inside.takeWhile (· != '\n')
    let behind := inside.dropWhile (· != '\n') ++ after
    let rest := behind.takeWhile fun c => c != '\r' && c != '\n'
    Text.trim (String.ofList start ++ Text.paint colors .red (String.ofList highlighted) ++
      String.ofList rest)

/-- A finding as it is shown: its place, its rule, a mark if it can be mended, its message, and the
line it is in. -/
def Diagnostic.render (colors : Bool) (text : String) (d : Diagnostic) : String :=
  let mark := if d.isFixable then "[" ++ Text.paint colors .cyan "*" ++ "]" else "   "
  let place := d.location.elim "<hidden>" Location.render
  let code := Text.paint colors .cyan (Text.padRight 3 d.rule.code)
  let message := Text.paint colors .bold place ++ ": " ++ code ++ " " ++ mark ++ " " ++ d.message
  match d.span with
  | some span => message ++ "\n    " ++ contextLine colors text span
  | none => message

end CultureLint
