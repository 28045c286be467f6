import CultureLint.Cancel
import CultureLint.Document.Basic
import CultureLint.Rule.Basic
import CultureLint.Rule.Match
import CultureLint.Symbol.Display

/-! The findings of the rule in a document. -/

namespace CultureLint

/-- A finding. In code that a directive hides it has neither a span nor a place. -/
structure Diagnostic where
  rule : Rule
  message : String
  severity : Severity
  span : Option Span
  location : Option Location
deriving DecidableEq, Repr

/-- Whether the finding can be mended. -/
def Diagnostic.isFixable (d : Diagnostic) : Bool := d.rule.hasFix && d.span.isSome

/-- The place in a message format for the argument with a number. -/
def messagePlace (index : Nat) : String := "\x7b" ++ toString index ++ "\x7d"

/-- Puts the arguments into a message format, one after the other. -/
def formatMessage (format : String) (arguments : List String) : String :=
  arguments.zipIdx.foldl (fun message (argument, index) =>
    Text.replaceAll (messagePlace index) argument message) format

namespace Snapshot

variable (s : Snapshot)

/-- The finding for a conversion that the rule matches. -/
def report (map : SourceMap) (span : Span) (found : ConversionMatch) : Diagnostic :=
  let rule := Rule.stringConcatConversion
  let method := ((s.compilation.member? found.method).bind Member.method?).elim ""
    s.compilation.displayMethod
  let location := map.location? span.start
  { rule
    message := formatMessage rule.descriptor.messageFormat [method, found.operandTypeName]
    severity := rule.descriptor.severity
    span := location.map fun _ => span
    location }

/-- The finding at one conversion, if the rule matches it. -/
def findingAt (types : WellKnownTypes) (map : SourceMap) (id : OperationId) : Option Diagnostic := do
  let found ← types.match? s.compilation s.unit id
  let op ← s.unit.get? id
  return s.report map op.origin.span found

/-- The findings at some conversions; before each of them the work can be cancelled. -/
def findings (types : WellKnownTypes) (map : SourceMap) : List OperationId → Run (List Diagnostic)
  | [] => return []
  | id :: ids => do
    Run.check
    let rest := findings types map ids
    match s.findingAt types map id with
    | some d => return d :: (← rest)
    | none => rest

/-- All findings in the order of the document. -/
def analyze : Run (List Diagnostic) := do
  Run.check
  match WellKnownTypes.of? s.compilation with
  | none => return []
  | some types => s.findings types s.document.sourceMap s.unit.conversions

end Snapshot

end CultureLint
