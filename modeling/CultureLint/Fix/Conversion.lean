import CultureLint.Fix.Import
import CultureLint.Rule.Match
import CultureLint.Tree.Walk

/-! Mending a finding: the operand `x` becomes `x.ToString(CultureInfo.InvariantCulture)`, and the
namespace of the culture is imported. -/

namespace CultureLint

/-- The namespace of the culture. -/
def cultureNamespace : String := "System.Globalization"

/-- The culture by its short name. -/
def shortCulture : String := "CultureInfo.InvariantCulture"

/-- The culture by its full name. -/
def fullCulture : String := cultureNamespace ++ "." ++ shortCulture

/-- The call that replaces an operand; an operand that is not primary is put in parentheses. -/
def formatCall (isPrimary : Bool) (operand culture : String) : String :=
  let receiver := if isPrimary then operand else "(" ++ operand ++ ")"
  receiver ++ ".ToString(" ++ culture ++ ")"

namespace Snapshot

variable (s : Snapshot)

/-- Whether the program declares a type of its own with the name of the culture's type. -/
def cultureNameClashes : Bool :=
  s.compilation.types.any fun symbol =>
    symbol.fromSource && symbol.name == "CultureInfo" && symbol.namespaceName != cultureNamespace

/-- Whether the rule finds something at an expression. -/
def qualifies (e : Expr) : Bool :=
  (WellKnownTypes.of? s.compilation).any fun types =>
    s.unit.conversions.any fun id =>
      ((s.unit.get? id).bind (·.origin.node)) == some e.id &&
        (types.match? s.compilation s.unit id).isSome

/-- Replaces an expression by the call with a culture. -/
def replaceOperand (e : Expr) (culture : String) : Run Document :=
  let d := s.document
  let operand := (Text.slice? d.text e.span).getD ""
  d.commitEdit ((EditSession.ofDocument d).replace? e.span (formatCall e.isPrimary operand culture))

/-- Mends the expression. The short name of the culture is used where it is known or can be made
known, and would mean nothing else. -/
def mendOperand (host : ImportHost) (e : Expr) : Run Document := do
  if s.cultureNameClashes then
    s.replaceOperand e fullCulture
  else
    let edited ← s.replaceOperand e shortCulture
    match ← edited.resolveImport host cultureNamespace e.span.start with
    | .alreadyInScope => return edited
    | .inserted imported => return imported
    | .unavailable => s.replaceOperand e fullCulture

/-- Mends the finding at a span; a span without one leaves the document as it is. -/
def mend (host : ImportHost) (span : Span) : Run Document := do
  Run.check
  match s.document.tree.expressionAt? span with
  | none => return s.document
  | some e => if s.qualifies e then s.mendOperand host e else return s.document

/-- Mends the finding at a span. Whatever goes wrong leaves the document as it is; only a
cancellation is passed on. -/
def applyFix (host : ImportHost) (span : Span) : Run Document :=
  tryCatch (s.mend host span) fun
    | .cancelled => throw .cancelled
    | .syntaxError _ => return s.document

end Snapshot

end CultureLint
