import CultureLint.Fix.Conversion
import CultureLint.Lint.Check

/-! Mending all findings. After every edit the program is bound and checked again, and the first finding
that can be mended is mended next. -/

namespace CultureLint

namespace Project

variable (settings : Settings) (host : ImportHost) (index : Nat)

/-- Mends the first of the findings in a document that can be mended; nothing comes of it where there
is none, or where mending leaves the text as it is. -/
def fixFirst (p : Project) (s : Snapshot) (found : List Diagnostic) : Run (Option Project) := do
  match (found.filter Diagnostic.isFixable).findSome? Diagnostic.span with
  | none => return none
  | some span =>
    let d ← s.applyFix host span
    if d.text = s.document.text then return none else return some (p.replaceDocument index d)

/-- Mends one finding and goes on; counts what was mended. -/
def fixThen (p : Project) (s : Snapshot) (found : List Diagnostic)
    (more : Project → Run (Project × Nat)) : Run (Project × Nat) := do
  match ← p.fixFirst host index s found with
  | none => return (p, 0)
  | some next =>
    let (done, count) ← more next
    return (done, count + 1)

/-- Mends findings in a document, at most as many as the bound. -/
def fixUpTo : Nat → Project → Run (Project × Nat)
  | 0, p => return (p, 0)
  | bound + 1, p => do
    match p.snapshot? index with
    | none => return (p, 0)
    | some s =>
      let found ← s.check settings
      p.fixThen host index s found (fixUpTo bound)

/-- How many more findings may be mended than there were in the beginning. -/
def spareFixes : Nat := 100

/-- Mends the findings in a document, and counts them. -/
def fixDocument (p : Project) : Run (Project × Nat) := do
  match p.snapshot? index with
  | none => return (p, 0)
  | some s =>
    let found ← s.check settings
    let bound := found.countP Diagnostic.isFixable + spareFixes
    p.fixThen host index s found (fixUpTo settings host index (bound - 1))

/-- Mends the findings in all documents one after the other, and counts them. -/
def fixAll (p : Project) : Run (Project × Nat) :=
  (List.range p.documents.length).foldlM (fun (p, count) index => do
    let (next, more) ← p.fixDocument settings host index
    return (next, count + more)) (p, 0)

end Project

/-- Mends the findings in a text that is a document of its own. -/
def fixText (settings : Settings) (text : String) : Except Failure (String × Nat) := do
  match Document.parse "Text.cs" text with
  | .error e => throw (.syntaxError e)
  | .ok document =>
    let p : Project := { references := settings.references, documents := [document] }
    let (done, count) ← (Run.run' (p.fixDocument settings .adding 0) CancelToken.live).1
    return ((done.document? 0).elim text Document.text, count)

end CultureLint
