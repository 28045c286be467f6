import CultureLint.Cancel
import CultureLint.Document.Basic

/-! Editing a document. A session holds a working copy of the text; only a commit makes a document of
it again, and there the work can still be cancelled. -/

namespace CultureLint

/-- A document and the working copy of its text. -/
structure EditSession where
  document : Document
  working : String

namespace EditSession

/-- A session whose working copy is the text as it is. -/
def ofDocument (d : Document) : EditSession := ⟨d, d.text⟩

variable (s : EditSession)

/-- Replaces a span, if it is one of the working copy. -/
def replace? (span : Span) (replacement : String) : Option EditSession :=
  (Text.replace? s.working span replacement).map fun working => { s with working }

/-- Puts something in at an offset, if it is one of the working copy. -/
def insert? (offset : Nat) (inserted : String) : Option EditSession :=
  (Text.insert? s.working offset inserted).map fun working => { s with working }

/-- Reads the working copy as the next version of the document. -/
def commit : Run Document := do
  Run.check
  Run.ofRead (s.document.withText s.working)

end EditSession

/-- Commits a session that may have failed to edit; then the document stays. -/
def Document.commitEdit (d : Document) (session : Option EditSession) : Run Document :=
  match session with
  | some session => session.commit
  | none => return d

end CultureLint
