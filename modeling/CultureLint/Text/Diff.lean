import CultureLint.Text.Style

/-! The difference of two texts as it is shown. The difference itself is made elsewhere: which lines are
kept, deleted and inserted, how they are gathered into hunks, and what stands above a hunk. -/

namespace CultureLint.Text

/-- What becomes of a line. -/
inductive Change
  | keep (line : List Char)
  | delete (line : List Char)
  | insert (line : List Char)
deriving DecidableEq, Repr

def Change.line : Change → List Char
  | .keep line | .delete line | .insert line => line

/-- What an operation does with a stretch of lines. -/
inductive DiffTag
  | equal
  | delete
  | insert
  | replace
deriving DecidableEq, Repr

/-- Lines that are shown together, and what stands above them. -/
structure Hunk where
  header : String
  changes : List Change
deriving DecidableEq, Repr

/-- The difference of two texts: the operations that make the new text from the old one, the lines to show,
and whether a shown line has no end of its own. -/
structure Diff where
  tags : List DiffTag
  hunks : List Hunk
  missingNewline : Change → Bool

namespace Diff

variable (d : Diff)

/-- Whether the texts differ. -/
def hasChanges : Bool := d.tags.any (· != .equal)

def renderChange (colors : Bool) (change : Change) : String :=
  let line := String.ofList change.line
  let shown :=
    match change with
    | .keep _ => " " ++ line
    | .delete _ => paint colors .red "-" ++ paint colors .red line
    | .insert _ => paint colors .green "+" ++ paint colors .green line
  if d.missingNewline change then shown ++ "\n" else shown

def renderHunk (colors : Bool) (h : Hunk) : String :=
  paint colors .cyan h.header ++ "\n" ++ String.join (h.changes.map (d.renderChange colors))

/-- The difference as it is shown, under the names of the two texts if they have some. -/
def render (colors : Bool) (names : Option (String × String)) : String :=
  let header :=
    match names with
    | some (old, new) =>
      "--- " ++ paint colors .red old ++ "\n+++ " ++ paint colors .green new ++ "\n"
    | none => ""
  header ++ String.join (d.hunks.map (d.renderHunk colors))

end Diff

end CultureLint.Text
