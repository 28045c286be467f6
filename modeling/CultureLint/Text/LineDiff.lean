import CultureLint.Text.Diff

/-! The difference of two texts, line by line. It keeps as many lines as possible and has them in hunks of the
unified format. Nothing else depends on how it is made. -/

namespace CultureLint.Text

/-! ### Lines -/

/-- The lines of a text with their ends: a line feed, a carriage return, or both in this order. -/
def splitLines : List Char → List (List Char)
  | [] => []
  | '\r' :: '\n' :: cs => ['\r', '\n'] :: splitLines cs
  | c :: cs =>
    if c = '\n' || c = '\r' then [c] :: splitLines cs
    else
      match splitLines cs with
      | [] => [[c]]
      | line :: lines => (c :: line) :: lines

/-- Whether a line has an end. -/
def endsLine (line : List Char) : Bool := line.getLast?.any fun c => c == '\n' || c == '\r'

/-! ### Edit scripts -/

namespace Change

def isKeep : Change → Bool
  | .keep _ => true
  | .delete _ | .insert _ => false

/-- Whether the line is one of the old text. -/
def inOld : Change → Bool
  | .keep _ | .delete _ => true
  | .insert _ => false

/-- Whether the line is one of the new text. -/
def inNew : Change → Bool
  | .keep _ | .insert _ => true
  | .delete _ => false

/-- The operation for this line alone. -/
def tag : Change → DiffTag
  | .keep _ => .equal
  | .delete _ => .delete
  | .insert _ => .insert

end Change

/-- A script with the number of lines that it keeps. -/
abbrev Scored := Nat × List Change

/-- The best scripts from no lines to each end part of the new lines, the longest part first. -/
def scriptsFromNothing : List (List Char) → List Scored
  | [] => [(0, [])]
  | line :: lines =>
    let shorter := scriptsFromNothing lines
    (0, .insert line :: lines.map .insert) :: shorter

/-- The best scripts with one more old line, from those without it. -/
def addOldLine (old : List Char) : List (List Char) → List Scored → List Scored
  | new :: news, down :: downs =>
    let rights := addOldLine old news downs
    match rights, downs with
    | right :: _, diagonal :: _ =>
      let best : Scored :=
        if old = new then (diagonal.1 + 1, .keep old :: diagonal.2)
        else if right.1 ≤ down.1 then (down.1, .delete old :: down.2)
        else (right.1, .insert new :: right.2)
      best :: rights
    | _, _ => rights
  | [], down :: _ => [(down.1, .delete old :: down.2)]
  | _, [] => []

/-- A script from old to new lines that keeps as many lines as possible. -/
def bestScript (old new : List (List Char)) : List Change :=
  let scripts := old.foldr (fun line scripts => addOldLine line new scripts) (scriptsFromNothing new)
  (scripts.head?.map (·.2)).getD []

/-- The script with the deletions of a changed stretch before its insertions, of which some wait. -/
def deletionsFirst : List (List Char) → List Change → List Change
  | waiting, [] => waiting.map .insert
  | waiting, .keep line :: rest => waiting.map .insert ++ .keep line :: deletionsFirst [] rest
  | waiting, .delete line :: rest => .delete line :: deletionsFirst waiting rest
  | waiting, .insert line :: rest => deletionsFirst (waiting ++ [line]) rest

/-- The script between two texts. -/
def script (old new : String) : List Change :=
  deletionsFirst [] (bestScript (splitLines old.toList) (splitLines new.toList))

/-! ### Hunks -/

/-- How many kept lines are shown around a change. -/
def contextSize : Nat := 3

/-- For each line whether it is a change or at most so many lines behind one, when there may be some
lines left to show. -/
def shownBehind : Nat → List Change → List Bool
  | _, [] => []
  | left, change :: rest =>
    if change.isKeep then decide (0 < left) :: shownBehind (left - 1) rest
    else true :: shownBehind contextSize rest

/-- For each line whether it is shown: it is a change or close to one. -/
def shown (script : List Change) : List Bool :=
  let ahead := (shownBehind 0 script.reverse).reverse
  List.zipWith (· || ·) (shownBehind 0 script) ahead

/-- Lines that are shown together: where they start in both texts, counted from zero, and what becomes
of them. -/
structure Stretch where
  oldStart : Nat
  newStart : Nat
  changes : List Change
deriving DecidableEq, Repr

/-- Gathers the lines that are shown. -/
def stretchesFrom (oldStart newStart : Nat) (current : Option Stretch) :
    List (Change × Bool) → List Stretch
  | [] => current.toList
  | (change, isShown) :: rest =>
    let nextOld := if change.inOld then oldStart + 1 else oldStart
    let nextNew := if change.inNew then newStart + 1 else newStart
    if isShown then
      let stretch := current.getD ⟨oldStart, newStart, []⟩
      stretchesFrom nextOld nextNew (some { stretch with changes := stretch.changes ++ [change] }) rest
    else current.toList ++ stretchesFrom nextOld nextNew none rest

/-- The lines of one text that a hunk covers: the first, counted from one, and how many, unless it is
one. Where there are none the line before is named. -/
def renderRange (start count : Nat) : String :=
  if count = 1 then toString (start + 1)
  else toString (if count = 0 then start else start + 1) ++ "," ++ toString count

/-- What stands above a hunk that starts behind so many lines of both texts and covers so many of them. -/
def renderHeader (oldStart oldCount newStart newCount : Nat) : String :=
  "@@ -" ++ renderRange oldStart oldCount ++ " +" ++ renderRange newStart newCount ++ " @@"

def Stretch.hunk (s : Stretch) : Hunk where
  header := renderHeader s.oldStart (s.changes.countP Change.inOld) s.newStart (s.changes.countP Change.inNew)
  changes := s.changes

/-! ### The whole difference -/

/-- The difference of two texts. -/
def Diff.ofTexts (old new : String) : Diff where
  tags := (script old new).map Change.tag
  hunks := (stretchesFrom 0 0 none ((script old new).zip (shown (script old new)))).map Stretch.hunk
  missingNewline change := !endsLine change.line

end CultureLint.Text
