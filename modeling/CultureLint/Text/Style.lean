import CultureLint.Text.Search

/-! Text in colours, by the control sequences of terminals. -/

namespace CultureLint.Text

/-- How text looks. -/
inductive Style
  | bold
  | red
  | green
  | cyan
  | boldRed
deriving DecidableEq, Repr

/-- The sequence that turns a style on. -/
def Style.sequence : Style → String
  | .bold => "\x1b[1m"
  | .red => "\x1b[31m"
  | .green => "\x1b[32m"
  | .cyan => "\x1b[36m"
  | .boldRed => "\x1b[1;31m"

/-- The sequence that turns all styles off. -/
def resetSequence : String := "\x1b[0m"

/-- The text in a style, where colours are on. A style that was turned off inside comes on again. -/
def paint (colors : Bool) (style : Style) (text : String) : String :=
  if colors then
    style.sequence ++ replaceAll resetSequence (resetSequence ++ style.sequence) text ++
      resetSequence
  else text

/-- The text with blanks behind it up to a width. -/
def padRight (width : Nat) (text : String) : String :=
  text ++ String.ofList (List.replicate (width - text.length) ' ')

end CultureLint.Text
