/-! Character properties given as tables. A property of the Unicode standard is the ascending list of
the ranges of code points that have it, both ends included. -/

namespace CultureLint.Text

/-- Whether one of the ranges, which ascend, holds the number. -/
def inRanges (n : Nat) : List (Nat × Nat) → Bool
  | [] => false
  | (low, high) :: rest => if n < low then false else n ≤ high || inRanges n rest

end CultureLint.Text
