import CultureLint.Text.Combining
import CultureLint.Text.Printable

/-! A single character as a message shows it: between single quotes, with an escape for every
character that would not stand out on its own. -/

namespace CultureLint.Text

/-- The code point in hexadecimal, braced. -/
def codePointEscape (c : Char) : String :=
  "\\u\x7b" ++ String.ofList (Nat.toDigits 16 c.toNat) ++ "\x7d"

/-- The character as it is written between single quotes. -/
def escapeChar (c : Char) : String :=
  match c with
  | '\x00' => "\\0"
  | '\t' => "\\t"
  | '\r' => "\\r"
  | '\n' => "\\n"
  | '\x27' => "\\'"
  | '\\' => "\\\\"
  | _ => if isPrintable c && !isCombining c then c.toString else codePointEscape c

/-- The character between single quotes. -/
def quoteChar (c : Char) : String := "'" ++ escapeChar c ++ "'"

end CultureLint.Text
