import CultureLint.Token.Basic

/-! The extent of literals. Each scanner takes characters off the front of a text and gives back what
it took and what is left; together the two are the text again. -/

namespace CultureLint.Token

/-- The characters of a class at the front, and the rest. -/
def splitWhile (p : Char → Bool) (cs : List Char) : List Char × List Char :=
  (cs.takeWhile p, cs.dropWhile p)

/-- Puts a character back on what a scanner took. -/
def consume (c : Char) : Option (List Char × List Char) → Option (List Char × List Char) :=
  Option.map fun (taken, rest) => (c :: taken, rest)

/-! ### Strings and characters -/

/-- How a string literal is written: `@` makes it verbatim, `$` interpolated. -/
structure StringStyle where
  verbatim : Bool
  interpolated : Bool
deriving DecidableEq, Repr

/-- The opening of a string literal, with its style. -/
def openString? : List Char → Option (StringStyle × List Char × List Char)
  | '$' :: '@' :: '\x22' :: rest => some (⟨true, true⟩, ['$', '@', '\x22'], rest)
  | '@' :: '$' :: '\x22' :: rest => some (⟨true, true⟩, ['@', '$', '\x22'], rest)
  | '@' :: '\x22' :: rest => some (⟨true, false⟩, ['@', '\x22'], rest)
  | '$' :: '\x22' :: rest => some (⟨false, true⟩, ['$', '\x22'], rest)
  | '\x22' :: rest => some (⟨false, false⟩, ['\x22'], rest)
  | _ => none

/-- Where a string scanner stands: in the text of the literal, or in a hole with some braces open
beside its own, or in a string inside such a hole; in the first and the last case perhaps before a
character that is taken for itself. -/
inductive StringPlace
  | text
  | escaped
  | hole (braces : Nat)
  | quoted (braces : Nat)
  | quotedEscaped (braces : Nat)
deriving DecidableEq, Repr

/-- The place behind one more character `c` of a literal, when `cs` follows; `none` where the literal
may not go on. A doubled quote stays inside a verbatim literal and a backslash escapes the next
character of any other; only a verbatim literal or a hole runs over a line end. A hole ends at its
own closing brace, and the quotes in it pair up. -/
def StringPlace.next? (style : StringStyle) (c : Char) (cs : List Char) :
    StringPlace → Option StringPlace
  | .text =>
    if c = '\x22' then some .escaped
    else if c = '\x7b' && style.interpolated then
      if cs.head? = some '\x7b' then some .escaped else some (.hole 0)
    else if style.verbatim then some .text
    else if c = '\\' then some .escaped
    else if c = '\n' then none
    else some .text
  | .escaped => some .text
  | .hole n =>
    if c = '\x7b' then some (.hole (n + 1))
    else if c = '\x7d' then
      match n with
      | 0 => some .text
      | m + 1 => some (.hole m)
    else if c = '\x22' then some (.quoted n)
    else some (.hole n)
  | .quoted n =>
    if c = '\\' then some (.quotedEscaped n)
    else if c = '\x22' then some (.hole n)
    else some (.quoted n)
  | .quotedEscaped n => some (.quoted n)

/-- Whether the literal ends with the character `c`, when `cs` follows. -/
def StringPlace.closes (style : StringStyle) (c : Char) (cs : List Char) : StringPlace → Bool
  | .text => c = '\x22' && !(style.verbatim && cs.head? = some '\x22')
  | _ => false

/-- The rest of a string literal, up to and including its closing quote. -/
def scanString (style : StringStyle) : StringPlace → List Char → Option (List Char × List Char)
  | _, [] => none
  | place, c :: cs =>
    if place.closes style c cs then some ([c], cs)
    else (place.next? style c cs).bind fun place => consume c (scanString style place cs)

/-- The rest of a character literal, up to and including its closing quote, on one line but for an
escaped line end. -/
def scanChar : (escaped : Bool) → List Char → Option (List Char × List Char)
  | _, [] => none
  | true, c :: cs => consume c (scanChar false cs)
  | false, c :: cs =>
    if c = '\x27' then some ([c], cs)
    else if c = '\n' then none
    else consume c (scanChar (c = '\\') cs)

/-! ### Numbers -/

def isHexDigit (c : Char) : Bool :=
  c.isDigit || ('a' ≤ c && c ≤ 'f') || ('A' ≤ c && c ≤ 'F')

/-- Underscores may separate digits. -/
def isDigitOrSeparator (c : Char) : Bool := c.isDigit || c == '_'

def isHexDigitOrSeparator (c : Char) : Bool := isHexDigit c || c == '_'

def isIntegerSuffix (c : Char) : Bool := c == 'u' || c == 'U' || c == 'l' || c == 'L'

def isRealSuffix (c : Char) : Bool :=
  c == 'f' || c == 'F' || c == 'd' || c == 'D' || c == 'm' || c == 'M'

/-- Whether the first of the characters is a digit. -/
def startsDigit : List Char → Bool
  | c :: _ => c.isDigit
  | [] => false

/-- Whether a number begins here: at a digit, or at a point before a digit. -/
def startsNumber : List Char → Bool
  | c :: cs => c.isDigit || (c == '.' && startsDigit cs)
  | [] => false

/-- The mark of a hexadecimal or binary number. -/
def radixMark? : List Char → Option (List Char × List Char)
  | '0' :: m :: rest =>
    if m == 'x' || m == 'X' || m == 'b' || m == 'B' then some (['0', m], rest) else none
  | _ => none

/-- A point and the digits after it, of which there is at least one. -/
def scanFraction : List Char → List Char × List Char
  | '.' :: cs =>
    if startsDigit cs then
      ('.' :: cs.takeWhile isDigitOrSeparator, cs.dropWhile isDigitOrSeparator)
    else ([], '.' :: cs)
  | cs => ([], cs)

/-- The sign of an exponent. -/
def scanSign : List Char → List Char × List Char
  | '+' :: cs => (['+'], cs)
  | '-' :: cs => (['-'], cs)
  | cs => ([], cs)

/-- An exponent, which has at least one digit. -/
def scanExponent : List Char → List Char × List Char
  | [] => ([], [])
  | e :: cs =>
    let (sign, digits) := scanSign cs
    if (e == 'e' || e == 'E') && startsDigit digits then
      (e :: sign ++ digits.takeWhile Char.isDigit, digits.dropWhile Char.isDigit)
    else ([], e :: cs)

/-- The one letter that may end a real number. -/
def scanRealSuffix : List Char → List Char × List Char
  | [] => ([], [])
  | c :: cs => if isRealSuffix c then ([c], cs) else ([], c :: cs)

/-- A number. It is real as soon as it has a fraction, an exponent or the letter of a real type. -/
def scanNumber (cs : List Char) : TokenKind × List Char × List Char :=
  match radixMark? cs with
  | some (mark, rest) =>
    let (digits, rest) := splitWhile isHexDigitOrSeparator rest
    let (suffix, rest) := splitWhile isIntegerSuffix rest
    (.integer, mark ++ digits ++ suffix, rest)
  | none =>
    let (whole, rest) := splitWhile isDigitOrSeparator cs
    let (fraction, rest) := scanFraction rest
    let (exponent, rest) := scanExponent rest
    let (letter, rest) := scanRealSuffix rest
    if fraction.isEmpty && exponent.isEmpty && letter.isEmpty then
      let (suffix, rest) := splitWhile isIntegerSuffix rest
      (.integer, whole ++ suffix, rest)
    else (.real, whole ++ fraction ++ exponent ++ letter, rest)

end CultureLint.Token
