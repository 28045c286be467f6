import CultureLint.Symbol.Basic
import CultureLint.Token.Literal
import CultureLint.Tree.Expr

/-! The types of literals. -/

namespace CultureLint.LiteralKind

/-- The value of a digit in hexadecimal. -/
def digitValue? (c : Char) : Option Nat :=
  if c.isDigit then some (c.toNat - '0'.toNat)
  else if 'a' ≤ c && c ≤ 'f' then some (c.toNat - 'a'.toNat + 10)
  else if 'A' ≤ c && c ≤ 'F' then some (c.toNat - 'A'.toNat + 10)
  else none

/-- The number that digits write behind others of the given value. -/
def digitsValue? (radix : Nat) : Nat → List Char → Option Nat
  | value, [] => some value
  | value, c :: cs => do
    let digit ← digitValue? c
    if digit < radix then digitsValue? radix (value * radix + digit) cs else none

/-- The number that one or more digits write. -/
def number? (radix : Nat) : List Char → Option Nat
  | [] => none
  | cs => digitsValue? radix 0 cs

/-- The radix of an integer and its digits. -/
def radixAndDigits : List Char → Nat × List Char
  | '0' :: 'x' :: digits | '0' :: 'X' :: digits => (16, digits)
  | '0' :: 'b' :: digits | '0' :: 'B' :: digits => (2, digits)
  | digits => (10, digits)

/-- The value of an integer without its suffix. Digits that write no number, or none that fits in 64
bits, count as the greatest that does. -/
def integerValue (digits : List Char) : Nat :=
  let (radix, digits) := radixAndDigits (digits.filter (· != '_'))
  min ((number? radix digits).getD 0xFFFFFFFFFFFFFFFF) 0xFFFFFFFFFFFFFFFF

/-- The type of an integer literal: of the types that its suffix allows, the first that can hold it. -/
def integerType (text : String) : SpecialType :=
  let cs := text.toList.reverse
  let suffix := (cs.takeWhile Token.isIntegerSuffix).reverse.map Char.toLower
  let value := integerValue (cs.dropWhile Token.isIntegerSuffix).reverse
  if suffix = ['u'] then
    if value < 0x100000000 then .uint32 else .uint64
  else if suffix = ['u', 'l'] || suffix = ['l', 'u'] then .uint64
  else if suffix = ['l'] then
    if value < 0x8000000000000000 then .int64 else .uint64
  else if value < 0x80000000 then .int32
  else if value < 0x100000000 then .uint32
  else if value < 0x8000000000000000 then .int64
  else .uint64

/-- The type of a real literal, by its last letter. -/
def realType (text : String) : SpecialType :=
  match text.toList.getLast?.map Char.toLower with
  | some 'f' => .single
  | some 'm' => .decimal
  | _ => .double

/-- The type of a literal; `null` has none. -/
def type? (kind : LiteralKind) (text : String) : Option SpecialType :=
  match kind with
  | .string | .interpolatedString => some .string
  | .char => some .char
  | .true | .false => some .boolean
  | .integer => some (integerType text)
  | .real => some (realType text)
  | .null => none

end CultureLint.LiteralKind
