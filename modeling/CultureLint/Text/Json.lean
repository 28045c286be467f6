/-! Values as JSON text, laid out over several lines. -/

namespace CultureLint.Text

/-- A value without fractions, negative numbers or truth values. -/
inductive JsonValue
  | null
  | number (n : Nat)
  | string (s : String)
  | array (items : List JsonValue)
  | object (fields : List (String × JsonValue))

namespace JsonValue

/-- A hexadecimal number of four digits. -/
def fourDigits (n : Nat) : String :=
  let digits := Nat.toDigits 16 n
  String.ofList (List.replicate (4 - digits.length) '0' ++ digits)

/-- A character as it is written inside a string. -/
def escape (c : Char) : String :=
  match c with
  | '\x22' => "\\\""
  | '\\' => "\\\\"
  | '\x08' => "\\b"
  | '\x0c' => "\\f"
  | '\n' => "\\n"
  | '\r' => "\\r"
  | '\t' => "\\t"
  | _ => if c.toNat < 0x20 then "\\u" ++ fourDigits c.toNat else c.toString

def quote (s : String) : String := "\"" ++ String.join (s.toList.map escape) ++ "\""

/-- A line end and blanks up to a depth. -/
def newLine (depth : Nat) : String := "\n" ++ String.ofList (List.replicate (2 * depth) ' ')

mutual

/-- A value, when its first line is already indented to a depth. -/
def renderAt (depth : Nat) : JsonValue → String
  | .null => "null"
  | .number n => toString n
  | .string s => quote s
  | .array [] => "[]"
  | .array (item :: items) =>
    "[" ++ newLine (depth + 1) ++ renderAt (depth + 1) item ++ renderItems (depth + 1) items ++
      newLine depth ++ "]"
  | .object [] => "\x7b\x7d"
  | .object ((name, value) :: fields) =>
    "\x7b" ++ newLine (depth + 1) ++ quote name ++ ": " ++ renderAt (depth + 1) value ++
      renderFields (depth + 1) fields ++ newLine depth ++ "\x7d"

/-- The items of an array behind the first. -/
def renderItems (depth : Nat) : List JsonValue → String
  | [] => ""
  | item :: items => "," ++ newLine depth ++ renderAt depth item ++ renderItems depth items

/-- The fields of an object behind the first. -/
def renderFields (depth : Nat) : List (String × JsonValue) → String
  | [] => ""
  | (name, value) :: fields =>
    "," ++ newLine depth ++ quote name ++ ": " ++ renderAt depth value ++ renderFields depth fields

end

def render (v : JsonValue) : String := v.renderAt 0

end JsonValue

end CultureLint.Text
