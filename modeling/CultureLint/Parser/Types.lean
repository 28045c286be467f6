import CultureLint.Parser.Cursor

/-! Reading names and types. -/

namespace CultureLint.Parser

/-- One more part of a dotted name. A point belongs to it only before an identifier. -/
def namePart? : Parser (Option Ident) := do
  if ← at2? (·.isPunct ".") Token.isIdentifier then
    advance
    some <$> expectIdent
  else return none

/-- A dotted name, perhaps behind `global::`. -/
def qualifiedName : Parser QualifiedName := do
  let start ← offset
  let global ← eat2 (·.spells "global") (·.isPunct "::")
  let head ← expectIdent
  let tail ← many namePart?
  return ⟨global, head, tail, ← spanFrom start⟩

/-- A type without `?` and `[]` behind it. -/
def simpleType : Parser TypeExpr := do
  match ← ask Cursor.first? with
  | none => fail .expectedType
  | some t =>
    match t.kind with
    | .keyword =>
      match Primitive.ofWord? t.text with
      | some type =>
        advance
        return .primitive type t.span
      | none => fail .expectedType
    | .identifier => .named <$> qualifiedName
    | _ => fail .expectedType

/-- Whether a `?` before the token makes a type nullable and does not open a conditional. -/
def followsNullable (t : Token) : Bool := t.isIdentifier || t.isPunct "[" || t.isPunct ")"

/-- One `?` or `[]` behind a type. -/
def typeSuffix (start : Nat) (type : TypeExpr) : Parser (Option TypeExpr) := do
  if ← at2? (·.isPunct "?") followsNullable then
    advance
    return some (.nullable type (← spanFrom start))
  else if ← eat2 (·.isPunct "[") (·.isPunct "]") then
    return some (.array type (← spanFrom start))
  else return none

def type : Parser TypeExpr := do
  let start ← offset
  let simple ← simpleType
  if ← atPunct "<" then
    fail .genericType
  grow (typeSuffix start) simple

/-! ### Small words -/

/-- One of the words, which says how a value is passed. -/
def passing? (words : List String) : Parser (Option Unit) := do
  if ← atKeywords words then
    advance
    return some ()
  else return none

end CultureLint.Parser
