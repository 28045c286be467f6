import CultureLint.Text.Quoted

/-! Why a text is not a program. Every refusal names the byte where reading stopped and a cause; the
wording of all of them is in one place. -/

namespace CultureLint

/-- What a reader of tokens misses, or finds and does not support. -/
inductive Complaint
  | expected (punctuation : String)
  | expectedIdentifier
  | expectedDeclaration
  | expectedTypeKeyword
  | expectedAccessor
  | expectedType
  | expectedExpression
  | nestedType
  | genericType
  | typeTest
  | objectInitializer
  | conditionalAccess
deriving DecidableEq, Repr

namespace Complaint

def message : Complaint → String
  | .expected punctuation => "expected `" ++ punctuation ++ "`"
  | .expectedIdentifier => "expected identifier"
  | .expectedDeclaration => "expected a namespace or type declaration"
  | .expectedTypeKeyword => "expected `class`, `struct` or `interface`"
  | .expectedAccessor => "expected `get`, `set` or `init`"
  | .expectedType => "expected type"
  | .expectedExpression => "expected expression"
  | .nestedType => "nested types are not supported"
  | .genericType => "generic types are not supported"
  | .typeTest => "type test expressions are not supported"
  | .objectInitializer => "object initializers are not supported"
  | .conditionalAccess => "null-conditional access and lambdas are not supported"

end Complaint

namespace SyntaxError

/-- The causes: an open comment or literal, a stray character, or a complaint about the token found
at the place, `none` being the end of the input. A complaint may also stand alone. -/
inductive Cause
  | unterminatedComment
  | unterminatedString
  | unterminatedChar
  | unexpectedCharacter (c : Char)
  | unexpectedToken (complaint : Complaint) (found : Option String)
  | plain (complaint : Complaint)
deriving DecidableEq, Repr

def Cause.message : Cause → String
  | .unterminatedComment => "unterminated block comment"
  | .unterminatedString => "unterminated string literal"
  | .unterminatedChar => "unterminated char literal"
  | .unexpectedCharacter c => "unexpected character " ++ Text.quoteChar c
  | .unexpectedToken complaint found =>
    complaint.message ++ " (found `" ++ found.getD "end of input" ++ "`)"
  | .plain complaint => complaint.message

end SyntaxError

/-- A refusal: the byte where it happened, and why. -/
structure SyntaxError where
  offset : Nat
  cause : SyntaxError.Cause
deriving DecidableEq, Repr

namespace SyntaxError

def message (e : SyntaxError) : String :=
  "syntax error at byte " ++ toString e.offset ++ ": " ++ e.cause.message

end SyntaxError

end CultureLint
