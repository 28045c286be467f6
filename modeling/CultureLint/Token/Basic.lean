import CultureLint.Text.Span

/-! Tokens of C# source, and the two closed vocabularies: reserved words and operators. A contextual
word such as `var` or `get` is an identifier; the grammar decides where it means more. -/

namespace CultureLint

/-- The classes of tokens. A string literal is of one class whether it is regular, verbatim or
interpolated, and includes its quotes. -/
inductive TokenKind
  | identifier
  | keyword
  | integer
  | real
  | string
  | char
  | punctuation
deriving DecidableEq, Repr

/-- A token: its position among the tokens, its class, its text, and the byte where it starts. -/
structure Token where
  index : Nat
  kind : TokenKind
  text : String
  start : Nat
deriving DecidableEq, Repr

/-- A `#` line: the trimmed text after the `#`, and the span of the line from the `#` on. -/
structure Directive where
  text : String
  span : Span
deriving DecidableEq, Repr

namespace Token

/-- The reserved words. -/
def keywords : List String :=
  ["abstract", "as", "base", "bool", "break", "byte", "case", "catch", "char", "checked",
   "class", "const", "continue", "decimal", "default", "delegate", "do", "double", "else",
   "enum", "event", "explicit", "extern", "false", "finally", "fixed", "float", "for",
   "foreach", "goto", "if", "implicit", "in", "int", "interface", "internal", "is", "lock",
   "long", "namespace", "new", "null", "object", "operator", "out", "override", "params",
   "private", "protected", "public", "readonly", "ref", "return", "sbyte", "sealed",
   "short", "static", "string", "struct", "this", "true", "uint", "ulong", "using",
   "virtual", "void", "while"]

/-- The operators, no one after a shorter one that begins it. -/
def operators : List String :=
  ["<<=", "??=",
   "=>", "==", "!=", "<=", ">=", "&&", "||", "++", "--", "+=", "-=", "*=", "/=", "%=",
   "&=", "|=", "^=", "<<", "??", "?.", "::", "->",
   "\x7b", "\x7d", "(", ")", "[", "]", ";", ",", ".", ":", "?", "+", "-", "*", "/", "%", "&",
   "|", "^", "!", "~", "=", "<", ">", "@"]

/-- Whether a word is reserved. -/
def isReserved (word : String) : Bool := keywords.contains word

/-- The bytes of the token. -/
def span (t : Token) : Span := Span.ofLength t.start t.text.utf8ByteSize

def isPunct (t : Token) (punctuation : String) : Bool :=
  t.kind == .punctuation && t.text == punctuation

def isKeyword (t : Token) (word : String) : Bool := t.kind == .keyword && t.text == word

def isIdentifier (t : Token) : Bool := t.kind == .identifier

/-- The name that an identifier spells: a leading `@` only says that it is not a reserved word. -/
def name (t : Token) : String := String.ofList (t.text.toList.dropWhile (· == '@'))

/-- Whether the token is an identifier that spells the word. -/
def spells (t : Token) (word : String) : Bool := t.isIdentifier && t.name == word

end Token

end CultureLint
