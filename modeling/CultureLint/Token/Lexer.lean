import CultureLint.SyntaxError
import CultureLint.Text.Alphabetic
import CultureLint.Text.Blank
import CultureLint.Text.Numeric
import CultureLint.Text.Slice
import CultureLint.Token.Literal

/-! From text to tokens. The text is first cut into lexemes, which leave nothing out; the tokens, the
directives and the file header are then read off the lexemes with their places. -/

namespace CultureLint

/-- What a stretch of text is: blanks, one comment, one directive line, or one token. -/
inductive LexemeKind
  | blank
  | comment
  | directive
  | token (kind : TokenKind)
deriving DecidableEq, Repr

/-- A stretch of text and what it is. -/
structure Lexeme where
  kind : LexemeKind
  text : List Char
deriving DecidableEq, Repr

namespace Lexeme

/-! ### Single lexemes -/

def isIdentifierStart (c : Char) : Bool := c == '_' || Text.isAlphabetic c

def isIdentifierPart (c : Char) : Bool := c == '_' || Text.isAlphabetic c || Text.isNumeric c

/-- Whether an identifier begins here, perhaps with an `@`. -/
def startsIdentifier : List Char → Bool
  | c :: cs => isIdentifierStart c || (c == '@' && cs.head?.any isIdentifierStart)
  | [] => false

/-- A block comment from behind its opening on, up to and including the first closing. -/
def scanComment : List Char → Option (List Char × List Char)
  | [] => none
  | '*' :: '/' :: cs => some (['*', '/'], cs)
  | c :: cs => Token.consume c (scanComment cs)

/-- Whether an identifier is a reserved word. -/
def wordKind (word : List Char) : TokenKind :=
  if Token.isReserved (String.ofList word) then .keyword else .identifier

/-- The first operator of the list that the text begins with. -/
def operator? (cs : List Char) : Option (List Char) :=
  (Token.operators.map String.toList).find? (·.isPrefixOf cs)

/-- The token at the front of a text. -/
def scanToken (c : Char) (cs : List Char) :
    Except SyntaxError.Cause (TokenKind × List Char × List Char) :=
  match Token.openString? (c :: cs) with
  | some (style, opening, rest) =>
    match Token.scanString style .text rest with
    | some (body, rest) => .ok (.string, opening ++ body, rest)
    | none => .error .unterminatedString
  | none =>
    if c = '\x27' then
      match Token.scanChar false cs with
      | some (body, rest) => .ok (.char, c :: body, rest)
      | none => .error .unterminatedChar
    else if Token.startsNumber (c :: cs) then .ok (Token.scanNumber (c :: cs))
    else if startsIdentifier (c :: cs) then
      let word := c :: cs.takeWhile isIdentifierPart
      .ok (wordKind word, word, cs.dropWhile isIdentifierPart)
    else
      match operator? (c :: cs) with
      | some op => .ok (.punctuation, op, (c :: cs).drop op.length)
      | none => .error (.unexpectedCharacter c)

/-- The lexeme at the front of a text. A `#` opens a directive where only blanks and comments stand
before it on its line. -/
def scan (lineStart : Bool) (c : Char) (cs : List Char) :
    Except SyntaxError.Cause (Lexeme × List Char) :=
  let toLineEnd (kind : LexemeKind) : Lexeme × List Char :=
    (⟨kind, (c :: cs).takeWhile (· != '\n')⟩, (c :: cs).dropWhile (· != '\n'))
  if Text.isBlank c then
    .ok (⟨.blank, (c :: cs).takeWhile Text.isBlank⟩, (c :: cs).dropWhile Text.isBlank)
  else if c = '/' && cs.head? = some '/' then .ok (toLineEnd .comment)
  else if c = '/' && cs.head? = some '*' then
    match scanComment cs.tail with
    | some (body, rest) => .ok (⟨.comment, c :: '*' :: body⟩, rest)
    | none => .error .unterminatedComment
  else if c = '#' && lineStart then .ok (toLineEnd .directive)
  else do
    let (kind, text, rest) ← scanToken c cs
    return (⟨.token kind, text⟩, rest)

/-- Whether a directive may follow a lexeme: after a token only behind the next line end. -/
def lineStartAfter (lineStart : Bool) (lexeme : Lexeme) : Bool :=
  match lexeme.kind with
  | .blank => lineStart || lexeme.text.contains '\n'
  | .comment | .directive => lineStart
  | .token _ => false

/-! ### All lexemes -/

/-- The first lexemes of a text, at most as many as the bound. -/
def scanUpTo : Nat → Bool → Nat → List Char → Except SyntaxError (List Lexeme)
  | 0, _, _, _ => .ok []
  | _ + 1, _, _, [] => .ok []
  | bound + 1, lineStart, offset, c :: cs =>
    match scan lineStart c cs with
    | .error cause => .error ⟨offset, cause⟩
    | .ok (lexeme, rest) => do
      let offset := offset + Text.byteLength lexeme.text
      let lexemes ← scanUpTo bound (lexeme.lineStartAfter lineStart) offset rest
      return lexeme :: lexemes

/-- The lexemes of a text: each takes up a character, so there are at most as many as characters. -/
def ofText (cs : List Char) : Except SyntaxError (List Lexeme) := scanUpTo cs.length true 0 cs

end Lexeme

/-- The tokens and directives of a text, and the span of the comments that it opens with. -/
structure Lexed where
  tokens : List Token
  directives : List Directive
  header : Option Span
deriving DecidableEq, Repr

namespace Lexed

/-- The tokens among lexemes that start at an offset, counted from an index on. -/
def tokensFrom (offset index : Nat) : List Lexeme → List Token
  | [] => []
  | ⟨.token kind, text⟩ :: rest =>
    ⟨index, kind, String.ofList text, offset⟩ ::
      tokensFrom (offset + Text.byteLength text) (index + 1) rest
  | ⟨_, text⟩ :: rest => tokensFrom (offset + Text.byteLength text) index rest

/-- The directives among lexemes that start at an offset. -/
def directivesFrom (offset : Nat) : List Lexeme → List Directive
  | [] => []
  | ⟨.directive, text⟩ :: rest =>
    ⟨Text.trim (String.ofList text.tail), Span.ofLength offset (Text.byteLength text)⟩ ::
      directivesFrom (offset + Text.byteLength text) rest
  | ⟨_, text⟩ :: rest => directivesFrom (offset + Text.byteLength text) rest

/-- The span of the comments before the first token or directive, with what was found before. -/
def headerFrom (offset : Nat) (found : Option Span) : List Lexeme → Option Span
  | ⟨.blank, text⟩ :: rest => headerFrom (offset + Text.byteLength text) found rest
  | ⟨.comment, text⟩ :: rest =>
    let here := Span.ofLength offset (Text.byteLength text)
    headerFrom (offset + Text.byteLength text) (some (found.elim here (·.cover here))) rest
  | _ => found

def ofLexemes (lexemes : List Lexeme) : Lexed where
  tokens := tokensFrom 0 0 lexemes
  directives := directivesFrom 0 lexemes
  header := headerFrom 0 none lexemes

/-- The tokens of a text. -/
def ofText (text : String) : Except SyntaxError Lexed := ofLexemes <$> Lexeme.ofText text.toList

end Lexed

end CultureLint
