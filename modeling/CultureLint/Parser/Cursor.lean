import CultureLint.SyntaxError
import CultureLint.Token.Basic
import CultureLint.Tree.Expr

/-! Reading a list of tokens. A parser goes from one cursor to the next or stops with an error; it
looks at most two tokens ahead, and goes back only where it speculates. Repetition is bounded by the
number of tokens left: every round takes at least one of them. -/

namespace CultureLint

/-- A place among the tokens of a text: those still to read, the end of the last one read, the size
of the text, and the number for the next expression. -/
structure Cursor where
  rest : List Token
  previousEnd : Nat
  size : Nat
  nextId : Nat
deriving DecidableEq, Repr

namespace Cursor

/-- Before the first token of a text of the given size. -/
def ofTokens (tokens : List Token) (size : Nat) : Cursor := ⟨tokens, 0, size, 0⟩

def first? (s : Cursor) : Option Token := s.rest.head?

def second? (s : Cursor) : Option Token := s.rest.tail.head?

/-- Where the next token starts, or the end of the text. -/
def offset (s : Cursor) : Nat := s.first?.elim s.size Token.start

/-- Behind the next token. -/
def advance (s : Cursor) : Cursor :=
  match s.rest with
  | [] => s
  | t :: rest => { s with rest, previousEnd := t.span.stop }

/-- The error that complains about the next token. -/
def refuse (s : Cursor) (complaint : Complaint) : SyntaxError :=
  ⟨s.offset, .unexpectedToken complaint (s.first?.map Token.text)⟩

end Cursor

/-- A reader of tokens. -/
abbrev Parser := StateT Cursor (Except SyntaxError)

namespace Parser

variable {α : Type}

/-! ### One token -/

/-- Stops with a complaint about the next token. -/
def fail (complaint : Complaint) : Parser α := fun s => .error (s.refuse complaint)

/-- Asks about the cursor. -/
def ask (f : Cursor → α) : Parser α := fun s => .ok (f s, s)

def advance : Parser Unit := modify Cursor.advance

def offset : Parser Nat := ask Cursor.offset

/-- Whether the next token has a property. -/
def at? (p : Token → Bool) : Parser Bool := ask (·.first?.any p)

/-- Whether the next two tokens have a property each. -/
def at2? (p q : Token → Bool) : Parser Bool := ask fun s => s.first?.any p && s.second?.any q

def atPunct (punctuation : String) : Parser Bool := at? (·.isPunct punctuation)

def atKeyword (word : String) : Parser Bool := at? (·.isKeyword word)

/-- Whether one of the words comes next. -/
def atKeywords (words : List String) : Parser Bool := at? fun t => words.any t.isKeyword

def atEnd : Parser Bool := ask (·.rest.isEmpty)

/-- Takes the next token if it has a property, and says whether it did. -/
def eat (p : Token → Bool) : Parser Bool := do
  if ← at? p then
    advance
    return true
  return false

/-- Takes the next two tokens if they have a property each, and says whether it did. -/
def eat2 (p q : Token → Bool) : Parser Bool := do
  if ← at2? p q then
    advance
    advance
    return true
  return false

def eatPunct (punctuation : String) : Parser Bool := eat (·.isPunct punctuation)

def eatKeyword (word : String) : Parser Bool := eat (·.isKeyword word)

def expectPunct (punctuation : String) : Parser Unit := do
  unless ← eatPunct punctuation do
    fail (.expected punctuation)

def expectIdent : Parser Ident := do
  match ← ask Cursor.first? with
  | some t =>
    if t.isIdentifier then
      advance
      return ⟨t.name, t.span⟩
    else fail .expectedIdentifier
  | none => fail .expectedIdentifier

/-- The span from an offset to the end of the last token read. -/
def spanFrom (start : Nat) : Parser Span := ask fun s => Span.upTo start s.previousEnd

/-- A new number for an expression with the given span. -/
def newNode (span : Span) : Parser Node := fun s =>
  .ok (⟨s.nextId, span⟩, { s with nextId := s.nextId + 1 })

/-- A new number for an expression that began at an offset and ends with the last token read. -/
def newNodeFrom (start : Nat) : Parser Node := do newNode (← spanFrom start)

/-! ### Many tokens -/

def manyUpTo (p : Parser (Option α)) : Nat → Parser (List α)
  | 0 => return []
  | bound + 1 => do
    match ← p with
    | none => return []
    | some a => return a :: (← manyUpTo p bound)

/-- What a parser reads again and again, until it reads nothing. -/
def many (p : Parser (Option α)) : Parser (List α) := do
  manyUpTo p ((← ask (·.rest.length)) + 1)

def growUpTo (step : α → Parser (Option α)) : Nat → α → Parser α
  | 0, a => return a
  | bound + 1, a => do
    match ← step a with
    | none => return a
    | some a => growUpTo step bound a

/-- Grows a value step by step, until a step leaves it alone. -/
def grow (step : α → Parser (Option α)) (a : α) : Parser α := do
  growUpTo step ((← ask (·.rest.length)) + 1) a

/-- Reads nothing, or the item behind a comma. -/
def afterComma (item : Parser α) : Parser (Option α) := do
  if ← eatPunct "," then some <$> item else return none

/-- One or more items with commas between them. -/
def commaList (item : Parser α) : Parser (List α) := do
  return (← item) :: (← many (afterComma item))

/-- Tries to read something, and stays where it was if that fails or gives nothing. -/
def speculate (p : Parser (Option α)) : Parser (Option α) := fun s =>
  match p s with
  | .ok (some a, next) => .ok (some a, next)
  | _ => .ok (none, s)

/-- The last token of a balanced group and the tokens behind it, with some groups already open. -/
def closeGroup? (opening closing : String) : Int → List Token → Option (Token × List Token)
  | _, [] => none
  | depth, t :: rest =>
    if t.isPunct opening then closeGroup? opening closing (depth + 1) rest
    else if t.isPunct closing then
      if depth = 1 then some (t, rest) else closeGroup? opening closing (depth - 1) rest
    else closeGroup? opening closing depth rest

/-- Takes all tokens up to the one that closes as many groups as were opened on the way. -/
def skipGroup (opening closing : String) : Parser Unit := fun s =>
  match closeGroup? opening closing 0 s.rest with
  | some (t, rest) => .ok ((), { s with rest, previousEnd := t.span.stop })
  | none => .error ⟨s.size, .unexpectedToken (.expected closing) none⟩

end Parser

end CultureLint
