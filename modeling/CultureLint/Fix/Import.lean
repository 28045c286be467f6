import CultureLint.Fix.Session

/-! Making a namespace known at a place of a document: finding out whether it is, and adding a `using`
line where it is not. -/

namespace CultureLint

/-! ### Scope -/

/-- A namespace around a place: its name as it is declared there, and its `using` lines. -/
structure EnclosingNamespace where
  name : QualifiedName
  usings : List Using
deriving DecidableEq, Repr

namespace NamespaceMember

mutual

/-- The namespaces of a declaration that hold a position or touch it, each before those inside it. -/
def enclosing (position : Nat) : NamespaceMember → List EnclosingNamespace
  | .namespaceDecl name _ usings members span =>
    if span.start ≤ position && position ≤ span.stop then
      ⟨name, usings⟩ :: enclosingAll position members
    else []
  | .typeDecl _ => []

/-- The namespaces of several declarations that hold a position or touch it. -/
def enclosingAll (position : Nat) : List NamespaceMember → List EnclosingNamespace
  | [] => []
  | member :: members => enclosing position member ++ enclosingAll position members

end

end NamespaceMember

/-- Whether one of the lines imports the namespace. -/
def imports (usings : List Using) (space : String) : Bool :=
  usings.any fun u => u.importsNamespace && u.name.dotted == space

/-- Whether a namespace is the other one or lies around it. -/
def coversNamespace (space inner : String) : Bool :=
  inner == space || (space.toList ++ ['.']).isPrefixOf inner.toList

/-- Whether one of the namespaces, which lie in each other, is covered by a namespace or imports it. -/
def enclosingKnows (space : String) (outer : String) : List EnclosingNamespace → Bool
  | [] => false
  | e :: inner =>
    let qualified := joinName outer e.name.dotted
    coversNamespace space qualified || imports e.usings space ||
      enclosingKnows space qualified inner

namespace CompilationUnit

/-- The namespaces that hold a position or touch it. -/
def enclosing (unit : CompilationUnit) (position : Nat) : List EnclosingNamespace :=
  NamespaceMember.enclosingAll position unit.members

/-- Whether a namespace is imported at a position, or lies around it. -/
def isInScope (unit : CompilationUnit) (space : String) (position : Nat) : Bool :=
  imports unit.usings space || enclosingKnows space "" (unit.enclosing position)

end CompilationUnit

/-! ### The place of a new line -/

/-- Whether a namespace is `System` or inside it. -/
def isSystem (name : String) : Bool := coversNamespace "System" name

/-- The order of imports: `System` first, and then by characters. -/
def compareImports (a b : String) : Ordering :=
  (compare (isSystem b) (isSystem a)).then (compare a b)

/-- Whether no name comes before its neighbour in front of it. -/
def importsSorted : List String → Bool
  | a :: b :: rest => compareImports a b != .gt && importsSorted (b :: rest)
  | _ => true

/-- The line end that a text uses. -/
def lineEnding (text : String) : String :=
  if Text.hasPiece ['\r', '\n'] text.toList then "\r\n" else "\n"

/-- The blanks between the start of a line and an offset in it, if there is nothing else. -/
def indentationAt (text : String) (offset : Nat) : String :=
  match Text.splitAt? offset text.toList with
  | none => ""
  | some (before, _) =>
    let line := (before.reverse.takeWhile (· != '\n')).reverse
    if line.all Text.isBlank then String.ofList line else ""

/-- The line that imports a namespace. -/
def usingLine (space : String) : String := "using " ++ space ++ ";"

/-- Where a new line goes in a list of `using` lines, and what to put there: before the first import
that comes later, if the imports are sorted, and else behind the last of them. -/
def insertionInList? (text : String) (usings : List Using) (space : String) :
    Option (Nat × String) := do
  let first ← usings.head?
  let plain := usings.filter fun u => u.importsNamespace && !u.isGlobal
  let next :=
    if importsSorted (plain.map (·.name.dotted)) then
      plain.find? fun u => compareImports u.name.dotted space == .gt
    else none
  match next with
  | some next =>
    let indent := indentationAt text next.span.start
    return (next.span.start, usingLine space ++ lineEnding text ++ indent)
  | none =>
    let last ← plain.getLast?.or usings.getLast?
    let indent := indentationAt text first.span.start
    return (last.span.stop, lineEnding text ++ indent ++ usingLine space)

def NamespaceMember.span : NamespaceMember → Span
  | .namespaceDecl _ _ _ _ span => span
  | .typeDecl decl => decl.span

/-- Where a document without any `using` lines is opened with one, and what to put there. -/
def openingInsertion (text : String) (unit : CompilationUnit) (space : String) : Nat × String :=
  let offset := unit.members.head?.elim text.utf8ByteSize (·.span.start)
  (offset, usingLine space ++ lineEnding text ++ lineEnding text)

/-- The innermost `using` lines around a position. -/
def CompilationUnit.usingsAt (unit : CompilationUnit) (position : Nat) : List Using :=
  let lists := (unit.enclosing position).reverse.map (·.usings)
  (lists.find? fun usings => !usings.isEmpty).getD unit.usings

/-- Where a namespace is imported for a position, and what to put there. -/
def Document.importInsertion (d : Document) (space : String) (position : Nat) : Nat × String :=
  (insertionInList? d.text (d.tree.unit.usingsAt position) space).getD
    (openingInsertion d.text d.tree.unit space)

/-! ### Hosts -/

/-- What the surroundings do when an import is asked for: add a line, or nothing, or fail, or cancel
the work and then do what other surroundings do. -/
inductive ImportHost
  | adding
  | absent
  | failing
  | cancelThen (answer : ImportHost)
deriving DecidableEq, Repr

/-- Surroundings that cancel the work and add the line all the same. -/
def ImportHost.cancelling : ImportHost := .cancelThen .adding

/-- What became of a request for an import. -/
inductive ImportOutcome
  | alreadyInScope
  | inserted (document : Document)
  | unavailable

namespace Document

variable (d : Document)

/-- Adds a `using` line. -/
def addImport (space : String) (position : Nat) : Run Document :=
  let (offset, inserted) := d.importInsertion space position
  d.commitEdit ((EditSession.ofDocument d).insert? offset inserted)

/-- Asks the surroundings for an import. -/
def insertImport (host : ImportHost) (space : String) (position : Nat) : Run (Option Document) := do
  match host with
  | .adding => some <$> d.addImport space position
  | .absent => return none
  | .failing => throw (.syntaxError ⟨0, .plain (.expected ";")⟩)
  | .cancelThen answer =>
    Run.cancel
    insertImport answer space position

/-- Makes a namespace known at a position, and says how. -/
def resolveImport (host : ImportHost) (space : String) (position : Nat) : Run ImportOutcome := do
  Run.check
  if d.tree.unit.isInScope space position then
    return .alreadyInScope
  match ← d.insertImport host space position with
  | some edited => return .inserted edited
  | none => return .unavailable

/-- The document in which a namespace is known at a position, as far as the surroundings allow. -/
def ensureImport (host : ImportHost) (space : String) (position : Nat) : Run Document := do
  match ← d.resolveImport host space position with
  | .inserted edited => return edited
  | .alreadyInScope | .unavailable => return d

end Document

end CultureLint
