import CultureLint.Parser.Grammar
import CultureLint.Text.Slice
import CultureLint.Token.Lexer

/-! Reading declarations and whole documents. -/

namespace CultureLint

namespace Parser

/-- The name that a `using` line gives, if it gives one. -/
def usingAlias? : Parser (Option Ident) := do
  if ← at2? Token.isIdentifier (·.isPunct "=") then
    let ident ← expectIdent
    advance
    return some ident
  else return none

/-- The rest of a `using` line. -/
def usingLine (start : Nat) (isGlobal : Bool) : Parser Using := do
  let isStatic ← eatKeyword "static"
  let aliasIdent ← usingAlias?
  let name ← qualifiedName
  expectPunct ";"
  return ⟨isGlobal, isStatic, aliasIdent, name, ← spanFrom start⟩

/-- The `using` line that comes next, if there is one. -/
def using? : Parser (Option Using) := do
  let start ← offset
  let isGlobal ← at2? (·.spells "global") (·.isKeyword "using")
  if isGlobal then
    advance
  if ← eatKeyword "using" then some <$> usingLine start isGlobal else return none

/-- The `using` lines that come next. -/
def usings : Parser (List Using) := many using?

/-- One attribute; its arguments are passed over. -/
def oneAttribute : Parser Attribute := do
  let start ← offset
  let name ← qualifiedName
  if ← atPunct "(" then
    skipGroup "(" ")"
  return ⟨name, ← spanFrom start⟩

/-- The attributes in the brackets that come next. -/
def attributeList? : Parser (Option (List Attribute)) := do
  if ← eatPunct "[" then
    let items ← commaList oneAttribute
    expectPunct "]"
    return some items
  else return none

/-- The attributes in all the brackets that come next. -/
def attributes : Parser (List Attribute) := List.flatten <$> many attributeList?

def modifierWords : List String :=
  ["public", "private", "protected", "internal", "static", "abstract", "sealed", "readonly",
   "override", "virtual", "const", "extern", "new"]

/-- Words that are modifiers only before another word. -/
def contextualModifiers : List String := ["partial", "async"]

/-- Whether a token, in front of another, is a modifier. -/
def isModifier (t : Token) (next : Option Token) : Bool :=
  (t.kind == .keyword && modifierWords.contains t.text) ||
    (contextualModifiers.contains t.text &&
      next.any fun n => n.kind == .identifier || n.kind == .keyword)

/-- The modifier that comes next. -/
def modifier? : Parser (Option String) := do
  match ← ask fun s => s.first?.filter (isModifier · s.second?) with
  | some t =>
    advance
    return some t.text
  | none => return none

/-- The modifiers that come next. -/
def modifiers : Parser (List String) := many modifier?

/-- The base types behind a colon. -/
def bases : Parser (List TypeExpr) := do
  if ← eatPunct ":" then commaList Parser.type else return []

end Parser

namespace Grammar

open CultureLint.Parser

variable (g : Grammar)

/-! ### Members -/

/-- Passes over the default value of a parameter. -/
def defaultValue : Parser Unit := do
  if ← eatPunct "=" then
    let _ ← g.expr

/-- A parameter. Its attributes, the way it is passed and its default value play no part. -/
def parameter : Parser Parameter := do
  let _ ← attributes
  let _ ← many (passing? ["ref", "out", "in", "params", "this"])
  let type ← Parser.type
  let name ← expectIdent
  g.defaultValue
  return ⟨type, name⟩

def parameters : Parser (List Parameter) := do
  expectPunct "("
  if ← eatPunct ")" then
    return []
  let items ← commaList g.parameter
  expectPunct ")"
  return items

/-- The body of a method or accessor, or the semicolon in its place. -/
def body : Parser (Option Body) := do
  if ← eatPunct ";" then
    return none
  else if ← eatPunct "=>" then
    let value ← g.expr
    expectPunct ";"
    return some (.arrow value)
  else
    let start ← offset
    let statements ← g.block
    return some (.block statements (← spanFrom start))

/-- Which accessor a token names. -/
def accessorKind? (t : Token) : Option AccessorKind :=
  if t.spells "get" then some .get
  else if t.spells "set" then some .set
  else if t.spells "init" then some .init
  else none

/-- The next accessor, up to the closing brace. -/
def accessor? : Parser (Option Accessor) := do
  if ← eatPunct "\x7d" then
    return none
  let _ ← attributes
  let _ ← modifiers
  match ← ask (·.first?.bind accessorKind?) with
  | none => fail .expectedAccessor
  | some kind =>
    advance
    return some ⟨kind, ← g.body⟩

/-- The accessors of a property, in braces. -/
def accessors : Parser (List Accessor) := do
  expectPunct "\x7b"
  many g.accessor?

/-- Passes over what a constructor calls first. -/
def initializer : Parser Unit := do
  if ← eatPunct ":" then
    advance
    skipGroup "(" ")"

/-- The value of a property behind its accessors. -/
def propertyValue? : Parser (Option Expr) := do
  if ← eatPunct "=" then
    let value ← g.expr
    expectPunct ";"
    return some value
  else return none

/-- What follows the type and the name of a member. -/
def memberRest (start : Nat) (attributes : List Attribute) (modifiers : List String) (type : TypeExpr)
    (name : Ident) : Parser MemberDecl := do
  if ← atPunct "(" then
    let parameters ← g.parameters
    let body ← g.body
    return .method ⟨attributes, modifiers, some type, name, parameters, body, ← spanFrom start⟩
  else if ← eatPunct "=>" then
    let value ← g.expr
    expectPunct ";"
    return .property ⟨attributes, modifiers, type, name, .arrow value, none, ← spanFrom start⟩
  else if ← atPunct "\x7b" then
    let items ← g.accessors
    let value ← g.propertyValue?
    return .property ⟨attributes, modifiers, type, name, .accessors items, value, ← spanFrom start⟩
  else
    let declarators ← g.declarators name
    expectPunct ";"
    return .field ⟨attributes, modifiers, type, declarators, ← spanFrom start⟩

/-- A member of the type with the given name. -/
def memberDecl (typeName : String) : Parser MemberDecl := do
  let start ← offset
  let attributes ← attributes
  let modifiers ← modifiers
  if ← atKeywords ["class", "struct", "interface"] then fail .nestedType
  else if ← at2? (·.spells typeName) (·.isPunct "(") then
    let name ← expectIdent
    let parameters ← g.parameters
    initializer
    let body ← g.body
    return .method ⟨attributes, modifiers, none, name, parameters, body, ← spanFrom start⟩
  else
    let type ← Parser.type
    let name ← expectIdent
    g.memberRest start attributes modifiers type name

/-! ### Types and namespaces -/

def typeForm : Parser TypeForm := do
  if ← eatKeyword "class" then return .classForm
  else if ← eatKeyword "struct" then return .structForm
  else if ← eatKeyword "interface" then return .interfaceForm
  else fail .expectedTypeKeyword

/-- The next member of the type with the given name, up to the closing brace. -/
def member? (typeName : String) : Parser (Option MemberDecl) := do
  if ← eatPunct "\x7d" then return none
  else if ← atEnd then fail (.expected "\x7d")
  else some <$> g.memberDecl typeName

def typeDecl : Parser TypeDecl := do
  let start ← offset
  let attributes ← attributes
  let modifiers ← modifiers
  let form ← typeForm
  let name ← expectIdent
  let bases ← bases
  expectPunct "\x7b"
  let members ← many (g.member? name.name)
  let _ ← eatPunct ";"
  return ⟨form, attributes, modifiers, name, bases, members, ← spanFrom start⟩

/-- Takes what stands behind the name of a namespace, and says whether it is for all of the file. -/
def namespaceOpening : Parser Bool := do
  if ← eatPunct ";" then return true
  else
    expectPunct "\x7b"
    return false

/-- Takes the end of a namespace. -/
def namespaceEnd (fileScoped : Bool) : Parser Unit := do
  unless fileScoped do
    expectPunct "\x7d"

/-- A namespace, given how its members are read. -/
def namespaceDecl (members : Parser (List NamespaceMember)) : Parser NamespaceMember := do
  let start ← offset
  advance
  let name ← qualifiedName
  let fileScoped ← namespaceOpening
  let usings ← usings
  let members ← members
  namespaceEnd fileScoped
  return .namespaceDecl name fileScoped usings members (← spanFrom start)

/-- The next namespace or type, up to a closing brace or the end. -/
def namespaceMember? (members : Parser (List NamespaceMember)) : Parser (Option NamespaceMember) := do
  if (← atEnd) || (← atPunct "\x7d") then return none
  else if ← atKeyword "namespace" then some <$> namespaceDecl members
  else some <$> .typeDecl <$> g.typeDecl

/-- Namespaces and types up to a closing brace or the end, with namespaces nested to at most the
given depth. -/
def namespaceMembers : Nat → Parser (List NamespaceMember)
  | 0 => fail .expectedDeclaration
  | depth + 1 => many (g.namespaceMember? (namespaceMembers depth))

end Grammar

/-! ### Documents -/

namespace Parser

/-- All of a document's code, with room for the given nesting. -/
def compilationUnit (depth : Nat) : Parser CompilationUnit := do
  let usings ← usings
  let members ← (Grammar.layered depth).namespaceMembers depth
  if ← atEnd then return ⟨usings, members, Span.ofLength 0 (← ask (·.size))⟩
  else fail .expectedDeclaration

/-- The result of a parser at the start of a text; nesting is never deeper than the tokens are many. -/
def runOn {α : Type} (p : Nat → Parser α) (tokens : List Token) (size : Nat) : Except SyntaxError α :=
  Prod.fst <$> p (tokens.length + 1) (Cursor.ofTokens tokens size)

end Parser

/-- Reads a document. -/
def SourceTree.ofText (text : String) : Except SyntaxError SourceTree := do
  let lexed ← Lexed.ofText text
  let unit ← Parser.runOn Parser.compilationUnit lexed.tokens text.utf8ByteSize
  return ⟨unit, lexed.directives, lexed.header⟩

/-- Reads the expression that a text begins with. -/
def Expr.ofText (text : String) : Except SyntaxError Expr := do
  let lexed ← Lexed.ofText text
  Parser.runOn (fun depth => (Grammar.layered depth).expr) lexed.tokens text.utf8ByteSize

end CultureLint
