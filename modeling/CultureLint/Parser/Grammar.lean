import CultureLint.Parser.Types
import CultureLint.Tree.Decl

/-! The grammar of expressions and statements. Its rules call each other; a rule enters another one
again only behind a token that it has taken, so the nesting is bounded by the number of tokens. The
grammar is therefore built in layers: each layer's rules use those of the layer below wherever a
token has been taken, and the lowest layer refuses everything. -/

namespace CultureLint

/-- The rules that nest: expressions, operands of an operator, operator chains of at least some
precedence, and statements. -/
structure Grammar where
  expr : Parser Expr
  operand : Parser Expr
  chain : Nat → Parser Expr
  stmt : Parser Stmt

namespace Grammar

open CultureLint.Parser

variable (g : Grammar)

/-! ### Expressions -/

/-- An argument. Its name, if it has one, and the way it is passed play no part. -/
def argument : Parser Expr := do
  let _ ← eat2 Token.isIdentifier (·.isPunct ":")
  let _ ← many (passing? ["ref", "out", "in"])
  g.expr

/-- Arguments between brackets. -/
def arguments (opening closing : String) : Parser (List Expr) := do
  expectPunct opening
  if ← eatPunct closing then
    return []
  let items ← commaList g.argument
  expectPunct closing
  return items

/-- A literal, a name or a word that is an expression of its own. -/
def atom? (t : Token) : Option (Node → Expr) :=
  match t.kind with
  | .integer => some (.literal · .integer t.text)
  | .real => some (.literal · .real t.text)
  | .char => some (.literal · .char t.text)
  | .string =>
    if "$".isPrefixOf t.text || "@$".isPrefixOf t.text then
      some (.literal · .interpolatedString t.text)
    else some (.literal · .string t.text)
  | .identifier => some (.name · t.name)
  | .keyword =>
    if t.text == "true" then some (.literal · .true t.text)
    else if t.text == "false" then some (.literal · .false t.text)
    else if t.text == "null" then some (.literal · .null t.text)
    else if t.text == "this" then some .this
    else (Primitive.ofWord? t.text).map fun type node => .primitive node type
  | .punctuation => none

/-- The rest of the creation of an object. -/
def creation (start : Nat) : Parser Expr := do
  let type ← Parser.type
  if ← atPunct "(" then
    let arguments ← g.arguments "(" ")"
    if ← atPunct "\x7b" then fail .objectInitializer
    else return .objectCreation (← newNodeFrom start) type arguments
  else fail .objectInitializer

/-- An expression that needs no operator around it, without what may be attached behind it. -/
def primary : Parser Expr := do
  let start ← offset
  match ← ask Cursor.first? with
  | none => fail .expectedExpression
  | some t =>
    match atom? t with
    | some atom =>
      advance
      return atom (← newNode t.span)
    | none =>
      if ← eatPunct "(" then
        let inner ← g.expr
        expectPunct ")"
        return .parenthesized (← newNodeFrom start) inner
      else if ← eatKeyword "new" then g.creation start
      else fail .expectedExpression

/-- One member, call, index or step behind an expression that began at `start`. -/
def attachment (start : Nat) (e : Expr) : Parser (Option Expr) := do
  if ← eatPunct "." then
    let name ← expectIdent
    return some (.memberAccess (← newNodeFrom start) e name)
  else if ← atPunct "(" then
    let arguments ← g.arguments "(" ")"
    return some (.invocation (← newNodeFrom start) e arguments)
  else if ← atPunct "[" then
    let arguments ← g.arguments "[" "]"
    return some (.elementAccess (← newNodeFrom start) e arguments)
  else if ← eatPunct "++" then
    return some (.step (← newNodeFrom start) true e)
  else if ← eatPunct "--" then
    return some (.step (← newNodeFrom start) false e)
  else if ← at? (fun t => t.isPunct "?." || t.isPunct "=>") then
    fail .conditionalAccess
  else return none

/-- Whether a parenthesized type before the token is a cast of what follows. -/
def followsCast (t : Token) : Bool :=
  match t.kind with
  | .identifier | .integer | .real | .string | .char => true
  | .keyword => !(t.isKeyword "is" || t.isKeyword "as")
  | .punctuation => t.isPunct "(" || t.isPunct "!" || t.isPunct "~"

/-- The type of a cast, if what comes next is one: a type in parentheses, and a name only where an
operand follows. -/
def readCastType : Parser (Option TypeExpr) := do
  expectPunct "("
  let type ← Parser.type
  expectPunct ")"
  if type.isPrimitiveBased || (← at? followsCast) then return some type else return none

/-- The type of a cast, or nothing taken. -/
def castType? : Parser (Option TypeExpr) := speculate readCastType

/-- What an operator token spells. -/
def spelled? {α : Type} (ofSpelling? : String → Option α) (t : Token) : Option α :=
  if t.kind = .punctuation then ofSpelling? t.text else none

/-- The operator before an operand. -/
abbrev unaryOp? (t : Token) : Option UnaryOp := spelled? UnaryOp.ofSpelling? t

/-- An operand: an operator or a cast before another one, or a primary expression. -/
def operandRule : Parser Expr := do
  let start ← offset
  match ← ask (·.first?.bind unaryOp?) with
  | some op =>
    advance
    let operand ← g.operand
    return .unary (← newNodeFrom start) op operand
  | none =>
    match ← castType? with
    | some type =>
      let operand ← g.operand
      return .cast (← newNodeFrom start) type operand
    | none =>
      let e ← g.primary
      grow (g.attachment e.span.start) e

/-- The operator behind an operand. -/
abbrev binaryOp? (t : Token) : Option BinaryOp := spelled? BinaryOp.ofSpelling? t

/-- One operator of at least the given precedence, and its right operand. -/
def link (least : Nat) (left : Expr) : Parser (Option Expr) := do
  match ← ask (·.first?.bind binaryOp?) with
  | none => return none
  | some op =>
    if op.precedence < least then return none
    else
      advance
      let right ← g.chain op.rightPrecedence
      return some (.binary (← newNode (left.span.cover right.span)) op left right)

/-- Operands with operators of at least the given precedence between them. -/
def chainRule (least : Nat) : Parser Expr := do
  let e ← grow (g.link least) (← g.operandRule)
  if ← atKeywords ["is", "as"] then fail .typeTest else return e

/-- A chain, or a choice that a chain decides. -/
def conditional : Parser Expr := do
  let condition ← g.chainRule 0
  if ← eatPunct "?" then
    let whenTrue ← g.expr
    expectPunct ":"
    let whenFalse ← g.expr
    return .conditional (← newNode (condition.span.cover whenFalse.span)) condition whenTrue whenFalse
  else return condition

/-- The operator of an assignment. -/
abbrev assignOp? (t : Token) : Option AssignOp := spelled? AssignOp.ofSpelling? t

/-- Any expression. -/
def exprRule : Parser Expr := do
  let target ← g.conditional
  match ← ask (·.first?.bind assignOp?) with
  | none => return target
  | some op =>
    advance
    let value ← g.expr
    return .assignment (← newNode (target.span.cover value.span)) op target value

/-! ### Statements -/

/-- The value of a declared variable. -/
def declarator (name : Ident) : Parser Declarator := do
  if ← eatPunct "=" then return ⟨name, some (← g.expr)⟩ else return ⟨name, none⟩

/-- Declared variables, of which the first is already named. -/
def declarators (first : Ident) : Parser (List Declarator) := do
  return (← g.declarator first) :: (← many (afterComma do g.declarator (← expectIdent)))

/-- `var` before a name, or a type. -/
def varOrType : Parser TypeExpr := do
  if ← at2? (·.spells "var") Token.isIdentifier then
    let start ← offset
    advance
    return .implicit (← spanFrom start)
  else Parser.type

/-- The type of a local declaration, if a variable with a value or a further mark follows. -/
def readLocalType : Parser (Option TypeExpr) := do
  let _ ← eatKeyword "const"
  let type ← varOrType
  if ← at2? Token.isIdentifier (fun t => t.isPunct "=" || t.isPunct ";" || t.isPunct ",") then
    return some type
  else return none

/-- The type of a local declaration, or nothing taken. -/
def localType? : Parser (Option TypeExpr) := speculate readLocalType

/-- The variables of a local declaration behind its type. -/
def localDeclarators : Parser (List Declarator) := do g.declarators (← expectIdent)

/-- The next statement, up to the closing brace. -/
def stmt? : Parser (Option Stmt) := do
  if ← eatPunct "\x7d" then return none
  else if ← atEnd then fail (.expected "\x7d")
  else some <$> g.stmt

/-- Statements in braces. -/
def block : Parser (List Stmt) := do
  expectPunct "\x7b"
  many g.stmt?

/-- The optional expression before a semicolon. -/
def valueBeforeSemicolon : Parser (Option Expr) := do
  if ← atPunct ";" then return none else some <$> g.expr

/-- The rest of an `if`. -/
def ifRule (start : Nat) : Parser Stmt := do
  expectPunct "("
  let condition ← g.expr
  expectPunct ")"
  let whenTrue ← g.stmt
  if ← eatKeyword "else" then
    let whenFalse ← g.stmt
    return .ifElse condition whenTrue whenFalse (← spanFrom start)
  else return .ifThen condition whenTrue (← spanFrom start)

/-- The rest of a `while`. -/
def whileRule (start : Nat) : Parser Stmt := do
  expectPunct "("
  let condition ← g.expr
  expectPunct ")"
  let body ← g.stmt
  return .whileLoop condition body (← spanFrom start)

/-- The variables of a local declaration and the semicolon behind them. -/
def localsEnd {α : Type} (locals : TypeExpr → List Declarator → Span → α) (start : Nat)
    (type : TypeExpr) : Parser α := do
  let declarators ← g.localDeclarators
  let span ← spanFrom start
  expectPunct ";"
  return locals type declarators span

/-- What a parser reads, and the semicolon behind it. -/
def withSemicolon {α : Type} (p : Parser α) : Parser α := do
  let a ← p
  expectPunct ";"
  return a

/-- A local declaration, or else what the given parser reads, up to the semicolon. -/
def localsOr {α : Type} (locals : TypeExpr → List Declarator → Span → α) (other : Parser α) :
    Parser α := do
  let start ← offset
  match ← localType? with
  | some type => g.localsEnd locals start type
  | none => withSemicolon other

/-- What stands before the first semicolon of a `for`, and the semicolon. -/
def forStart : Parser ForStart := do
  if ← eatPunct ";" then return .nothing
  else g.localsOr .locals (.expression <$> g.expr)

/-- The next iterator behind a comma, unless the comma is the last. -/
def iterator? : Parser (Option Expr) := do
  if ← eatPunct "," then
    if ← atPunct ")" then return none else some <$> g.expr
  else return none

/-- The iterators of a `for`, with an optional comma behind the last one. -/
def iterators : Parser (List Expr) := do
  if ← atPunct ")" then
    return []
  let first ← g.expr
  return first :: (← many g.iterator?)

/-- The rest of a `for`. -/
def forRule (start : Nat) : Parser Stmt := do
  expectPunct "("
  let first ← g.forStart
  let condition ← g.valueBeforeSemicolon
  expectPunct ";"
  let iterators ← g.iterators
  expectPunct ")"
  let body ← g.stmt
  return .forLoop first condition iterators body (← spanFrom start)

/-- Any statement. -/
def stmtRule : Parser Stmt := do
  let start ← offset
  if ← atPunct "\x7b" then
    let statements ← g.block
    return .block statements (← spanFrom start)
  else if ← eatPunct ";" then
    return .empty (← spanFrom start)
  else if ← eatKeyword "return" then
    let value ← g.valueBeforeSemicolon
    expectPunct ";"
    return .ret value (← spanFrom start)
  else if ← eatKeyword "if" then g.ifRule start
  else if ← eatKeyword "while" then g.whileRule start
  else if ← eatKeyword "for" then g.forRule start
  else g.localsOr .locals (.expression <$> g.exprRule)

/-! ### Layers -/

/-- The layer that refuses everything. -/
def refusing : Grammar where
  expr := fail .expectedExpression
  operand := fail .expectedExpression
  chain _ := fail .expectedExpression
  stmt := fail .expectedExpression

/-- The layer above a grammar. -/
def above : Grammar where
  expr := g.exprRule
  operand := g.operandRule
  chain := g.chainRule
  stmt := g.stmtRule

/-- The grammar with a number of layers, which reads any program of fewer tokens than that. -/
def layered : Nat → Grammar
  | 0 => refusing
  | n + 1 => (layered n).above

end Grammar

end CultureLint
