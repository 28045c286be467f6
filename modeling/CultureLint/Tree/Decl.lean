import CultureLint.Token.Basic
import CultureLint.Tree.Expr

/-! Statements and declarations: the shape of a whole document. -/

namespace CultureLint

/-! ### Statements -/

/-- A declared variable and its initial value. -/
structure Declarator where
  name : Ident
  value : Option Expr
deriving Repr

/-- What a `for` does first. -/
inductive ForStart
  | nothing
  | locals (type : TypeExpr) (declarators : List Declarator) (span : Span)
  | expression (value : Expr)
deriving Repr

inductive Stmt
  | block (statements : List Stmt) (span : Span)
  | locals (type : TypeExpr) (declarators : List Declarator) (span : Span)
  | expression (value : Expr)
  | ret (value : Option Expr) (span : Span)
  | ifThen (condition : Expr) (whenTrue : Stmt) (span : Span)
  | ifElse (condition : Expr) (whenTrue whenFalse : Stmt) (span : Span)
  | whileLoop (condition : Expr) (body : Stmt) (span : Span)
  | forLoop (start : ForStart) (condition : Option Expr) (iterators : List Expr) (body : Stmt)
      (span : Span)
  | empty (span : Span)
deriving Repr

/-- A body in braces, or an expression behind an arrow. -/
inductive Body
  | block (statements : List Stmt) (span : Span)
  | arrow (value : Expr)
deriving Repr

/-! ### Members -/

/-- An attribute; its arguments play no part. -/
structure Attribute where
  name : QualifiedName
  span : Span
deriving DecidableEq, Repr

structure Parameter where
  type : TypeExpr
  name : Ident
deriving DecidableEq, Repr

inductive AccessorKind
  | get
  | set
  | init
deriving DecidableEq, Repr

structure Accessor where
  kind : AccessorKind
  body : Option Body
deriving Repr

inductive PropertyBody
  | accessors (items : List Accessor)
  | arrow (value : Expr)
deriving Repr

structure FieldDecl where
  attributes : List Attribute
  modifiers : List String
  type : TypeExpr
  declarators : List Declarator
  span : Span
deriving Repr

structure PropertyDecl where
  attributes : List Attribute
  modifiers : List String
  type : TypeExpr
  name : Ident
  body : PropertyBody
  value : Option Expr
  span : Span
deriving Repr

/-- A method, or a constructor, which has no return type. -/
structure MethodDecl where
  attributes : List Attribute
  modifiers : List String
  returns : Option TypeExpr
  name : Ident
  parameters : List Parameter
  body : Option Body
  span : Span
deriving Repr

inductive MemberDecl
  | field (decl : FieldDecl)
  | property (decl : PropertyDecl)
  | method (decl : MethodDecl)
deriving Repr

/-- Whether a member with the modifiers belongs to its type and not to an instance. -/
def isStatic (modifiers : List String) : Bool :=
  modifiers.any fun m => m == "static" || m == "const"

/-! ### Types, namespaces and documents -/

inductive TypeForm
  | classForm
  | structForm
  | interfaceForm
deriving DecidableEq, Repr

structure TypeDecl where
  form : TypeForm
  attributes : List Attribute
  modifiers : List String
  name : Ident
  bases : List TypeExpr
  members : List MemberDecl
  span : Span
deriving Repr

/-- A `using` line. -/
structure Using where
  isGlobal : Bool
  isStatic : Bool
  aliasIdent : Option Ident
  name : QualifiedName
  span : Span
deriving DecidableEq, Repr

/-- Whether the line makes the types of a namespace known by their simple names. -/
def Using.importsNamespace (u : Using) : Bool := !u.isStatic && u.aliasIdent.isNone

inductive NamespaceMember
  | namespaceDecl (name : QualifiedName) (fileScoped : Bool) (usings : List Using)
      (members : List NamespaceMember) (span : Span)
  | typeDecl (decl : TypeDecl)
deriving Repr

/-- All of a document's code. -/
structure CompilationUnit where
  usings : List Using
  members : List NamespaceMember
  span : Span
deriving Repr

/-- A document that was read: its code, its directives and the comments it opens with. -/
structure SourceTree where
  unit : CompilationUnit
  directives : List Directive
  header : Option Span
deriving Repr

end CultureLint
