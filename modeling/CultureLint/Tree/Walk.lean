import CultureLint.Tree.Decl

/-! All expressions of a document, and the look-up of one by its span. -/

namespace CultureLint

def Declarator.walk (d : Declarator) : List (Expr × Nat) := (d.value.map (·.walk 0)).getD []

def ForStart.walk : ForStart → List (Expr × Nat)
  | .nothing => []
  | .locals _ declarators _ => declarators.flatMap Declarator.walk
  | .expression value => value.walk 0

namespace Stmt

mutual

/-- The expressions of a statement in the order they are written, each before its parts. -/
def walk : Stmt → List (Expr × Nat)
  | .block statements _ => walkAll statements
  | .locals _ declarators _ => declarators.flatMap Declarator.walk
  | .expression value => value.walk 0
  | .ret value _ => (value.map (·.walk 0)).getD []
  | .ifThen condition whenTrue _ => condition.walk 0 ++ whenTrue.walk
  | .ifElse condition whenTrue whenFalse _ => condition.walk 0 ++ whenTrue.walk ++ whenFalse.walk
  | .whileLoop condition body _ => condition.walk 0 ++ body.walk
  | .forLoop start condition iterators body _ =>
    start.walk ++ (condition.map (·.walk 0)).getD [] ++ iterators.flatMap (·.walk 0) ++ body.walk
  | .empty _ => []

/-- The expressions of several statements. -/
def walkAll : List Stmt → List (Expr × Nat)
  | [] => []
  | s :: ss => s.walk ++ walkAll ss

end

end Stmt

def Body.walk : Body → List (Expr × Nat)
  | .block statements _ => Stmt.walkAll statements
  | .arrow value => value.walk 0

def Accessor.walk (a : Accessor) : List (Expr × Nat) := (a.body.map Body.walk).getD []

def PropertyBody.walk : PropertyBody → List (Expr × Nat)
  | .accessors items => items.flatMap Accessor.walk
  | .arrow value => value.walk 0

def MemberDecl.walk : MemberDecl → List (Expr × Nat)
  | .field decl => decl.declarators.flatMap Declarator.walk
  | .property decl => decl.body.walk ++ (decl.value.map (·.walk 0)).getD []
  | .method decl => (decl.body.map Body.walk).getD []

namespace NamespaceMember

mutual

/-- The expressions of a namespace or type. -/
def walk : NamespaceMember → List (Expr × Nat)
  | .namespaceDecl _ _ _ members _ => walkAll members
  | .typeDecl decl => decl.members.flatMap MemberDecl.walk

/-- The expressions of several namespaces and types. -/
def walkAll : List NamespaceMember → List (Expr × Nat)
  | [] => []
  | m :: ms => m.walk ++ walkAll ms

end

end NamespaceMember

/-- The expressions of a document, each with how deep it stands in its outermost expression. -/
def CompilationUnit.walk (unit : CompilationUnit) : List (Expr × Nat) :=
  NamespaceMember.walkAll unit.members

/-- The deepest of the visited expressions with the given span, and the first of equally deep ones. -/
def deepestAt (span : Span) (visited : List (Expr × Nat)) : Option (Expr × Nat) :=
  visited.foldl (fun found next =>
    if next.1.span = span ∧ found.all (·.2 < next.2) then some next else found) none

/-- The innermost expression of a document that has exactly the given span. -/
def SourceTree.expressionAt? (tree : SourceTree) (span : Span) : Option Expr :=
  (deepestAt span tree.unit.walk).map (·.1)

end CultureLint
