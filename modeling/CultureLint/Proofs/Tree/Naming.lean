import CultureLint.Tree.Decl

/-! The simple names that are looked up in the scope of a document: each name that is written as an expression, and
the first part of each name of a type. What stands behind a point or behind `global::` is not looked up there. -/

namespace CultureLint

/-- The word that is looked up for a dotted name. -/
def QualifiedName.words (name : QualifiedName) : List String := if name.global then [] else [name.head.name]

namespace TypeExpr

/-- The words that are looked up for a type. -/
def words : TypeExpr → List String
  | .named name => name.words
  | .nullable of _ | .array of _ => of.words
  | .primitive .. | .implicit _ => []

end TypeExpr

namespace Expr

/-- The words that are looked up for an expression itself, and not for its parts. -/
def ownWords : Expr → List String
  | .name _ word => [word]
  | .objectCreation _ type _ | .cast _ type _ => type.words
  | _ => []

end Expr

/-! ### Types outside of expressions -/

def ForStart.words : ForStart → List String
  | .locals type _ _ => type.words
  | .nothing | .expression _ => []

namespace Stmt

mutual

/-- The words in the types that a statement writes outside of its expressions. -/
def words : Stmt → List String
  | .block statements _ => wordsAll statements
  | .locals type _ _ => type.words
  | .ifThen _ whenTrue _ => whenTrue.words
  | .ifElse _ whenTrue whenFalse _ => whenTrue.words ++ whenFalse.words
  | .whileLoop _ body _ => body.words
  | .forLoop start _ _ body _ => start.words ++ body.words
  | .expression _ | .ret .. | .empty _ => []

def wordsAll : List Stmt → List String
  | [] => []
  | s :: ss => s.words ++ wordsAll ss

end

end Stmt

def Body.words : Body → List String
  | .block statements _ => Stmt.wordsAll statements
  | .arrow _ => []

def Accessor.words (a : Accessor) : List String := (a.body.map Body.words).getD []

def PropertyBody.words : PropertyBody → List String
  | .accessors items => items.flatMap Accessor.words
  | .arrow _ => []

/-- An attribute may be named without the ending of its class. -/
def Attribute.words (a : Attribute) : List String :=
  a.name.words ++ a.name.words.map (· ++ "Attribute")

namespace MemberDecl

/-- The words in the types that a member writes in its head. -/
def headWords : MemberDecl → List String
  | .field decl => decl.type.words
  | .property decl => decl.type.words
  | .method decl => decl.attributes.flatMap Attribute.words ++ (decl.returns.map TypeExpr.words).getD [] ++
      decl.parameters.flatMap (·.type.words)

/-- The words in the types that a member writes outside of its expressions. -/
def words (m : MemberDecl) : List String := m.headWords ++
  match m with
  | .field _ => []
  | .property decl => decl.body.words
  | .method decl => (decl.body.map Body.words).getD []

end MemberDecl

/-- The words in the types that a declaration writes outside of its expressions. -/
def TypeDecl.words (decl : TypeDecl) : List String :=
  decl.bases.flatMap TypeExpr.words ++ decl.members.flatMap MemberDecl.words

end CultureLint
