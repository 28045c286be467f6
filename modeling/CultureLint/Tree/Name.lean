import CultureLint.Text.Span

/-! Names and types as they are written in a program. -/

namespace CultureLint

/-- A name at a place. -/
structure Ident where
  name : String
  span : Span
deriving DecidableEq, Repr

/-- A dotted name, which has at least one part, perhaps behind `global::`. -/
structure QualifiedName where
  global : Bool
  head : Ident
  tail : List Ident
  span : Span
deriving DecidableEq, Repr

namespace QualifiedName

def parts (n : QualifiedName) : List Ident := n.head :: n.tail

/-- The parts with points between them, without `global::`. -/
def dotted (n : QualifiedName) : String := ".".intercalate (n.parts.map Ident.name)

/-- The last part. -/
def last (n : QualifiedName) : Ident := n.tail.getLastD n.head

end QualifiedName

/-- The types that a word of the language names. -/
inductive Primitive
  | object
  | string
  | bool
  | char
  | sbyte
  | byte
  | short
  | ushort
  | int
  | uint
  | long
  | ulong
  | float
  | double
  | decimal
  | void
deriving DecidableEq, Repr

namespace Primitive

/-- The words that name a type. -/
def words : List (String × Primitive) :=
  [("object", .object), ("string", .string), ("bool", .bool), ("char", .char), ("sbyte", .sbyte),
   ("byte", .byte), ("short", .short), ("ushort", .ushort), ("int", .int), ("uint", .uint),
   ("long", .long), ("ulong", .ulong), ("float", .float), ("double", .double),
   ("decimal", .decimal), ("void", .void)]

def ofWord? (word : String) : Option Primitive := words.lookup word

end Primitive

/-- A type as it is written. `implicit` is the `var` of a local declaration. -/
inductive TypeExpr
  | primitive (type : Primitive) (span : Span)
  | named (name : QualifiedName)
  | nullable (of : TypeExpr) (span : Span)
  | array (of : TypeExpr) (span : Span)
  | implicit (span : Span)
deriving DecidableEq, Repr

namespace TypeExpr

def span : TypeExpr → Span
  | .primitive _ span | .nullable _ span | .array _ span | .implicit span => span
  | .named name => name.span

/-- Whether the type is built from a type that a word names. -/
def isPrimitiveBased : TypeExpr → Bool
  | .primitive .. => true
  | .nullable of _ | .array of _ => of.isPrimitiveBased
  | .named _ | .implicit _ => false

end TypeExpr

end CultureLint
