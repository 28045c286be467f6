import CultureLint.Symbol.Compilation
import CultureLint.Tree.Decl

/-! What names mean at a place of a program: which namespaces enclose it, which are imported, and which
names are shorthands for others. -/

namespace CultureLint

/-- What a name, simple or dotted, refers to. -/
inductive NameTarget
  | type (id : TypeId)
  | namespaceName (name : String)
deriving DecidableEq, Repr

/-- The names that are visible somewhere: the enclosing namespaces from the inside out, of which the
last has the empty name, the imported namespaces and the aliases. -/
structure Scope where
  namespaces : List String := [""]
  usings : List String := []
  aliases : List (String × String) := []
deriving DecidableEq, Repr

/-- The special type that a word of the language names. -/
def Primitive.special : Primitive → SpecialType
  | .object => .object
  | .string => .string
  | .bool => .boolean
  | .char => .char
  | .sbyte => .sbyte
  | .byte => .byte
  | .short => .int16
  | .ushort => .uint16
  | .int => .int32
  | .uint => .uint32
  | .long => .int64
  | .ulong => .uint64
  | .float => .single
  | .double => .double
  | .decimal => .decimal
  | .void => .void

namespace Scope

variable (scope : Scope)

/-! ### Entering -/

/-- The scope behind one `using` line; a `using static` changes nothing. -/
def addUsing (u : Using) : Scope :=
  match u.aliasIdent with
  | some ident => { scope with aliases := scope.aliases ++ [(ident.name, u.name.dotted)] }
  | none =>
    if u.isStatic then scope else { scope with usings := scope.usings ++ [u.name.dotted] }

def addUsings (usings : List Using) : Scope := usings.foldl addUsing scope

/-- The innermost enclosing namespace. -/
def current : String := scope.namespaces.headD ""

/-- The scope inside a namespace that is declared here. -/
def enter (name : QualifiedName) : Scope :=
  { scope with namespaces := enclosingNames (joinName scope.current name.dotted) ++ [""] }

/-! ### Names -/

/-- The type or namespace with a full name; a type hides a namespace. -/
def lookupDotted (c : Compilation) (dotted : String) : Option NameTarget :=
  match c.byMetadataName? dotted with
  | some id => some (.type id)
  | none => if c.isNamespace dotted then some (.namespaceName dotted) else none

/-- The first of some namespaces that holds a type with a simple name. -/
def typeIn? (c : Compilation) (namespaces : List String) (name : String) : Option TypeId :=
  namespaces.findSome? fun space => c.byMetadataName? (joinName space name)

/-- What a simple name means: a type of an enclosing namespace, an alias, a type of an imported
namespace, or a namespace within an enclosing one, in this order. -/
def resolveName (c : Compilation) (name : String) : Option NameTarget :=
  match typeIn? c scope.namespaces name with
  | some id => some (.type id)
  | none =>
    match scope.aliases.lookup name with
    | some target => lookupDotted c target
    | none =>
      match typeIn? c scope.usings name with
      | some id => some (.type id)
      | none =>
        ((scope.namespaces.map (joinName · name)).find? c.isNamespace).map .namespaceName

/-- What a name means behind a point. -/
def resolveMember (c : Compilation) (target : NameTarget) (name : String) : Option NameTarget :=
  match target with
  | .namespaceName space => lookupDotted c (joinName space name)
  | .type _ => none

/-- What a dotted name means. Behind `global::` its first part is a full name. -/
def resolveQualified (c : Compilation) (name : QualifiedName) : Option NameTarget := do
  let head ←
    if name.global then lookupDotted c name.head.name else scope.resolveName c name.head.name
  name.tail.foldlM (fun target part => resolveMember c target part.name) head

/-- The type that a dotted name means. -/
def resolveTypeName (c : Compilation) (name : QualifiedName) : Option TypeId :=
  match scope.resolveQualified c name with
  | some (.type id) => some id
  | _ => none

/-! ### Types -/

/-- The type that a written type means. A nullable value type or an array is created when it is met
for the first time; a `?` behind any other type says nothing. -/
def resolveType : TypeExpr → StateM Compilation (Option TypeId)
  | .primitive type _ => return (← get).special? type.special
  | .named name => return scope.resolveTypeName (← get) name
  | .nullable of _ => do
    match ← resolveType of with
    | none => return none
    | some underlying =>
      if (← get).isValueType underlying then
        modifyGet fun c => (c.nullableOf underlying).map some id
      else return some underlying
  | .array of _ => do
    match ← resolveType of with
    | none => return none
    | some element => modifyGet fun c => (c.arrayOf element).map some id
  | .implicit _ => return none

/-- The name with `Attribute` added to its last part. -/
def attributeName (name : QualifiedName) : QualifiedName :=
  let suffixed (ident : Ident) : Ident := { ident with name := ident.name ++ "Attribute" }
  match name.tail.reverse with
  | [] => { name with head := suffixed name.head }
  | last :: others => { name with tail := (suffixed last :: others).reverse }

/-- The class of an attribute, which may be named without its ending `Attribute`. -/
def resolveAttribute (c : Compilation) (name : QualifiedName) : Option TypeId :=
  (scope.resolveTypeName c name).or (scope.resolveTypeName c (attributeName name))

end Scope

end CultureLint
