import CultureLint.Symbol.Basic

/-! All types that a program can use, with the indexes by which they are found. Types are only ever
added, so that a type keeps its number. -/

namespace CultureLint

/-- The types in the order they were added, and the indexes: by name with namespace, by special role,
and, for arrays and nullable types, by what they are built from; also the names that are namespaces. -/
structure Compilation where
  types : Array TypeSymbol := #[]
  byMetadataName : List (String × TypeId) := []
  special : List (SpecialType × TypeId) := []
  constructed : List (SymbolKind × TypeId) := []
  namespaces : List String := []
deriving Repr

namespace Compilation

variable (c : Compilation)

/-! ### Look-up -/

/-- The type with a number; a number that no type has stands for a class without any members. -/
def symbol (id : TypeId) : TypeSymbol :=
  c.types[id.index]?.getD { namespaceName := "", name := "", kind := .classType }

def byMetadataName? (name : String) : Option TypeId := c.byMetadataName.lookup name

def special? (s : SpecialType) : Option TypeId := c.special.lookup s

def isNamespace (name : String) : Bool := c.namespaces.contains name

def isSpecial (id : TypeId) (s : SpecialType) : Bool := (c.symbol id).special = some s

def isValueType (id : TypeId) : Bool :=
  match (c.symbol id).kind with
  | .structType | .nullable _ => true
  | .classType | .interfaceType | .array _ => false

def isNumeric (id : TypeId) : Bool := (c.symbol id).special.any SpecialType.isNumeric

def member? (m : MemberRef) : Option Member := (c.symbol m.type).members[m.index]?

/-! ### Inheritance -/

def baseChainUpTo : Nat → List TypeId → TypeId → List TypeId
  | 0, _, _ => []
  | bound + 1, seen, id =>
    id ::
      match (c.symbol id).base with
      | none => []
      | some base =>
        if base = id ∨ base ∈ seen then [] else baseChainUpTo bound (id :: seen) base

/-- A type, its base type, the base type of that, and so on until a type would come again. -/
def baseChain (id : TypeId) : List TypeId := c.baseChainUpTo (c.types.size + 1) [] id

/-- The members of one type that have a name, in the order of their declaration. -/
def ownMembersNamed (name : String) (owner : TypeId) : List (MemberRef × Member) :=
  ((c.symbol owner).members.zipIdx.filter fun (m, _) => m.name == name).map fun (m, index) =>
    (⟨owner, index⟩, m)

/-- The members of a type that have a name, with those it inherits behind its own. -/
def membersNamed (id : TypeId) (name : String) : List (MemberRef × Member) :=
  (c.baseChain id).flatMap (c.ownMembersNamed name)

/-- Follows the interfaces of interfaces, from the most recently met one on. -/
def closeInterfaces : Nat → List TypeId → List TypeId → List TypeId
  | 0, found, _ => found
  | _ + 1, found, [] => found
  | bound + 1, found, id :: pending =>
    if id ∈ found then closeInterfaces bound found pending
    else closeInterfaces bound (found ++ [id]) ((c.symbol id).interfaces.reverse ++ pending)

/-- All interfaces of a type, of the types it inherits from, and of those interfaces. Each type is
asked for its interfaces at most once, which bounds the work. -/
def allInterfaces (id : TypeId) : List TypeId :=
  let declared := (c.baseChain id).flatMap fun owner => (c.symbol owner).interfaces
  let bound := declared.length + (c.types.toList.flatMap (·.interfaces)).length
  c.closeInterfaces bound [] declared.reverse

/-! ### Growth -/

/-- The number that the next type will have. -/
def nextId : TypeId := ⟨c.types.size⟩

/-- Adds a type. The first type of a name keeps the name; arrays and nullable types have none. -/
def addType (symbol : TypeSymbol) : Compilation :=
  let id := c.nextId
  let named := !symbol.kind.isConstructed
  { types := c.types.push symbol
    byMetadataName :=
      if named && (c.byMetadataName? symbol.metadataName).isNone then
        (symbol.metadataName, id) :: c.byMetadataName
      else c.byMetadataName
    special :=
      match symbol.special with
      | some s => (s, id) :: c.special
      | none => c.special
    constructed := if named then c.constructed else (symbol.kind, id) :: c.constructed
    namespaces :=
      if named then
        ((enclosingNames symbol.namespaceName).filter fun name =>
          !name.isEmpty && !c.isNamespace name) ++ c.namespaces
      else c.namespaces }

/-- Changes a type in place. -/
def modifyType (id : TypeId) (f : TypeSymbol → TypeSymbol) : Compilation :=
  { c with types := c.types.modify id.index f }

/-- The type of the given kind, which `create` gives when there is none yet. -/
def construct (kind : SymbolKind) (create : TypeId → TypeSymbol) : TypeId × Compilation :=
  match c.constructed.lookup kind with
  | some id => (id, c)
  | none => (c.nextId, c.addType (create c.nextId))

/-- The array type over an element type. -/
def arrayOf (element : TypeId) : TypeId × Compilation :=
  c.construct (.array element) fun _ =>
    { namespaceName := "", name := "", kind := .array element, base := c.special? .array }

/-- The members of a nullable type. -/
def nullableMembers (id underlying : TypeId) : List Member :=
  let method (name : String) (returns : TypeId) : Member :=
    .method ⟨name, id, [], some returns, false, []⟩
  let property (name : String) (type : TypeId) : Member := .property ⟨name, id, some type, false⟩
  let basic :=
    match c.special? .string, c.special? .boolean with
    | some string, some boolean => [method "ToString" string, property "HasValue" boolean]
    | _, _ => []
  basic ++ [property "Value" underlying, method "GetValueOrDefault" underlying]

/-- The nullable type over a value type. -/
def nullableOf (underlying : TypeId) : TypeId × Compilation :=
  c.construct (.nullable underlying) fun id =>
    { namespaceName := "System", name := "Nullable", kind := .nullable underlying
      base := c.special? .valueType, members := c.nullableMembers id underlying }

end Compilation

end CultureLint
