/-! What names in a program stand for: types and their members. A type is known by its number in the
compilation that owns it. -/

namespace CultureLint

/-- A type, by its place among the types of a compilation. -/
structure TypeId where
  index : Nat
deriving DecidableEq, Repr

/-! ### Types of the language -/

/-- Types that the language treats in a way of their own. All of them are in `System`. -/
inductive SpecialType
  | object
  | valueType
  | array
  | void
  | string
  | boolean
  | char
  | sbyte
  | byte
  | int16
  | uint16
  | int32
  | uint32
  | int64
  | uint64
  | single
  | double
  | decimal
  | dateTime
deriving DecidableEq, Repr

namespace SpecialType

/-- The name of the type within `System`. -/
def name : SpecialType → String
  | .object => "Object"
  | .valueType => "ValueType"
  | .array => "Array"
  | .void => "Void"
  | .string => "String"
  | .boolean => "Boolean"
  | .char => "Char"
  | .sbyte => "SByte"
  | .byte => "Byte"
  | .int16 => "Int16"
  | .uint16 => "UInt16"
  | .int32 => "Int32"
  | .uint32 => "UInt32"
  | .int64 => "Int64"
  | .uint64 => "UInt64"
  | .single => "Single"
  | .double => "Double"
  | .decimal => "Decimal"
  | .dateTime => "DateTime"

/-- The word of the language for the type. -/
def keyword? : SpecialType → Option String
  | .object => some "object"
  | .void => some "void"
  | .string => some "string"
  | .boolean => some "bool"
  | .char => some "char"
  | .sbyte => some "sbyte"
  | .byte => some "byte"
  | .int16 => some "short"
  | .uint16 => some "ushort"
  | .int32 => some "int"
  | .uint32 => some "uint"
  | .int64 => some "long"
  | .uint64 => some "ulong"
  | .single => some "float"
  | .double => some "double"
  | .decimal => some "decimal"
  | .valueType | .array | .dateTime => none

def isNumeric : SpecialType → Bool
  | .char | .sbyte | .byte | .int16 | .uint16 | .int32 | .uint32 | .int64 | .uint64 | .single
  | .double | .decimal => true
  | .object | .valueType | .array | .void | .string | .boolean | .dateTime => false

end SpecialType

/-! ### Members -/

/-- A parameter of a method; its type is `none` where the written type has no meaning. -/
structure ParameterSymbol where
  name : String
  type : Option TypeId
deriving DecidableEq, Repr

/-- A method. Of an attribute only its class counts, `none` where its name has no meaning. -/
structure MethodSymbol where
  name : String
  containing : TypeId
  parameters : List ParameterSymbol
  returns : Option TypeId
  isStatic : Bool
  attributes : List (Option TypeId)
deriving DecidableEq, Repr

/-- A property or a field: a value with a name and a type. -/
structure ValueSymbol where
  name : String
  containing : TypeId
  type : Option TypeId
  isStatic : Bool
deriving DecidableEq, Repr

inductive Member
  | method (symbol : MethodSymbol)
  | property (symbol : ValueSymbol)
  | field (symbol : ValueSymbol)
deriving DecidableEq, Repr

namespace Member

def name : Member → String
  | .method m => m.name
  | .property v | .field v => v.name

def method? : Member → Option MethodSymbol
  | .method m => some m
  | .property _ | .field _ => none

def value? : Member → Option ValueSymbol
  | .method _ => none
  | .property v | .field v => some v

end Member

/-- A member, by the type that declares it and its place among the members of that type. -/
structure MemberRef where
  type : TypeId
  index : Nat
deriving DecidableEq, Repr

/-! ### Types -/

/-- The kinds of types. Arrays and nullable types are built from another type. -/
inductive SymbolKind
  | classType
  | structType
  | interfaceType
  | array (element : TypeId)
  | nullable (underlying : TypeId)
deriving DecidableEq, Repr

/-- Whether a type of the kind is built from another type. -/
def SymbolKind.isConstructed : SymbolKind → Bool
  | .array _ | .nullable _ => true
  | .classType | .structType | .interfaceType => false

/-- A type. The namespace is dotted, and empty for a type outside of any. -/
structure TypeSymbol where
  namespaceName : String
  name : String
  kind : SymbolKind
  special : Option SpecialType := none
  base : Option TypeId := none
  interfaces : List TypeId := []
  members : List Member := []
  fromSource : Bool := false
deriving DecidableEq, Repr

/-- A dotted name in a namespace, where the outermost namespace has the empty name. -/
def joinName (namespaceName name : String) : String :=
  if namespaceName.isEmpty then name else namespaceName ++ "." ++ name

/-- The name of the type with its namespace. -/
def TypeSymbol.metadataName (s : TypeSymbol) : String := joinName s.namespaceName s.name

/-! ### Enclosing namespaces -/

/-- What stands before each point of a dotted name, the shortest first. -/
def beforePoints : List Char → List (List Char)
  | [] => []
  | c :: cs =>
    let longer := (beforePoints cs).map (c :: ·)
    if c = '.' then [] :: longer else longer

/-- A dotted name and the names of the namespaces around it, the innermost first. -/
def enclosingNames (dotted : String) : List String :=
  dotted :: (beforePoints dotted.toList).reverse.map String.ofList

end CultureLint
