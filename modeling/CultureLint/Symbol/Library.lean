import CultureLint.Symbol.Compilation

/-! The framework types that every program compiles against, in two libraries. The second one uses the
first and is worth nothing without it. -/

namespace CultureLint

/-- A library that a program may refer to. -/
inductive Reference
  | core
  | globalization
deriving DecidableEq, Repr

/-- The framework types, those of the core library before the others. -/
inductive LibraryType
  | object
  | valueType
  | void
  | string
  | boolean
  | char
  | int32
  | formatProvider
  | formattable
  | attributeClass
  | obsolete
  | sbyte
  | byte
  | int16
  | uint16
  | uint32
  | int64
  | uint64
  | single
  | double
  | decimal
  | dateTime
  | guid
  | array
  | math
  | console
  | stringBuilder
  | cultureInfo
  | numberFormatInfo
deriving DecidableEq, Repr

namespace LibraryType

/-- The types of the core library. -/
def core : List LibraryType :=
  [.object, .valueType, .void, .string, .boolean, .char, .int32, .formatProvider, .formattable,
   .attributeClass, .obsolete, .sbyte, .byte, .int16, .uint16, .uint32, .int64, .uint64, .single,
   .double, .decimal, .dateTime, .guid, .array, .math, .console, .stringBuilder]

/-- The types of the globalization library. -/
def globalization : List LibraryType := [.cultureInfo, .numberFormatInfo]

/-- Framework types come first in a compilation, in the order they are listed here. -/
def id (t : LibraryType) : TypeId := ⟨t.ctorIdx⟩

def special? : LibraryType → Option SpecialType
  | .object => some .object
  | .valueType => some .valueType
  | .void => some .void
  | .string => some .string
  | .boolean => some .boolean
  | .char => some .char
  | .int32 => some .int32
  | .sbyte => some .sbyte
  | .byte => some .byte
  | .int16 => some .int16
  | .uint16 => some .uint16
  | .uint32 => some .uint32
  | .int64 => some .int64
  | .uint64 => some .uint64
  | .single => some .single
  | .double => some .double
  | .decimal => some .decimal
  | .dateTime => some .dateTime
  | .array => some .array
  | .formatProvider | .formattable | .attributeClass | .obsolete | .guid | .math | .console
  | .stringBuilder | .cultureInfo | .numberFormatInfo => none

def namespaceName : LibraryType → String
  | .stringBuilder => "System.Text"
  | .cultureInfo | .numberFormatInfo => "System.Globalization"
  | _ => "System"

def name (t : LibraryType) : String :=
  match t with
  | .formatProvider => "IFormatProvider"
  | .formattable => "IFormattable"
  | .attributeClass => "Attribute"
  | .obsolete => "ObsoleteAttribute"
  | .guid => "Guid"
  | .math => "Math"
  | .console => "Console"
  | .stringBuilder => "StringBuilder"
  | .cultureInfo => "CultureInfo"
  | .numberFormatInfo => "NumberFormatInfo"
  | _ => (t.special?.map SpecialType.name).getD ""

def kind : LibraryType → SymbolKind
  | .object | .valueType | .string | .attributeClass | .obsolete | .array | .math | .console
  | .stringBuilder | .cultureInfo | .numberFormatInfo => .classType
  | .formatProvider | .formattable => .interfaceType
  | .void | .boolean | .char | .int32 | .sbyte | .byte | .int16 | .uint16 | .uint32 | .int64
  | .uint64 | .single | .double | .decimal | .dateTime | .guid => .structType

def base? (t : LibraryType) : Option LibraryType :=
  match t with
  | .object => none
  | .obsolete => some .attributeClass
  | _ =>
    match t.kind with
    | .classType => some .object
    | .structType => some .valueType
    | _ => none

def interfaces : LibraryType → List LibraryType
  | .int32 | .sbyte | .byte | .int16 | .uint16 | .uint32 | .int64 | .uint64 | .single | .double
  | .decimal | .dateTime | .guid => [.formattable]
  | .cultureInfo | .numberFormatInfo => [.formatProvider]
  | _ => []

/-! ### Members -/

variable (t : LibraryType)

/-- A method of the library; its parameters have no names that matter and are numbered. -/
def anyMethod (isStatic : Bool) (name : String) (parameters : List LibraryType)
    (returns : LibraryType) : Member :=
  .method
    { name, containing := t.id
      parameters := parameters.zipIdx.map fun (p, index) => ⟨"arg" ++ toString index, some p.id⟩
      returns := some returns.id, isStatic, attributes := [] }

def method (name : String) (parameters : List LibraryType) (returns : LibraryType) : Member :=
  t.anyMethod false name parameters returns

def staticMethod (name : String) (parameters : List LibraryType) (returns : LibraryType) : Member :=
  t.anyMethod true name parameters returns

def property (name : String) (type : LibraryType) : Member :=
  .property ⟨name, t.id, some type.id, false⟩

def staticProperty (name : String) (type : LibraryType) : Member :=
  .property ⟨name, t.id, some type.id, true⟩

/-- A field of the library, which belongs to its type. -/
def field (name : String) (type : LibraryType) : Member := .field ⟨name, t.id, some type.id, true⟩

/-- The four ways in which a number or a date becomes text. -/
def formattingMembers : List Member :=
  [t.method "ToString" [] .string,
   t.method "ToString" [.string] .string,
   t.method "ToString" [.formatProvider] .string,
   t.method "ToString" [.string, .formatProvider] .string]

/-- What every numeric type has. -/
def numberMembers : List Member :=
  t.formattingMembers ++
  [t.field "MaxValue" t,
   t.field "MinValue" t,
   t.staticMethod "Parse" [.string] t,
   t.staticMethod "Parse" [.string, .formatProvider] t]

/-- The members of a framework type, in the order of their declaration. -/
def members : List Member :=
  match t with
  | .object =>
    [t.method "ToString" [] .string,
     t.method "Equals" [.object] .boolean,
     t.method "GetHashCode" [] .int32]
  | .valueType => [t.method "ToString" [] .string]
  | .void | .formatProvider | .attributeClass | .obsolete => []
  | .string =>
    [t.method "ToString" [] .string,
     t.method "ToString" [.formatProvider] .string,
     t.method "ToUpper" [] .string,
     t.method "ToLower" [] .string,
     t.method "Trim" [] .string,
     t.method "Substring" [.int32] .string,
     t.method "Contains" [.string] .boolean,
     t.property "Length" .int32,
     t.field "Empty" .string,
     t.staticMethod "IsNullOrEmpty" [.string] .boolean,
     t.staticMethod "Concat" [.object, .object] .string,
     t.staticMethod "Format" [.string, .object] .string,
     t.staticMethod "Format" [.formatProvider, .string, .object] .string]
  | .boolean =>
    [t.method "ToString" [] .string,
     t.method "ToString" [.formatProvider] .string,
     t.staticMethod "Parse" [.string] .boolean]
  | .char =>
    [t.method "ToString" [] .string,
     t.method "ToString" [.formatProvider] .string,
     t.staticMethod "IsDigit" [.char] .boolean,
     t.staticMethod "IsLetter" [.char] .boolean]
  | .formattable => [t.method "ToString" [.string, .formatProvider] .string]
  | .int32 | .sbyte | .byte | .int16 | .uint16 | .uint32 | .int64 | .uint64 | .single | .decimal =>
    t.numberMembers
  | .double => t.numberMembers ++ [t.field "NaN" .double]
  | .dateTime =>
    t.formattingMembers ++
    [t.staticProperty "Now" .dateTime,
     t.staticProperty "Today" .dateTime,
     t.staticProperty "UtcNow" .dateTime,
     t.property "Year" .int32,
     t.method "AddDays" [.double] .dateTime]
  | .guid =>
    [t.method "ToString" [] .string,
     t.method "ToString" [.string] .string,
     t.method "ToString" [.string, .formatProvider] .string,
     t.staticMethod "NewGuid" [] .guid,
     t.field "Empty" .guid]
  | .array => [t.property "Length" .int32]
  | .math =>
    [t.field "PI" .double,
     t.staticMethod "Abs" [.int32] .int32,
     t.staticMethod "Abs" [.double] .double,
     t.staticMethod "Max" [.int32, .int32] .int32,
     t.staticMethod "Max" [.double, .double] .double,
     t.staticMethod "Round" [.double] .double,
     t.staticMethod "Sqrt" [.double] .double]
  | .console =>
    [t.staticMethod "WriteLine" [] .void,
     t.staticMethod "WriteLine" [.string] .void,
     t.staticMethod "WriteLine" [.object] .void,
     t.staticMethod "Write" [.string] .void,
     t.staticMethod "Write" [.object] .void]
  | .stringBuilder =>
    [t.method "Append" [.string] .stringBuilder,
     t.method "Append" [.object] .stringBuilder,
     t.method "AppendLine" [.string] .stringBuilder,
     t.method "ToString" [] .string,
     t.property "Length" .int32]
  | .cultureInfo =>
    [t.staticProperty "InvariantCulture" .cultureInfo,
     t.staticProperty "CurrentCulture" .cultureInfo,
     t.property "Name" .string,
     t.method "ToString" [] .string]
  | .numberFormatInfo =>
    [t.staticProperty "InvariantInfo" .numberFormatInfo,
     t.staticProperty "CurrentInfo" .numberFormatInfo]

def symbol : TypeSymbol where
  namespaceName := t.namespaceName
  name := t.name
  kind := t.kind
  special := t.special?
  base := t.base?.map id
  interfaces := t.interfaces.map id
  members := t.members

/-- The framework types behind a choice of libraries. -/
def ofReferences (references : List Reference) : List LibraryType :=
  if references.contains .core then
    if references.contains .globalization then core ++ globalization else core
  else []

end LibraryType

/-- The compilation that holds the framework types alone. -/
def Compilation.ofReferences (references : List Reference) : Compilation :=
  (LibraryType.ofReferences references).foldl (fun c t => c.addType t.symbol) {}

end CultureLint
