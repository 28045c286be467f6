import CultureLint.Symbol.Compilation

/-! Which values can be used where another type is asked for. -/

namespace CultureLint

/-- How a value of one type becomes a value of another. -/
inductive Conversion
  | identity
  | implicitNumeric
  | implicitNullable
  | nullLiteral
  | boxing
  | implicitReference
  | explicitNumeric
  | unboxing
  | explicitReference
  | noConversion
deriving DecidableEq, Repr

namespace Conversion

def isConversion (k : Conversion) : Bool := k ≠ .noConversion

def isIdentity (k : Conversion) : Bool := k = .identity

end Conversion

/-- The numeric types that the numbers of a type become without being asked. -/
def SpecialType.widensTo : SpecialType → List SpecialType
  | .sbyte => [.int16, .int32, .int64, .single, .double, .decimal]
  | .byte => [.int16, .uint16, .int32, .uint32, .int64, .uint64, .single, .double, .decimal]
  | .int16 => [.int32, .int64, .single, .double, .decimal]
  | .uint16 => [.int32, .uint32, .int64, .uint64, .single, .double, .decimal]
  | .int32 => [.int64, .single, .double, .decimal]
  | .uint32 => [.int64, .uint64, .single, .double, .decimal]
  | .int64 | .uint64 => [.single, .double, .decimal]
  | .char => [.uint16, .int32, .uint32, .int64, .uint64, .single, .double, .decimal]
  | .single => [.double]
  | .object | .valueType | .array | .void | .string | .boolean | .double | .decimal | .dateTime => []

namespace Compilation

variable (c : Compilation)

/-- Whether `null` is a value of the type. -/
def acceptsNull (id : TypeId) : Bool :=
  match (c.symbol id).kind with
  | .nullable _ => true
  | .structType => false
  | .classType | .interfaceType | .array _ => true

/-- Whether both types are numeric and the first widens to the second. -/
def widens (source target : TypeId) : Bool :=
  match (c.symbol source).special, (c.symbol target).special with
  | some s, some t => s.widensTo.contains t
  | _, _ => false

/-- Whether the target is among the base types or interfaces of the source, or is `object`, of which
every interface value is one. -/
def inheritsFrom (source target : TypeId) : Bool :=
  (c.baseChain source).contains target || (c.allInterfaces source).contains target ||
    ((c.symbol target).special = some .object && (c.symbol source).kind = .interfaceType)

def convertTypeUpTo : Nat → TypeId → TypeId → Conversion
  | 0, _, _ => .noConversion
  | bound + 1, source, target =>
    let intoNullable : Bool :=
      match (c.symbol target).kind with
      | .nullable underlying => (convertTypeUpTo bound source underlying).isConversion
      | .classType | .structType | .interfaceType | .array _ => false
    if source = target then .identity
    else if c.widens source target then .implicitNumeric
    else if intoNullable then .implicitNullable
    else if c.inheritsFrom source target then
      if c.isValueType source then .boxing else .implicitReference
    else .noConversion

/-- How a value of one type becomes, without being asked, a value of another. A nullable type is built
from a type that was there before it, which bounds the work. -/
def convertType (source target : TypeId) : Conversion :=
  c.convertTypeUpTo (c.types.size + 1) source target

/-- How an operand becomes a value of a type without being asked. An operand without a type is the
literal `null`, or has no meaning. -/
def convertImplicit (source : Option TypeId) (isNull : Bool) (target : TypeId) : Conversion :=
  match source with
  | some source => c.convertType source target
  | none => if isNull && c.acceptsNull target then .nullLiteral else .noConversion

/-- How a cast makes an operand a value of a type: without being asked, or between numbers, or back
along a boxing or reference conversion. -/
def convertExplicit (source : Option TypeId) (isNull : Bool) (target : TypeId) : Conversion :=
  let implicit := c.convertImplicit source isNull target
  if implicit.isConversion then implicit
  else
    match source with
    | none => .noConversion
    | some source =>
      if c.isNumeric source && c.isNumeric target then .explicitNumeric
      else
        match c.convertType target source with
        | .boxing => .unboxing
        | .implicitReference => .explicitReference
        | _ => .noConversion

end Compilation

end CultureLint
