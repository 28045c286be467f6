import CultureLint.Binding.Operation
import CultureLint.Symbol.Compilation

/-! The heart of the rule: which conversions turn a value into text by the current culture, and which
method would do it by a culture that is named. -/

namespace CultureLint

/-- The types that the rule speaks of. Where the attribute is missing, nothing is obsolete. -/
structure WellKnownTypes where
  object : TypeId
  string : TypeId
  formatProvider : TypeId
  cultureInfo : TypeId
  invariantCulture : MemberRef
  obsolete : Option TypeId
deriving DecidableEq, Repr

namespace WellKnownTypes

/-- The types that the rule speaks of; without them it has nothing to say. -/
def of? (c : Compilation) : Option WellKnownTypes := do
  let formatProvider ← c.byMetadataName? "System.IFormatProvider"
  let cultureInfo ← c.byMetadataName? "System.Globalization.CultureInfo"
  let (invariantCulture, _) ← (c.membersNamed cultureInfo "InvariantCulture").find? fun (_, m) =>
    match m with
    | .property _ => true
    | .method _ | .field _ => false
  let object ← c.special? .object
  let string ← c.special? .string
  return ⟨object, string, formatProvider, cultureInfo, invariantCulture,
    c.byMetadataName? "System.ObsoleteAttribute"⟩

variable (types : WellKnownTypes)

/-- Whether a method is marked as obsolete. -/
def isObsolete (m : MethodSymbol) : Bool :=
  types.obsolete.any fun obsolete => m.attributes.contains (some obsolete)

/-- Whether a member is a method that takes nothing but a format provider and is not obsolete. -/
def formats (m : Member) : Bool :=
  match m with
  | .method m =>
    !types.isObsolete m && m.parameters.map (·.type) = [some types.formatProvider]
  | .property _ | .field _ => false

/-- The method that turns a value of a type into text by a format provider. -/
def formatMethod? (c : Compilation) (type : TypeId) : Option MemberRef :=
  ((c.membersNamed type "ToString").find? fun (_, m) => types.formats m).map (·.1)

/-- Whether an operation joins strings by `+` or `+=`. -/
def joinsStrings (op : Operation) : Bool :=
  match op.kind with
  | .binary .add _ _ | .compoundAssignment .add _ _ => op.type = some types.string
  | _ => false

end WellKnownTypes

/-- A conversion that the rule finds: the method to call instead, and the name of the operand's type. -/
structure ConversionMatch where
  method : MemberRef
  operandTypeName : String
deriving DecidableEq, Repr

/-- What the rule finds at an operation: an existing conversion that nobody wrote, to a string or an
object, directly in a string concatenation, of a value that could be formatted by a culture. -/
def WellKnownTypes.match? (types : WellKnownTypes) (c : Compilation) (unit : BoundUnit)
    (id : OperationId) : Option ConversionMatch := do
  let op ← unit.get? id
  match op.kind with
  | .conversion operand conversion =>
    guard (op.isImplicit && conversion.isConversion)
    guard (op.type = some types.object || op.type = some types.string)
    guard ((unit.parent? id).any types.joinsStrings)
    let operandType ← unit.typeOf operand
    let method ← types.formatMethod? c operandType
    return ⟨method, (c.symbol operandType).name⟩
  | _ => none

end CultureLint
