import CultureLint.Binding.Frame

/-! Operators: the types they work in, and the conversions they put on their operands. -/

namespace CultureLint

namespace SpecialType

/-- The type in which one number is calculated with. -/
def promote : SpecialType → SpecialType
  | .sbyte | .byte | .int16 | .uint16 | .char => .int32
  | other => other

/-- The type in which two numbers are calculated with; some pairs have none. -/
def promoteWith (a b : SpecialType) : Option SpecialType :=
  let either (t : SpecialType) : Bool := a = t || b = t
  if either .decimal then
    if either .single || either .double then none else some .decimal
  else if either .double then some .double
  else if either .single then some .single
  else if either .uint64 then
    if either .sbyte || either .int16 || either .int32 || either .int64 then none else some .uint64
  else if either .int64 then some .int64
  else if either .uint32 then
    if either .sbyte || either .int16 || either .int32 then some .int64 else some .uint32
  else some .int32

end SpecialType

namespace Bind

/-- An operand: its operation, and the expression it is written as. -/
abbrev Operand := OperationId × Node

/-- Converts an operand. -/
def convertOperand (operand : Operand) (target : Option TypeId) : Bind OperationId :=
  convert operand.1 operand.2 target

/-- The special type in which two operands are calculated with. -/
def promotionOf (left right : Option TypeId) : Bind (Option SpecialType) := do
  match ← numericOf left, ← numericOf right with
  | some a, some b => return a.promoteWith b
  | _, _ => return none

/-- A type that may be missing. -/
def specialType (s : Option SpecialType) : Bind (Option TypeId) := do
  match s with
  | some s => special s
  | none => return none

/-! ### One operand -/

def unary (node : Node) (op : UnaryOp) (operand : Operand) : Bind OperationId := do
  match op with
  | .increment | .decrement =>
    addExpr node (.increment operand.1 (op = .increment) false) (← typeOf operand.1)
  | .not =>
    let boolean ← special .boolean
    let value ← convertOperand operand boolean
    addExpr node (.unary op value) boolean
  | .plus | .minus | .bitNot =>
    match ← numericOf (← typeOf operand.1) with
    | none => addExpr node (.unary op operand.1) none
    | some s =>
      let promoted :=
        if op = .minus && s.promote = .uint32 then SpecialType.int64 else s.promote
      let value ← convertSpecial operand.1 operand.2 promoted
      addExpr node (.unary op value) (← special promoted)

/-- An increment or decrement behind its operand. -/
def step (node : Node) (isIncrement : Bool) (operand : OperationId) : Bind OperationId := do
  addExpr node (.increment operand isIncrement true) (← typeOf operand)

/-- A cast to a type that has a meaning, or has none. -/
def cast (node : Node) (target : Option TypeId) (operand : OperationId) : Bind OperationId := do
  match target with
  | none => addInvalid node [operand]
  | some target =>
    let conversion :=
      (← getCompilation).convertExplicit (← typeOf operand) (← isNull operand) target
    addExpr node (.conversion operand conversion) (some target)

/-! ### Two operands -/

/-- An operand of a string concatenation: `null` becomes a string, and everything else but a string an
object. -/
def concatOperand (operand : Operand) : Bind OperationId := do
  if ← isString (← typeOf operand.1) then return operand.1
  else if ← isNull operand.1 then convertSpecial operand.1 operand.2 .string
  else convertSpecial operand.1 operand.2 .object

/-- Converts both operands to one type. -/
def convertBoth (left right : Operand) (target : Option TypeId) :
    Bind (OperationId × OperationId) := do
  let l ← convertOperand left target
  let r ← convertOperand right target
  return (l, r)

/-- The operands of a binary operator after their conversions, and the type of the result. -/
def binaryOperands (op : BinaryOp) (left right : Operand) :
    Bind ((OperationId × OperationId) × Option TypeId) := do
  let leftType ← typeOf left.1
  let rightType ← typeOf right.1
  let boolean ← special .boolean
  let numeric ← promotionOf leftType rightType
  let asTheyAre := (left.1, right.1)
  let calculate : Bind ((OperationId × OperationId) × Option TypeId) := do
    let promoted ← specialType numeric
    return (← convertBoth left right promoted, promoted)
  match op with
  | .add =>
    if (← isString leftType) || (← isString rightType) then
      let l ← concatOperand left
      let r ← concatOperand right
      return ((l, r), ← special .string)
    else if numeric.isSome then calculate
    else return (asTheyAre, none)
  | .sub | .mul | .div | .rem => if numeric.isSome then calculate else return (asTheyAre, none)
  | .shl =>
    let promoted ← specialType ((← numericOf leftType).map SpecialType.promote)
    let l ← convertOperand left promoted
    let r ← convertSpecial right.1 right.2 .int32
    return ((l, r), promoted)
  | .bitAnd | .bitOr | .bitXor =>
    if boolean.isSome && leftType = boolean && rightType = boolean then
      return (asTheyAre, boolean)
    else if numeric.isSome then calculate
    else return (asTheyAre, none)
  | .eq | .ne | .lt | .gt | .le | .ge =>
    return (← convertBoth left right (← specialType numeric), boolean)
  | .and | .or => return (← convertBoth left right boolean, boolean)
  | .coalesce => return (asTheyAre, leftType.or rightType)

/-- A binary operation on bound operands. -/
def binary (node : Node) (op : BinaryOp) (left right : Operand) : Bind OperationId := do
  let ((l, r), type) ← binaryOperands op left right
  addExpr node (.binary op l r) type

/-- An assignment of a bound value to a bound target. -/
def assignment (node : Node) (op : AssignOp) (target : OperationId) (value : Operand) :
    Bind OperationId := do
  let targetType ← typeOf target
  match op with
  | .assign =>
    let value ← convertOperand value targetType
    addExpr node (.simpleAssignment target value) targetType
  | .compound op =>
    let value ←
      if op = .add && (← isString targetType) then concatOperand value
      else do
        let numeric ← promotionOf targetType (← typeOf value.1)
        convertOperand value (← specialType numeric)
    addExpr node (.compoundAssignment op target value) targetType

/-- The common type of the two outcomes of a choice. -/
def outcomeType (c : Compilation) (left right : Option TypeId) (leftNull rightNull : Bool) :
    Option TypeId :=
  match left, right with
  | some a, some b =>
    if a = b then some a
    else if (c.convertType a b).isConversion then some b
    else if (c.convertType b a).isConversion then some a
    else none
  | some a, none => if rightNull then some a else none
  | none, some b => if leftNull then some b else none
  | none, none => none

/-- A choice between two bound values. -/
def conditional (node : Node) (condition : OperationId) (whenTrue whenFalse : Operand) :
    Bind OperationId := do
  let type := outcomeType (← getCompilation) (← typeOf whenTrue.1) (← typeOf whenFalse.1)
    (← isNull whenTrue.1) (← isNull whenFalse.1)
  let (l, r) ← convertBoth whenTrue whenFalse type
  addExpr node (.conditional condition l r) type

end Bind

end CultureLint
