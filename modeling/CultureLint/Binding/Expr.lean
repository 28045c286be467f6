import CultureLint.Binding.Literal
import CultureLint.Binding.Member
import CultureLint.Binding.Operator

/-! Binding of expressions. A chain of binary operators leans to the left as far as it is long; it is
taken as its foot, the leftmost operand, and the links above, and worked off from the foot up. -/

namespace CultureLint

/-- One operator of a chain with its right operand. -/
structure ChainLink where
  node : Node
  op : BinaryOp
  right : Bind OperationId
  rightNode : Node

/-- How an expression is bound: a foot, and the operators applied to it, the last one first. An
expression that is no binary operation is a foot alone. -/
structure Plan where
  foot : Bind Bound
  footNode : Node
  links : List ChainLink := []

namespace Plan

/-- The plan with one more operator applied. -/
def extend (plan : Plan) (link : ChainLink) : Plan := { plan with links := link :: plan.links }

/-- Applies one operator to what has been bound so far. -/
def applyLink (left : Bind.Operand) (link : ChainLink) : Bind Bind.Operand := do
  let right ← link.right
  let op ← Bind.binary link.node link.op left (right, link.rightNode)
  return (op, link.node)

/-- Binds the expression as a value. -/
def value (plan : Plan) : Bind OperationId := do
  let foot ← Bind.asValue plan.footNode (← plan.foot)
  let (op, _) ← plan.links.reverse.foldlM applyLink (foot, plan.footNode)
  return op

/-- Binds the expression as whatever it turns out to be. -/
def bound (plan : Plan) : Bind Bound :=
  match plan.links with
  | [] => plan.foot
  | _ => .value <$> plan.value

end Plan

namespace Expr

mutual

/-- How an expression is bound. -/
def plan : Expr → Plan
  | .binary node op left right => left.plan.extend ⟨node, op, right.plan.value, right.node⟩
  | .literal node kind text =>
    { footNode := node
      foot := do
        let type ← Bind.specialType (kind.type? text)
        return .value (← Bind.addExpr node (.literal kind) type) }
  | .name node word => { footNode := node, foot := Bind.name node word }
  | .primitive node type =>
    { footNode := node
      foot := do
        match ← Bind.special type.special with
        | some id => return .type id
        | none => return .value (← Bind.addInvalid node []) }
  | .this node =>
    { footNode := node
      foot := do
        return .value (← Bind.addExpr node .instanceReference (some (← read).containing)) }
  | .parenthesized node inner => { footNode := node, foot := inner.plan.bound }
  | .memberAccess node receiver ident =>
    { footNode := node, foot := do Bind.memberAccess node (← receiver.plan.bound) ident.name }
  | .invocation node callee arguments =>
    { footNode := node
      foot := do
        let callee ← callee.plan.bound
        let args ← values arguments
        return .value (← Bind.invocation node callee args) }
  | .elementAccess node receiver arguments =>
    { footNode := node
      foot := do
        let receiver ← receiver.plan.value
        let args ← values arguments
        return .value (← Bind.elementAccess node receiver (args.map (·.1))) }
  | .objectCreation node type arguments =>
    { footNode := node
      foot := do
        let type ← Bind.resolveType type
        let args ← values arguments
        return .value (← Bind.addExpr node (.objectCreation (args.map (·.1))) type) }
  | .unary node op operand =>
    { footNode := node
      foot := do
        let value ← operand.plan.value
        return .value (← Bind.unary node op (value, operand.node)) }
  | .step node increment operand =>
    { footNode := node
      foot := do
        let value ← operand.plan.value
        return .value (← Bind.step node increment value) }
  | .cast node type operand =>
    { footNode := node
      foot := do
        let target ← Bind.resolveType type
        let value ← operand.plan.value
        return .value (← Bind.cast node target value) }
  | .assignment node op target value =>
    { footNode := node
      foot := do
        let targetOp ← target.plan.value
        let valueOp ← value.plan.value
        return .value (← Bind.assignment node op targetOp (valueOp, value.node)) }
  | .conditional node condition whenTrue whenFalse =>
    { footNode := node
      foot := do
        let boolean ← Bind.special .boolean
        let conditionOp ← Bind.convert (← condition.plan.value) condition.node boolean
        let a ← whenTrue.plan.value
        let b ← whenFalse.plan.value
        return .value (← Bind.conditional node conditionOp (a, whenTrue.node) (b, whenFalse.node)) }

/-- Binds expressions as values from left to right. -/
def values : List Expr → Bind (List Bind.Operand)
  | [] => return []
  | e :: es => do
    let op ← e.plan.value
    return (op, e.node) :: (← values es)

end

/-- Binds an expression as a value. -/
def bindValue (e : Expr) : Bind OperationId := e.plan.value

/-- Binds an expression as a value of a type. -/
def bindConverted (e : Expr) (target : Option TypeId) : Bind OperationId := do
  Bind.convert (← e.bindValue) e.node target

end Expr

end CultureLint
