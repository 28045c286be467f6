import CultureLint.Tree.Name

/-! Expressions. Each carries a number that is its own within one tree, and its span; a literal also
carries its text, from which its type is found. -/

namespace CultureLint

/-! ### Operators -/

inductive LiteralKind
  | string
  | interpolatedString
  | char
  | integer
  | real
  | true
  | false
  | null
deriving DecidableEq, Repr

inductive BinaryOp
  | add
  | sub
  | mul
  | div
  | rem
  | shl
  | bitAnd
  | bitOr
  | bitXor
  | eq
  | ne
  | lt
  | gt
  | le
  | ge
  | and
  | or
  | coalesce
deriving DecidableEq, Repr

namespace BinaryOp

/-- How the operators are written. -/
def spellings : List (String × BinaryOp) :=
  [("+", .add), ("-", .sub), ("*", .mul), ("/", .div), ("%", .rem), ("<<", .shl), ("&", .bitAnd),
   ("|", .bitOr), ("^", .bitXor), ("==", .eq), ("!=", .ne), ("<", .lt), (">", .gt), ("<=", .le),
   (">=", .ge), ("&&", .and), ("||", .or), ("??", .coalesce)]

def ofSpelling? (text : String) : Option BinaryOp := spellings.lookup text

/-- How tightly an operator binds. -/
def precedence : BinaryOp → Nat
  | .coalesce => 1
  | .or => 2
  | .and => 3
  | .bitOr => 4
  | .bitXor => 5
  | .bitAnd => 6
  | .eq | .ne => 7
  | .lt | .gt | .le | .ge => 8
  | .shl => 9
  | .add | .sub => 10
  | .mul | .div | .rem => 11

/-- The least precedence of an operator in the right operand: only `??` groups to the right. -/
def rightPrecedence (op : BinaryOp) : Nat :=
  if op = .coalesce then op.precedence else op.precedence + 1

end BinaryOp

/-- Plain assignment, or an operator joined with it. -/
inductive AssignOp
  | assign
  | compound (op : BinaryOp)
deriving DecidableEq, Repr

namespace AssignOp

/-- How the assignments are written. -/
def spellings : List (String × AssignOp) :=
  [("=", .assign), ("+=", .compound .add), ("-=", .compound .sub), ("*=", .compound .mul),
   ("/=", .compound .div), ("%=", .compound .rem), ("&=", .compound .bitAnd),
   ("|=", .compound .bitOr), ("^=", .compound .bitXor), ("<<=", .compound .shl),
   ("??=", .compound .coalesce)]

def ofSpelling? (text : String) : Option AssignOp := spellings.lookup text

end AssignOp

/-- Operators written before their operand. -/
inductive UnaryOp
  | plus
  | minus
  | not
  | bitNot
  | increment
  | decrement
deriving DecidableEq, Repr

namespace UnaryOp

/-- How the operators before an operand are written. -/
def spellings : List (String × UnaryOp) :=
  [("+", .plus), ("-", .minus), ("!", .not), ("~", .bitNot), ("++", .increment),
   ("--", .decrement)]

def ofSpelling? (text : String) : Option UnaryOp := spellings.lookup text

end UnaryOp

/-! ### The tree -/

/-- The number of an expression within its tree, and its span. -/
structure Node where
  id : Nat
  span : Span
deriving DecidableEq, Repr

/-- An expression. `primitive` is a type word used as a receiver, as in `int.MaxValue`, and `step` is
`x++` or `x--`. -/
inductive Expr
  | literal (node : Node) (kind : LiteralKind) (text : String)
  | name (node : Node) (name : String)
  | primitive (node : Node) (type : Primitive)
  | this (node : Node)
  | parenthesized (node : Node) (inner : Expr)
  | memberAccess (node : Node) (receiver : Expr) (name : Ident)
  | invocation (node : Node) (callee : Expr) (arguments : List Expr)
  | elementAccess (node : Node) (receiver : Expr) (arguments : List Expr)
  | objectCreation (node : Node) (type : TypeExpr) (arguments : List Expr)
  | unary (node : Node) (op : UnaryOp) (operand : Expr)
  | step (node : Node) (increment : Bool) (operand : Expr)
  | cast (node : Node) (type : TypeExpr) (operand : Expr)
  | binary (node : Node) (op : BinaryOp) (left right : Expr)
  | assignment (node : Node) (op : AssignOp) (target value : Expr)
  | conditional (node : Node) (condition whenTrue whenFalse : Expr)
deriving Repr

namespace Expr

def node : Expr → Node
  | .literal node .. | .name node _ | .primitive node _ | .this node | .parenthesized node _
  | .memberAccess node .. | .invocation node .. | .elementAccess node .. | .objectCreation node ..
  | .unary node .. | .step node .. | .cast node .. | .binary node .. | .assignment node ..
  | .conditional node .. => node

def id (e : Expr) : Nat := e.node.id

def span (e : Expr) : Span := e.node.span

/-- Whether a member can be taken of the expression without parentheses around it. -/
def isPrimary : Expr → Bool
  | .literal .. | .name .. | .primitive .. | .this .. | .parenthesized .. | .memberAccess ..
  | .invocation .. | .elementAccess .. | .objectCreation .. | .step .. => true
  | .unary .. | .cast .. | .binary .. | .assignment .. | .conditional .. => false

/-- The direct parts of an expression, from left to right. -/
def children : Expr → List Expr
  | .literal .. | .name .. | .primitive .. | .this .. => []
  | .parenthesized _ inner => [inner]
  | .memberAccess _ receiver _ => [receiver]
  | .invocation _ callee arguments => callee :: arguments
  | .elementAccess _ receiver arguments => receiver :: arguments
  | .objectCreation _ _ arguments => arguments
  | .unary _ _ operand | .step _ _ operand | .cast _ _ operand => [operand]
  | .binary _ _ left right => [left, right]
  | .assignment _ _ target value => [target, value]
  | .conditional _ condition whenTrue whenFalse => [condition, whenTrue, whenFalse]

mutual

/-- An expression and all expressions inside it, each before its parts, with how deep it stands. -/
def walk (depth : Nat) : Expr → List (Expr × Nat)
  | e@(.literal ..) | e@(.name ..) | e@(.primitive ..) | e@(.this _) => [(e, depth)]
  | e@(.parenthesized _ inner) => (e, depth) :: walk (depth + 1) inner
  | e@(.memberAccess _ receiver _) => (e, depth) :: walk (depth + 1) receiver
  | e@(.invocation _ callee arguments) =>
    (e, depth) :: walk (depth + 1) callee ++ walkAll (depth + 1) arguments
  | e@(.elementAccess _ receiver arguments) =>
    (e, depth) :: walk (depth + 1) receiver ++ walkAll (depth + 1) arguments
  | e@(.objectCreation _ _ arguments) => (e, depth) :: walkAll (depth + 1) arguments
  | e@(.unary _ _ operand) | e@(.step _ _ operand) | e@(.cast _ _ operand) =>
    (e, depth) :: walk (depth + 1) operand
  | e@(.binary _ _ left right) =>
    (e, depth) :: walk (depth + 1) left ++ walk (depth + 1) right
  | e@(.assignment _ _ target value) =>
    (e, depth) :: walk (depth + 1) target ++ walk (depth + 1) value
  | e@(.conditional _ condition whenTrue whenFalse) =>
    (e, depth) :: walk (depth + 1) condition ++ walk (depth + 1) whenTrue ++
      walk (depth + 1) whenFalse

/-- The walks of several expressions one after the other. -/
def walkAll (depth : Nat) : List Expr → List (Expr × Nat)
  | [] => []
  | e :: es => walk depth e ++ walkAll depth es

end

theorem walkAll_eq_flatMap (depth : Nat) (es : List Expr) :
    walkAll depth es = es.flatMap (walk depth) := by
  induction es with
  | nil => rfl
  | cons e es ih => simp [walkAll, ih]

/-- The walk of an expression is the expression and then the walks of its parts. -/
theorem walk_eq (depth : Nat) (e : Expr) :
    e.walk depth = (e, depth) :: e.children.flatMap (walk (depth + 1)) := by
  cases e <;> simp [walk, children, walkAll_eq_flatMap]

end Expr

end CultureLint
