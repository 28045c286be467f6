import CultureLint.Symbol.Conversion
import CultureLint.Tree.Expr

/-! What the bodies of a document do, with all names and types found. The operations of a document
form a forest: each is added after its parts and then becomes their parent. -/

namespace CultureLint

/-- An operation, by its place among the operations of its document. -/
structure OperationId where
  index : Nat
deriving DecidableEq, Repr

/-- The code that an operation comes from: its span, and the number of its expression if it is one. -/
structure Origin where
  node : Option Nat
  span : Span
deriving DecidableEq, Repr

/-- What is done, and with which operations. `invalid` is code without a meaning; its parts are kept. -/
inductive OperationKind
  | block (items : List OperationId)
  | variableDeclaration (name : String) (value : Option OperationId)
  | expressionStatement (value : OperationId)
  | ret (value : Option OperationId)
  | branch (condition whenTrue : OperationId) (whenFalse : Option OperationId)
  | loop (start condition : Option OperationId) (iterators : List OperationId) (body : OperationId)
  | empty
  | literal (kind : LiteralKind)
  | localReference (name : String)
  | parameterReference (name : String)
  | instanceReference
  | fieldReference (field : MemberRef) (receiver : Option OperationId)
  | propertyReference (property : MemberRef) (receiver : Option OperationId)
  | invocation (method : Option MemberRef) (receiver : Option OperationId)
      (arguments : List OperationId)
  | objectCreation (arguments : List OperationId)
  | elementAccess (receiver : OperationId) (arguments : List OperationId)
  | unary (op : UnaryOp) (operand : OperationId)
  | increment (operand : OperationId) (isIncrement isTrailing : Bool)
  | binary (op : BinaryOp) (left right : OperationId)
  | simpleAssignment (target value : OperationId)
  | compoundAssignment (op : BinaryOp) (target value : OperationId)
  | conditional (condition whenTrue whenFalse : OperationId)
  | conversion (operand : OperationId) (conversion : Conversion)
  | invalid (parts : List OperationId)
deriving DecidableEq, Repr

/-- The parts of an operation in the order they are written. -/
def OperationKind.children : OperationKind → List OperationId
  | .block items | .invalid items | .objectCreation items => items
  | .variableDeclaration _ value | .ret value => value.toList
  | .expressionStatement op | .unary _ op | .increment op _ _ | .conversion op _ => [op]
  | .branch condition whenTrue whenFalse => condition :: whenTrue :: whenFalse.toList
  | .loop start condition iterators body =>
    start.toList ++ condition.toList ++ iterators ++ [body]
  | .empty | .literal _ | .localReference _ | .parameterReference _ | .instanceReference => []
  | .fieldReference _ receiver | .propertyReference _ receiver => receiver.toList
  | .invocation _ receiver arguments => receiver.toList ++ arguments
  | .elementAccess receiver arguments => receiver :: arguments
  | .binary _ left right | .simpleAssignment left right | .compoundAssignment _ left right =>
    [left, right]
  | .conditional condition whenTrue whenFalse => [condition, whenTrue, whenFalse]

/-- An operation. Statements, `null` and code without a meaning have no type; an implicit operation
is one that nobody wrote. -/
structure Operation where
  kind : OperationKind
  type : Option TypeId
  origin : Origin
  isImplicit : Bool
  parent : Option OperationId := none
deriving DecidableEq, Repr

/-- The operations of one document, and those among them that stand alone. -/
structure BoundUnit where
  operations : Array Operation := #[]
  roots : List OperationId := []
deriving Repr

namespace BoundUnit

variable (unit : BoundUnit)

def get? (id : OperationId) : Option Operation := unit.operations[id.index]?

def parent? (id : OperationId) : Option Operation := do unit.get? (← (← unit.get? id).parent)

/-- The type of an operation. -/
def typeOf (id : OperationId) : Option TypeId := (unit.get? id).bind (·.type)

/-- The parts of an operation. -/
def childrenOf (id : OperationId) : List OperationId :=
  ((unit.get? id).map (·.kind.children)).getD []

/-- The number that the next operation will have. -/
def nextId : OperationId := ⟨unit.operations.size⟩

/-- Adds an operation and makes it the parent of its parts. -/
def add (op : Operation) : BoundUnit :=
  let adopt (ops : Array Operation) (child : OperationId) : Array Operation :=
    ops.modify child.index fun part => { part with parent := some unit.nextId }
  { unit with operations := (op.kind.children.foldl adopt unit.operations).push op }

def addRoot (id : OperationId) : BoundUnit := { unit with roots := unit.roots ++ [id] }

/-- The first operations that are met from some on, each before its parts. -/
def visitUpTo : Nat → List OperationId → List OperationId
  | 0, _ => []
  | _ + 1, [] => []
  | bound + 1, id :: pending => id :: visitUpTo bound (unit.childrenOf id ++ pending)

/-- All operations in the order of the document, each before its parts. -/
def descendants : List OperationId := unit.visitUpTo unit.operations.size unit.roots

/-- Whether an operation converts a value. -/
def isConversion (id : OperationId) : Bool :=
  match unit.get? id with
  | some { kind := .conversion .., .. } => true
  | _ => false

/-- The conversions in the order of the document. -/
def conversions : List OperationId := unit.descendants.filter unit.isConversion

end BoundUnit

end CultureLint
