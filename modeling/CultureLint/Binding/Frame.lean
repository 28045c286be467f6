import CultureLint.Binding.Operation
import CultureLint.Binding.Scope

/-! The state in which a body is bound: what surrounds it, and what has been made so far. Binding goes
through a body from left to right; it adds operations, declares locals, and creates array and nullable
types when it meets them. -/

namespace CultureLint

/-- Variables of a body with their types, where they have one. -/
abbrev Variables := List (String × Option TypeId)

/-- What surrounds a body: the visible names, the type it belongs to, whether it belongs to an
instance, what it returns, and its parameters. -/
structure Frame where
  scope : Scope
  containing : TypeId
  inStatic : Bool
  returns : Option TypeId := none
  parameters : Variables := []

/-- What has been made so far: types, operations, and locals. The innermost block of locals is the
first, and in each the latest local. -/
structure BindState where
  compilation : Compilation
  unit : BoundUnit
  locals : List Variables := []

/-- A step of binding. -/
abbrev Bind := ReaderT Frame (StateM BindState)

namespace Node

/-- The origin of an operation that is written as an expression. -/
def origin (node : Node) : Origin := ⟨some node.id, node.span⟩

end Node

namespace Span

/-- The origin of an operation that no expression of its own stands for. -/
def origin (span : Span) : Origin := ⟨none, span⟩

end Span

namespace Bind

variable {α : Type}

def getCompilation : Bind Compilation := return (← get).compilation

def getUnit : Bind BoundUnit := return (← get).unit

/-- A step that creates types. -/
def liftTypes (action : StateM Compilation α) : Bind α :=
  modifyGet fun s =>
    let (a, compilation) := action s.compilation
    (a, { s with compilation })

/-- The type that a written type means here. -/
def resolveType (type : TypeExpr) : Bind (Option TypeId) := do
  liftTypes ((← read).scope.resolveType type)

def special (s : SpecialType) : Bind (Option TypeId) := return (← getCompilation).special? s

/-- The special type that a type is. -/
def specialOf (type : Option TypeId) : Bind (Option SpecialType) := do
  let c ← getCompilation
  return type.bind fun id => (c.symbol id).special

/-- The numeric type that a type is. -/
def numericOf (type : Option TypeId) : Bind (Option SpecialType) :=
  return (← specialOf type).filter SpecialType.isNumeric

def isString (type : Option TypeId) : Bind Bool := return (← specialOf type) = some .string

def typeOf (op : OperationId) : Bind (Option TypeId) := return (← getUnit).typeOf op

/-- Whether an operation is the literal `null`. -/
def isNull (op : OperationId) : Bind Bool := do
  match (← getUnit).get? op with
  | some { kind := .literal .null, .. } => return true
  | _ => return false

/-! ### Operations -/

/-- Adds an operation. -/
def add (op : Operation) : Bind OperationId :=
  modifyGet fun s => (s.unit.nextId, { s with unit := s.unit.add op })

/-- Adds an operation that is written as an expression. -/
def addExpr (node : Node) (kind : OperationKind) (type : Option TypeId) : Bind OperationId :=
  add ⟨kind, type, node.origin, false, none⟩

/-- Adds an operation that is written as a statement. -/
def addStmt (span : Span) (kind : OperationKind) : Bind OperationId :=
  add ⟨kind, none, span.origin, false, none⟩

/-- Adds an expression without a meaning. -/
def addInvalid (node : Node) (parts : List OperationId) : Bind OperationId :=
  addExpr node (.invalid parts) none

/-- Adds the `this` that a use of a member leaves out. -/
def addImplicitThis (node : Node) : Bind OperationId := do
  add ⟨.instanceReference, some (← read).containing, (Span.empty node.span.start).origin, true, none⟩

/-- Makes an operation a value of the target type. A conversion is added, also one that does not
exist, unless the types agree or the target is unknown. -/
def convert (op : OperationId) (node : Node) (target : Option TypeId) : Bind OperationId := do
  match target with
  | none => return op
  | some target =>
    let conversion :=
      (← getCompilation).convertImplicit (← typeOf op) (← isNull op) target
    if conversion.isIdentity then
      return op
    add ⟨.conversion op conversion, some target, node.origin, true, none⟩

def convertSpecial (op : OperationId) (node : Node) (target : SpecialType) : Bind OperationId := do
  convert op node (← special target)

/-! ### Locals -/

/-- Declares a local in the innermost block. -/
def declareLocal (name : String) (type : Option TypeId) : Bind Unit :=
  modify fun s =>
    { s with
      locals :=
        match s.locals with
        | [] => [[(name, type)]]
        | innermost :: outer => ((name, type) :: innermost) :: outer }

/-- Does something in a block of its own. -/
def inBlock (action : Bind α) : Bind α := do
  modify fun s => { s with locals := [] :: s.locals }
  let a ← action
  modify fun s => { s with locals := s.locals.tail }
  return a

/-- The type of the local that a name refers to. -/
def local? (name : String) : Bind (Option (Option TypeId)) := return (← get).locals.flatten.lookup name

/-- Whether a body gives nothing back. -/
def returnsNothing : Bind Bool := do
  let c ← getCompilation
  return (← read).returns.all fun id => c.isSpecial id .void

end Bind

end CultureLint
