import CultureLint.Binding.Frame

/-! Names, members and calls. -/

namespace CultureLint

/-- Through what a member is used: a value, the name of a type, or nothing, inside its own type. -/
inductive Receiver
  | value (op : OperationId)
  | typeName
  | implicit
deriving DecidableEq, Repr

/-- What an expression turns out to be. Only a value is an operation. -/
inductive Bound
  | value (op : OperationId)
  | type (id : TypeId)
  | namespaceName (name : String)
  | methodGroup (owner : TypeId) (name : String) (receiver : Receiver)
deriving DecidableEq, Repr

/-- The operation of a receiver. -/
def Receiver.value? : Receiver → Option OperationId
  | .value op => some op
  | .typeName | .implicit => none

/-- The operation inside what an expression turned out to be. -/
def Bound.value? : Bound → Option OperationId
  | .value op => some op
  | .methodGroup _ _ receiver => receiver.value?
  | .type _ | .namespaceName _ => none

def Bound.ofTarget : NameTarget → Bound
  | .type id => .type id
  | .namespaceName name => .namespaceName name

namespace Bind

/-- What an expression turned out to be, as a value; anything else has no meaning there. -/
def asValue (node : Node) (bound : Bound) : Bind OperationId :=
  match bound with
  | .value op => return op
  | other => addInvalid node other.value?.toList

/-! ### Members -/

/-- The use of a name as a member of a type, if it has such a member. -/
def member? (node : Node) (owner : TypeId) (name : String) (receiver : Receiver) :
    Bind (Option Bound) := do
  match (← getCompilation).membersNamed owner name with
  | [] => return none
  | (ref, member) :: _ =>
    match member.value? with
    | none => return some (.methodGroup owner name receiver)
    | some value =>
      let op ←
        if receiver = .implicit && !value.isStatic && !(← read).inStatic then
          some <$> addImplicitThis node
        else pure receiver.value?
      let kind :=
        match member with
        | .field _ => .fieldReference ref op
        | _ => .propertyReference ref op
      return some (.value (← addExpr node kind value.type))

/-- A simple name: a local, a parameter, a member of the own type, or a type or namespace. -/
def name (node : Node) (name : String) : Bind Bound := do
  if let some type ← local? name then
    return .value (← addExpr node (.localReference name) type)
  if let some type := (← read).parameters.lookup name then
    return .value (← addExpr node (.parameterReference name) type)
  if let some bound ← member? node (← read).containing name .implicit then
    return bound
  match (← read).scope.resolveName (← getCompilation) name with
  | some target => return .ofTarget target
  | none => return .value (← addInvalid node [])

/-- The member of what an expression turned out to be. -/
def memberAccess (node : Node) (receiver : Bound) (name : String) : Bind Bound := do
  match receiver with
  | .namespaceName space =>
    match Scope.resolveMember (← getCompilation) (.namespaceName space) name with
    | some target => return .ofTarget target
    | none => return .value (← addInvalid node [])
  | .type id =>
    match ← member? node id name .typeName with
    | some bound => return bound
    | none => return .value (← addInvalid node [])
  | .value op =>
    match ← typeOf op with
    | none => return .value (← addInvalid node [op])
    | some id =>
      match ← member? node id name (.value op) with
      | some bound => return bound
      | none => return .value (← addInvalid node [op])
  | .methodGroup _ _ receiver => return .value (← addInvalid node receiver.value?.toList)

/-! ### Calls -/

/-- An argument: its type, and whether it is the literal `null`. -/
abbrev ArgumentType := Option TypeId × Bool

/-- How arguments become the values of parameters, if all of them do. -/
def argumentConversions? (c : Compilation) :
    List ParameterSymbol → List ArgumentType → Option (List Conversion)
  | [], [] => some []
  | p :: ps, (type, isNull) :: args => do
    let conversion := c.convertImplicit type isNull (← p.type)
    if conversion.isConversion then
      return conversion :: (← argumentConversions? c ps args)
    else none
  | _, _ => none

/-- The methods among members that take the arguments, each with how many it takes as they are. -/
def applicable (c : Compilation) (members : List (MemberRef × Member)) (args : List ArgumentType) :
    List (Nat × MemberRef × MethodSymbol) :=
  members.filterMap fun (ref, member) => do
    let method ← member.method?
    let conversions ← argumentConversions? c method.parameters args
    return (conversions.countP Conversion.isIdentity, ref, method)

/-- The first of the methods that takes the most arguments as they are. -/
def bestMethod? (methods : List (Nat × MemberRef × MethodSymbol)) :
    Option (MemberRef × MethodSymbol) :=
  (methods.foldl (fun best next =>
    if best.all fun (found : Nat × MemberRef × MethodSymbol) => found.1 < next.1 then some next
    else best) none).map (·.2)

/-- The method that a call of a name means. -/
def overload? (c : Compilation) (owner : TypeId) (name : String) (args : List ArgumentType) :
    Option (MemberRef × MethodSymbol) :=
  bestMethod? (applicable c (c.membersNamed owner name) args)

/-- Converts arguments, each written as an expression, to the types of parameters. -/
def convertArguments :
    List (OperationId × Node) → List ParameterSymbol → Bind (List OperationId)
  | (arg, node) :: args, p :: ps => do
    let first ← convert arg node p.type
    return first :: (← convertArguments args ps)
  | _, _ => return []

/-- A call of a group of methods. -/
def callGroup (node : Node) (owner : TypeId) (name : String) (receiver : Receiver)
    (args : List (OperationId × Node)) : Bind OperationId := do
  let types ← args.mapM fun (op, _) => do return ((← typeOf op, ← isNull op) : ArgumentType)
  match overload? (← getCompilation) owner name types with
  | none => addExpr node (.invocation none receiver.value? (args.map (·.1))) none
  | some (ref, method) =>
    let op ←
      if receiver = .implicit && !method.isStatic && !(← read).inStatic then
        some <$> addImplicitThis node
      else pure receiver.value?
    let arguments ← convertArguments args method.parameters
    addExpr node (.invocation (some ref) op arguments) method.returns

/-- A call of what an expression turned out to be. -/
def invocation (node : Node) (callee : Bound) (args : List (OperationId × Node)) :
    Bind OperationId :=
  match callee with
  | .methodGroup owner name receiver => callGroup node owner name receiver args
  | .value op => addInvalid node (op :: args.map (·.1))
  | .type _ | .namespaceName _ => addInvalid node (args.map (·.1))

/-- An index into a value: of an array its element, of a string a character. -/
def elementAccess (node : Node) (receiver : OperationId) (args : List OperationId) :
    Bind OperationId := do
  let c ← getCompilation
  let type := (← typeOf receiver).bind fun id =>
    match (c.symbol id).kind with
    | .array element => some element
    | _ => if c.isSpecial id .string then c.special? .char else none
  addExpr node (.elementAccess receiver args) type

end Bind

end CultureLint
