import CultureLint.Binding.Stmt
import CultureLint.Proofs.Binding.ScopeEvents
import CultureLint.Proofs.Binding.Steps

/-! Binding a body follows its scopes. Every step of binding does with the stack of locals, and with the
operations that declare or name a local, what the events of the code say that it binds: the stack behind it
is the one that replays the events, and the operations that were added declare the variables with the types
on the stack and refer to what a name is found to be there. -/

namespace CultureLint

/-! ### Operations on locals -/

/-- What an operation does with a variable. -/
inductive LocalOperation
  | declares (name : String) (type : Option TypeId) (origin : Origin)
  | refers (name : String) (type : Option TypeId) (origin : Origin)
deriving DecidableEq, Repr

def Operation.local? (op : Operation) : Option LocalOperation :=
  match op.kind with
  | .variableDeclaration name _ => some (.declares name op.type op.origin)
  | .localReference name => some (.refers name op.type op.origin)
  | _ => none

/-- What the operations of a document do with variables, in the order in which they were added. -/
def BoundUnit.locals (unit : BoundUnit) : List LocalOperation := unit.operations.toList.filterMap Operation.local?

theorem BoundUnit.locals_add (unit : BoundUnit) (op : Operation) :
    (unit.add op).locals = unit.locals ++ op.local?.toList := by
  have hadopted (index : Nat) (old : Operation) :
      (unit.adopted op.kind.children ⟨index⟩ old).local? = old.local? := by
    rw [adopted]
    split <;> rfl
  have hold : (unit.adopting op.kind.children).toList.map Operation.local? =
      unit.operations.toList.map Operation.local? := by
    apply List.ext_getElem?
    intro index
    simp [List.getElem?_map, Array.getElem?_toList, getElem?_adopting, Function.comp_def, hadopted]
  have hmap (ops : List Operation) : ops.filterMap Operation.local? = (ops.map Operation.local?).filterMap id := by
    rw [List.filterMap_map]
    rfl
  rw [locals, operations_add, Array.toList_push, List.filterMap_append, hmap, hold, ← hmap, locals]
  cases h : op.local? <;> simp [h]

namespace TypedEvent

/-- What is added for an event, in front of which some scopes are open. A name that is no local is none of
the operations here. -/
def tells (scopes : List Variables) : TypedEvent → List LocalOperation
  | .opening | .closing => []
  | .declaration (d, type) => [.declares d.name.name type d.span.origin]
  | .use node word => ((scopes.flatten.lookup word).map fun type => .refers word type node.origin).toList

/-- What is added for some events one after the other. -/
def tellsAll (scopes : List Variables) : List TypedEvent → List LocalOperation
  | [] => []
  | event :: events => event.tells scopes ++ tellsAll (event.step scopes) events

theorem tellsAll_append (scopes : List Variables) (events events' : List TypedEvent) :
    tellsAll scopes (events ++ events') = tellsAll scopes events ++ tellsAll (replay scopes events) events' := by
  induction events generalizing scopes with
  | nil => rfl
  | cons event events ih =>
    rw [List.cons_append, tellsAll, tellsAll, ih, List.append_assoc]
    rfl

end TypedEvent

namespace Bind

variable {α β : Type}

/-- The step does with locals what the events say, once the variables that are declared have types. -/
def Follows (m : Bind α) (events : List (ScopeEvent Declarator)) : Prop :=
  ∀ frame s, ∃ typed : List TypedEvent, typed.map TypedEvent.plain = events ∧
    (m frame s).2.locals = TypedEvent.replay s.locals typed ∧
    (m frame s).2.unit.locals = s.unit.locals ++ TypedEvent.tellsAll s.locals typed

namespace Follows

variable {m : Bind α} {k : α → Bind β} {events events' : List (ScopeEvent Declarator)}

theorem of_unchanged (h : ∀ frame s, (m frame s).2.locals = s.locals ∧ (m frame s).2.unit.locals = s.unit.locals) :
    Follows m [] := by
  intro frame s
  obtain ⟨hlocals, hunit⟩ := h frame s
  exact ⟨[], rfl, hlocals, by rw [hunit, TypedEvent.tellsAll, List.append_nil]⟩

theorem pure {a : α} : Follows (pure a : Bind α) [] := of_unchanged fun _ _ => ⟨rfl, rfl⟩

/-- The next step may depend on the result of this one. -/
theorem bind_result (h : Follows m events) (hk : ∀ frame s, Follows (k (m frame s).1) events') :
    Follows (m >>= k) (events ++ events') := by
  intro frame s
  obtain ⟨typed, htyped, hlocals, hunit⟩ := h frame s
  obtain ⟨typed', htyped', hlocals', hunit'⟩ := hk frame s frame (m frame s).2
  refine ⟨typed ++ typed', ?_, ?_, ?_⟩
  · rw [List.map_append, htyped, htyped']
  · rw [TypedEvent.replay_append, ← hlocals]
    exact hlocals'
  · rw [TypedEvent.tellsAll_append, ← hlocals, ← List.append_assoc, ← hunit]
    exact hunit'

theorem bind (h : Follows m events) (hk : ∀ a, Follows (k a) events') : Follows (m >>= k) (events ++ events') :=
  h.bind_result fun frame s => hk (m frame s).1

/-- A step that does nothing with locals, in front of another one. -/
theorem skip (h : Follows m []) (hk : ∀ a, Follows (k a) events) : Follows (m >>= k) events := h.bind hk

/-- A step that does nothing with locals, behind another one. -/
theorem finish (h : Follows m events) (hk : ∀ a, Follows (k a) []) : Follows (m >>= k) events := by
  rw [← List.append_nil events]
  exact h.bind hk

theorem map {g : α → β} (h : Follows m events) : Follows (g <$> m) events := by
  rw [← bind_pure_comp]
  exact h.finish fun _ => .pure

theorem ite {c : Prop} [Decidable c] {m' : Bind α} (h : Follows m events) (h' : Follows m' events) :
    Follows (if c then m else m') events := by
  split
  · exact h
  · exact h'

theorem mapM {f : α → Bind β} {g : α → List (ScopeEvent Declarator)} (h : ∀ a, Follows (f a) (g a))
    (as : List α) : Follows (as.mapM f) (as.flatMap g) := by
  induction as with
  | nil => exact .pure
  | cons a as ih =>
    rw [List.mapM_cons, List.flatMap_cons]
    exact (h a).bind fun _ => ih.finish fun _ => .pure

theorem optionMapM {f : α → Bind β} {g : α → List (ScopeEvent Declarator)} (h : ∀ a, Follows (f a) (g a))
    (a : Option α) : Follows (a.mapM f) (a.toList.flatMap g) := by
  cases a with
  | none => exact .pure
  | some a =>
    rw [Option.toList_some, List.flatMap_singleton]
    exact (h a).finish fun _ => .pure

/-! ### Steps that do nothing with locals -/

theorem readFrame : Follows (MonadReaderOf.read : Bind Frame) [] := of_unchanged fun _ _ => ⟨rfl, rfl⟩

theorem getCompilation : Follows getCompilation [] := of_unchanged fun _ _ => ⟨rfl, rfl⟩

theorem typeOf (op : OperationId) : Follows (typeOf op) [] := of_unchanged fun _ _ => ⟨rfl, rfl⟩

theorem isNull (op : OperationId) : Follows (isNull op) [] := by
  apply of_unchanged
  intro frame s
  rw [isNull_apply]
  exact ⟨rfl, rfl⟩

theorem resolveType (type : TypeExpr) : Follows (resolveType type) [] := of_unchanged fun _ _ => ⟨rfl, rfl⟩

theorem special (t : SpecialType) : Follows (special t) [] := of_unchanged fun _ _ => ⟨rfl, rfl⟩

theorem numericOf (type : Option TypeId) : Follows (numericOf type) [] := of_unchanged fun _ _ => ⟨rfl, rfl⟩

theorem isString (type : Option TypeId) : Follows (isString type) [] := of_unchanged fun _ _ => ⟨rfl, rfl⟩

theorem returnsNothing : Follows returnsNothing [] := of_unchanged fun _ _ => ⟨rfl, rfl⟩

theorem specialType (t : Option SpecialType) : Follows (specialType t) [] := by
  cases t with
  | none => exact .pure
  | some t => exact special t

theorem promotionOf (left right : Option TypeId) : Follows (promotionOf left right) [] := by
  apply skip (numericOf left)
  intro a
  apply skip (numericOf right)
  intro b
  cases a <;> cases b <;> exact .pure

/-- An operation that is neither a declaration nor the name of a local. -/
theorem add {op : Operation} (h : op.local? = none) : Follows (add op) [] := by
  apply of_unchanged
  intro frame s
  refine ⟨rfl, (s.unit.locals_add op).trans ?_⟩
  rw [h, Option.toList_none, List.append_nil]

theorem addInvalid (node : Node) (parts : List OperationId) : Follows (addInvalid node parts) [] := add rfl

theorem addImplicitThis (node : Node) : Follows (addImplicitThis node) [] := by
  apply skip readFrame
  intro frame
  exact add rfl

theorem convert (op : OperationId) (node : Node) (target : Option TypeId) : Follows (convert op node target) [] := by
  cases target with
  | none => exact .pure
  | some target =>
    refine skip getCompilation fun c => skip (typeOf op) fun type => skip (isNull op) fun isNull => ?_
    exact ite .pure (add rfl)

theorem convertSpecial (op : OperationId) (node : Node) (target : SpecialType) :
    Follows (convertSpecial op node target) [] := by
  apply skip (special target)
  intro type
  exact convert op node type

theorem asValue (node : Node) (bound : Bound) : Follows (asValue node bound) [] := by
  cases bound with
  | value op => exact .pure
  | type | namespaceName | methodGroup => exact addInvalid node _

/-- The value that an expression turned out to be. -/
theorem value {m : Bind OperationId} (h : Follows m events) :
    Follows (m >>= fun op => Pure.pure (Bound.value op)) events := h.finish fun _ => .pure

/-! ### Operators -/

variable (node : Node) (x y : Operand)

theorem convertOperand (target : Option TypeId) : Follows (convertOperand x target) [] := convert x.1 x.2 target

theorem concatOperand : Follows (concatOperand x) [] := by
  refine skip (typeOf x.1) fun type => skip (isString type) fun isString => ite .pure ?_
  apply skip (isNull x.1)
  intro isNull
  exact ite (convertSpecial x.1 x.2 _) (convertSpecial x.1 x.2 _)

theorem convertBoth (target : Option TypeId) : Follows (convertBoth x y target) [] := by
  apply skip (convertOperand x target)
  intro l
  apply skip (convertOperand y target)
  intro r
  exact .pure

theorem binaryOperands (op : BinaryOp) : Follows (binaryOperands op x y) [] := by
  refine skip (typeOf x.1) fun left => skip (typeOf y.1) fun right => skip (special _) fun boolean =>
    skip (promotionOf _ _) fun numeric => ?_
  have both (target type : Option TypeId) :
      Follows (Bind.convertBoth x y target >>= fun both => Pure.pure (both, type)) [] :=
    skip (convertBoth x y target) fun _ => .pure
  have calculate : Follows (Bind.specialType numeric >>= fun promoted =>
      Bind.convertBoth x y promoted >>= fun both => Pure.pure (both, promoted)) [] :=
    skip (specialType numeric) fun promoted => both promoted promoted
  cases op with
  | add =>
    refine skip (isString left) fun _ => skip (isString right) fun _ => ite ?_ (ite calculate .pure)
    refine skip (concatOperand x) fun l => skip (concatOperand y) fun r => skip (special _) fun _ => ?_
    exact .pure
  | sub | mul | div | rem => exact ite calculate .pure
  | shl =>
    refine skip (numericOf left) fun _ => skip (specialType _) fun _ => skip (convertOperand x _) fun _ => ?_
    exact skip (convertSpecial y.1 y.2 _) fun _ => .pure
  | bitAnd | bitOr | bitXor => exact ite .pure (ite calculate .pure)
  | eq | ne | lt | gt | le | ge => exact skip (specialType numeric) fun _ => both _ _
  | and | or => exact both _ _
  | coalesce => exact .pure

theorem binary (op : BinaryOp) : Follows (binary node op x y) [] := by
  apply skip (binaryOperands x y op)
  intro operands
  exact add rfl

theorem assignment (op : AssignOp) (target : OperationId) : Follows (assignment node op target x) [] := by
  apply skip (typeOf target)
  intro type
  cases op with
  | assign => exact skip (convertOperand x type) fun _ => add rfl
  | compound op =>
    refine skip (isString type) fun _ => ite (skip (concatOperand x) fun _ => add rfl) ?_
    refine skip (typeOf x.1) fun _ => skip (promotionOf type _) fun _ => skip (specialType _) fun _ => ?_
    exact skip (convertOperand x _) fun _ => add rfl

theorem conditional (condition : OperationId) : Follows (conditional node condition x y) [] := by
  refine skip getCompilation fun _ => skip (typeOf x.1) fun _ => skip (typeOf y.1) fun _ =>
    skip (isNull x.1) fun _ => skip (isNull y.1) fun _ => skip (convertBoth x y _) fun _ => ?_
  exact add rfl

theorem unary (op : UnaryOp) : Follows (unary node op x) [] := by
  cases op with
  | increment | decrement => exact skip (typeOf x.1) fun _ => add rfl
  | not => exact skip (special _) fun _ => skip (convertOperand x _) fun _ => add rfl
  | plus | minus | bitNot =>
    refine skip (typeOf x.1) fun type => skip (numericOf type) fun numeric => ?_
    cases numeric with
    | none => exact add rfl
    | some s => exact skip (convertSpecial x.1 x.2 _) fun _ => skip (special _) fun _ => add rfl

theorem step (isIncrement : Bool) (op : OperationId) : Follows (step node isIncrement op) [] :=
  skip (typeOf op) fun _ => add rfl

theorem cast (target : Option TypeId) (op : OperationId) : Follows (cast node target op) [] := by
  cases target with
  | none => exact addInvalid node _
  | some target => exact skip getCompilation fun _ => skip (typeOf op) fun _ => skip (isNull op) fun _ => add rfl

/-! ### Names, members and calls -/

/-- The use of a member through a receiver, which may be left out. -/
theorem reference {receiver : Option OperationId} (kind : Option OperationId → OperationKind)
    (type : Option TypeId) (hkind : ∀ op, (⟨kind op, type, node.origin, false, none⟩ : Operation).local? = none)
    {c : Frame → Prop} [DecidablePred c] :
    Follows (do
      let op ← if c (← read) then some <$> Bind.addImplicitThis node else Pure.pure receiver
      return some (Bound.value (← Bind.addExpr node (kind op) type))) [] := by
  have use (op : Option OperationId) :
      Follows (Bind.addExpr node (kind op) type >>= fun r => Pure.pure (some (Bound.value r))) [] :=
    skip (add (hkind op)) fun _ => .pure
  refine skip readFrame fun frame => ite ?_ (use receiver)
  exact skip (addImplicitThis node).map use

theorem member? (owner : TypeId) (name : String) (receiver : Receiver) :
    Follows (member? node owner name receiver) [] := by
  apply skip getCompilation
  intro c
  cases c.membersNamed owner name with
  | nil => exact .pure
  | cons found others =>
    obtain ⟨ref, member⟩ := found
    cases member with
    | method symbol => exact .pure
    | property symbol =>
      exact reference node (.propertyReference ref) symbol.type (fun _ => rfl)
        (c := fun frame => (receiver = .implicit && !symbol.isStatic && !frame.inStatic) = true)
    | field symbol =>
      exact reference node (.fieldReference ref) symbol.type (fun _ => rfl)
        (c := fun frame => (receiver = .implicit && !symbol.isStatic && !frame.inStatic) = true)

/-- What a name means that is no local. -/
theorem otherName (word : String) : Follows (do
    if let some type := (← read).parameters.lookup word then
      return .value (← Bind.addExpr node (.parameterReference word) type)
    if let some bound ← Bind.member? node (← read).containing word .implicit then
      return bound
    match (← read).scope.resolveName (← Bind.getCompilation) word with
    | some target => return .ofTarget target
    | none => return .value (← Bind.addInvalid node [])) [] := by
  apply skip readFrame
  intro frame
  cases frame.parameters.lookup word with
  | some type => exact value (add rfl)
  | none =>
    refine skip readFrame fun frame => skip (member? node _ word .implicit) fun bound => ?_
    cases bound with
    | some bound => exact .pure
    | none =>
      refine skip readFrame fun frame => skip getCompilation fun c => ?_
      cases frame.scope.resolveName c word with
      | some target => exact .pure
      | none => exact value (addInvalid node [])

/-- A name is looked up among the locals first. -/
theorem name (word : String) : Follows (name node word) [.use node word] := by
  intro frame s
  have hlocal : local? word frame s = (s.locals.flatten.lookup word, s) := rfl
  rw [Bind.name, bind_of_asks hlocal]
  cases hfound : s.locals.flatten.lookup word with
  | some type =>
    refine ⟨[.use node word], rfl, rfl, (s.unit.locals_add _).trans ?_⟩
    simp [TypedEvent.tellsAll, TypedEvent.tells, hfound, Operation.local?]
  | none =>
    obtain ⟨typed, htyped, hlocals, hunit⟩ := otherName node word frame s
    obtain rfl := List.map_eq_nil_iff.1 htyped
    refine ⟨[.use node word], rfl, hlocals, hunit.trans ?_⟩
    simp [TypedEvent.tellsAll, TypedEvent.tells, hfound]

theorem memberAccess (receiver : Bound) (word : String) : Follows (memberAccess node receiver word) [] := by
  cases receiver with
  | namespaceName space =>
    apply skip getCompilation
    intro c
    cases Scope.resolveMember c (.namespaceName space) word with
    | some target => exact .pure
    | none => exact value (addInvalid node [])
  | type id =>
    apply skip (member? node id word .typeName)
    intro bound
    cases bound with
    | some bound => exact .pure
    | none => exact value (addInvalid node [])
  | value op =>
    apply skip (typeOf op)
    intro type
    cases type with
    | none => exact value (addInvalid node [op])
    | some id =>
      apply skip (member? node id word (.value op))
      intro bound
      cases bound with
      | some bound => exact .pure
      | none => exact value (addInvalid node [op])
  | methodGroup => exact value (addInvalid node _)

theorem convertArguments (args : List Operand) (parameters : List ParameterSymbol) :
    Follows (convertArguments args parameters) [] := by
  induction args generalizing parameters with
  | nil => cases parameters <;> exact .pure
  | cons x args ih =>
    cases parameters with
    | nil => exact .pure
    | cons p parameters => exact skip (convert x.1 x.2 p.type) fun _ => skip (ih parameters) fun _ => .pure

theorem callGroup (owner : TypeId) (word : String) (receiver : Receiver) (args : List Operand) :
    Follows (callGroup node owner word receiver args) [] := by
  have htypes : Follows (args.mapM fun x => do
      return ((← Bind.typeOf x.1, ← Bind.isNull x.1) : ArgumentType)) [] := by
    have hall := mapM (g := fun _ => []) (fun x : Operand =>
      (skip (typeOf x.1) fun type => skip (isNull x.1) fun isNull =>
        (.pure : Follows (Pure.pure ((type, isNull) : ArgumentType)) []))) args
    rwa [List.flatMap_eq_nil_iff.2 fun _ _ => rfl] at hall
  refine skip htypes fun types => skip getCompilation fun c => ?_
  cases overload? c owner word types with
  | none => exact add rfl
  | some found =>
    obtain ⟨ref, method⟩ := found
    have call (op : Option OperationId) :
        Follows (Bind.convertArguments args method.parameters >>= fun arguments =>
          Bind.addExpr node (.invocation (some ref) op arguments) method.returns) [] :=
      skip (convertArguments args method.parameters) fun _ => add rfl
    refine skip readFrame fun frame => ite ?_ (call _)
    exact skip (addImplicitThis node).map call

theorem invocation (callee : Bound) (args : List Operand) : Follows (invocation node callee args) [] := by
  cases callee with
  | methodGroup owner word receiver => exact callGroup node owner word receiver args
  | value | type | namespaceName => exact addInvalid node _

theorem elementAccess (receiver : OperationId) (args : List OperationId) :
    Follows (elementAccess node receiver args) [] :=
  skip getCompilation fun _ => skip (typeOf receiver) fun _ => add rfl

end Follows

end Bind

end CultureLint
