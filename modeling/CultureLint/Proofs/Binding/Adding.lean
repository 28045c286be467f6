import CultureLint.Binding.Stmt
import CultureLint.Proofs.Binding.Chain
import CultureLint.Proofs.Binding.Laying

/-! Binding never takes an operation back. `Bind.Adds` says so of one step; a step that is put together of such
steps is found to be one by the search for instances. -/

namespace CultureLint

namespace Bind

variable {α β : Type}

/-- The step keeps all operations that there are, whatever it starts from. -/
class Adds (m : Bind α) : Prop where
  ext : ∀ (frame : Frame) (s : BindState), s.unit.Extends (m frame s).2.unit

theorem Quiet.adds {m : Bind α} (h : Quiet m) : Adds m := ⟨fun frame s => by
  rw [h frame s]
  exact .refl _⟩

namespace Adds

variable {m m' : Bind α} {k : α → Bind β}

instance pure (a : α) : Adds (Pure.pure a : Bind α) := Quiet.pure.adds

instance bind [Adds m] [∀ a, Adds (k a)] : Adds (m >>= k) :=
  ⟨fun frame s => (ext (m := m) frame s).trans (ext (m := k (m frame s).1) frame _)⟩

instance map {g : α → β} [Adds m] : Adds (g <$> m) := ⟨fun frame s => ext (m := m) frame s⟩

instance ite {c : Prop} [Decidable c] [Adds m] [Adds m'] : Adds (if c then m else m') := by
  split <;> infer_instance

instance mapM {f : α → Bind β} [∀ a, Adds (f a)] (as : List α) : Adds (as.mapM f) := by
  induction as with
  | nil => exact .pure _
  | cons a as ih =>
    rw [List.mapM_cons]
    infer_instance

instance optionMapM {f : α → Bind β} [∀ a, Adds (f a)] (a : Option α) : Adds (a.mapM f) := by
  cases a with
  | none => exact .pure _
  | some a => exact inferInstanceAs (Adds (some <$> f a))

instance read : Adds (MonadReaderOf.read : Bind Frame) := Quiet.read.adds
instance readThis : Adds (MonadReader.read : Bind Frame) := Quiet.read.adds
instance getCompilation : Adds getCompilation := Quiet.getCompilation.adds
instance typeOf (op : OperationId) : Adds (typeOf op) := (Quiet.typeOf op).adds
instance isNull (op : OperationId) : Adds (isNull op) := (Quiet.isNull op).adds
instance resolveType (type : TypeExpr) : Adds (resolveType type) := (Quiet.resolveType type).adds
instance special (t : SpecialType) : Adds (special t) := (Quiet.special t).adds
instance numericOf (type : Option TypeId) : Adds (numericOf type) := (Quiet.numericOf type).adds
instance isString (type : Option TypeId) : Adds (isString type) := (Quiet.isString type).adds
instance specialType (t : Option SpecialType) : Adds (specialType t) := (Quiet.specialType t).adds
instance promotionOf (a b : Option TypeId) : Adds (promotionOf a b) := (Quiet.promotionOf a b).adds
instance local? (word : String) : Adds (local? word) := Quiet.adds fun _ _ => rfl
instance returnsNothing : Adds returnsNothing := Quiet.adds fun _ _ => rfl
instance declareLocal (word : String) (type : Option TypeId) : Adds (declareLocal word type) :=
  Quiet.adds fun _ _ => rfl

instance inBlock [Adds m] : Adds (inBlock m) := ⟨fun frame s => ext (m := m) frame { s with locals := [] :: s.locals }⟩

/-! ### Operations -/

instance add (op : Operation) : Adds (add op) := ⟨fun _ s => s.unit.extends_add op⟩

variable (node : Node)

instance addExpr (kind : OperationKind) (type : Option TypeId) : Adds (addExpr node kind type) := add _
instance addStmt (span : Span) (kind : OperationKind) : Adds (addStmt span kind) := add _
instance addInvalid (parts : List OperationId) : Adds (addInvalid node parts) := add _

instance addImplicitThis : Adds (addImplicitThis node) := by
  unfold Bind.addImplicitThis
  infer_instance

instance convert (op : OperationId) (target : Option TypeId) : Adds (convert op node target) := by
  cases target with
  | none => exact .pure op
  | some target =>
    unfold Bind.convert
    infer_instance

instance convertSpecial (op : OperationId) (target : SpecialType) : Adds (convertSpecial op node target) := by
  unfold Bind.convertSpecial
  infer_instance

instance convertOperand (x : Operand) (target : Option TypeId) : Adds (convertOperand x target) :=
  convert x.2 x.1 target

/-! ### Operators -/

instance unary (op : UnaryOp) (x : Operand) : Adds (unary node op x) := by
  cases op with
  | increment | decrement | not => unfold Bind.unary; infer_instance
  | plus | minus | bitNot =>
    refine @bind _ _ _ _ _ fun type => @bind _ _ _ _ _ fun numeric => ?_
    cases numeric <;> infer_instance

instance step (increment : Bool) (op : OperationId) : Adds (step node increment op) := by
  unfold Bind.step
  infer_instance

instance cast (target : Option TypeId) (op : OperationId) : Adds (cast node target op) := by
  unfold Bind.cast
  cases target <;> infer_instance

instance concatOperand (x : Operand) : Adds (concatOperand x) := by
  unfold Bind.concatOperand
  infer_instance

instance convertBoth (x y : Operand) (target : Option TypeId) : Adds (convertBoth x y target) := by
  unfold Bind.convertBoth
  infer_instance

instance binaryOperands (op : BinaryOp) (x y : Operand) : Adds (binaryOperands op x y) := by
  refine @bind _ _ _ _ _ fun _ => @bind _ _ _ _ _ fun _ => @bind _ _ _ _ _ fun _ => @bind _ _ _ _ _ fun _ => ?_
  dsimp only
  cases op <;> dsimp only <;> infer_instance

instance binary (op : BinaryOp) (x y : Operand) : Adds (binary node op x y) := by
  unfold Bind.binary
  infer_instance

instance assignment (op : AssignOp) (target : OperationId) (x : Operand) :
    Adds (assignment node op target x) := by
  unfold Bind.assignment
  cases op <;> infer_instance

instance conditional (condition : OperationId) (x y : Operand) : Adds (conditional node condition x y) := by
  unfold Bind.conditional
  infer_instance

/-! ### Members -/

instance asValue (bound : Bound) : Adds (asValue node bound) := by
  cases bound with
  | value op => exact pure op
  | type | namespaceName | methodGroup => exact addInvalid node _

instance member? (owner : TypeId) (word : String) (receiver : Receiver) :
    Adds (member? node owner word receiver) := by
  refine @bind _ _ _ _ _ fun c => ?_
  cases c.membersNamed owner word with
  | nil => infer_instance
  | cons found others =>
    obtain ⟨ref, member⟩ := found
    cases member <;> dsimp only [Member.value?] <;> infer_instance

instance name (word : String) : Adds (name node word) := by
  refine @bind _ _ _ _ _ fun found => ?_
  cases found with
  | some type => infer_instance
  | none =>
    refine @bind _ _ _ _ _ fun frame => ?_
    cases frame.parameters.lookup word with
    | some type => infer_instance
    | none =>
      refine @bind _ _ _ _ _ fun frame => @bind _ _ _ _ _ fun bound => ?_
      cases bound with
      | some bound => infer_instance
      | none =>
        refine @bind _ _ _ _ _ fun frame => @bind _ _ _ _ _ fun c => ?_
        cases frame.scope.resolveName c word <;> infer_instance

instance memberAccess (receiver : Bound) (word : String) : Adds (memberAccess node receiver word) := by
  cases receiver with
  | namespaceName space =>
    refine @bind _ _ _ _ _ fun c => ?_
    cases Scope.resolveMember c (.namespaceName space) word <;> infer_instance
  | type id =>
    refine @bind _ _ _ _ _ fun bound => ?_
    cases bound <;> infer_instance
  | value op =>
    refine @bind _ _ _ _ _ fun type => ?_
    cases type with
    | none => infer_instance
    | some id =>
      refine @bind _ _ _ _ _ fun bound => ?_
      cases bound <;> infer_instance
  | methodGroup => unfold Bind.memberAccess; infer_instance

instance convertArguments (args : List Operand) (parameters : List ParameterSymbol) :
    Adds (convertArguments args parameters) := by
  induction args generalizing parameters with
  | nil => cases parameters <;> exact .pure _
  | cons x args ih =>
    cases parameters with
    | nil => exact .pure _
    | cons p parameters =>
      unfold Bind.convertArguments
      infer_instance

instance callGroup (owner : TypeId) (word : String) (receiver : Receiver) (args : List Operand) :
    Adds (callGroup node owner word receiver args) := by
  refine @bind _ _ _ _ _ fun types => @bind _ _ _ _ _ fun c => ?_
  obtain _ | ⟨ref, method⟩ := overload? c owner word types <;> infer_instance

instance invocation (callee : Bound) (args : List Operand) : Adds (invocation node callee args) := by
  unfold Bind.invocation
  cases callee <;> infer_instance

instance elementAccess (receiver : OperationId) (args : List OperationId) :
    Adds (elementAccess node receiver args) := by
  unfold Bind.elementAccess
  infer_instance

end Adds

end Bind

/-! ### Expressions -/

open CultureLint.Bind (Adds)

/-- Binding by the plan keeps all operations that there are. -/
class Plan.Adds (p : Plan) : Prop where
  foot : Bind.Adds p.foot
  links : ∀ l ∈ p.links, Bind.Adds l.right

namespace Plan.Adds

variable (p : Plan) [h : p.Adds]

instance value : Bind.Adds p.value := by
  have applyAll (ls : List ChainLink) (hls : ∀ l ∈ ls, Bind.Adds l.right) (x : Bind.Operand) :
      Bind.Adds (ls.foldlM applyLink x) := by
    induction ls generalizing x with
    | nil => exact .pure x
    | cons l ls ih =>
      obtain ⟨hl, hls⟩ := List.forall_mem_cons.1 hls
      have (y : Bind.Operand) : Bind.Adds (ls.foldlM applyLink y) := ih hls y
      have : Bind.Adds (applyLink x l) := by
        unfold applyLink
        infer_instance
      rw [List.foldlM_cons]
      infer_instance
  have := h.foot
  have (x : Bind.Operand) := applyAll p.links.reverse (fun l hl => h.links l (List.mem_reverse.1 hl)) x
  unfold Plan.value
  infer_instance

instance bound : Bind.Adds p.bound := by
  have := h.foot
  unfold Plan.bound
  cases p.links <;> infer_instance

theorem ofFoot {foot : Bind Bound} {footNode : Node} (h : Bind.Adds foot) : Plan.Adds { foot, footNode } :=
  ⟨h, by simp⟩

end Plan.Adds

namespace Expr

mutual

theorem adds_plan : (e : Expr) → e.plan.Adds
  | .binary node op left right => by
    have hleft := adds_plan left
    have hright := adds_plan right
    exact ⟨hleft.foot, List.forall_mem_cons.2 ⟨Plan.Adds.value _, hleft.links⟩⟩
  | .literal node kind text => .ofFoot inferInstance
  | .name node word => .ofFoot inferInstance
  | .primitive node type => .ofFoot (@Adds.bind _ _ _ _ _ fun found => by cases found <;> infer_instance)
  | .this node => .ofFoot inferInstance
  | .parenthesized node inner =>
    have := adds_plan inner
    .ofFoot inferInstance
  | .memberAccess node receiver ident =>
    have := adds_plan receiver
    .ofFoot inferInstance
  | .invocation node callee arguments =>
    have := adds_plan callee
    have := adds_values arguments
    .ofFoot inferInstance
  | .elementAccess node receiver arguments =>
    have := adds_plan receiver
    have := adds_values arguments
    .ofFoot inferInstance
  | .objectCreation node type arguments =>
    have := adds_values arguments
    .ofFoot inferInstance
  | .unary node op operand | .step node op operand | .cast node op operand =>
    have := adds_plan operand
    .ofFoot inferInstance
  | .assignment node op target value =>
    have := adds_plan target
    have := adds_plan value
    .ofFoot inferInstance
  | .conditional node condition whenTrue whenFalse =>
    have := adds_plan condition
    have := adds_plan whenTrue
    have := adds_plan whenFalse
    .ofFoot inferInstance

theorem adds_values : (es : List Expr) → Adds (values es)
  | [] => .pure _
  | e :: es => by
    have := adds_plan e
    have := adds_values es
    unfold values
    infer_instance

end

/-- A value is what the expression turns out to be, as a value. -/
theorem bindValue_eq (e : Expr) : e.bindValue = e.plan.bound >>= Bind.asValue e.node := by
  cases e with
  | binary node op left right =>
    change _ = (Bound.value <$> (binary node op left right).plan.value) >>= _
    simp only [map_eq_pure_bind, bind_assoc, pure_bind]
    exact (bind_pure _).symm
  | _ => simp [bindValue, Plan.value, Plan.bound, plan, node]

instance (e : Expr) : e.plan.Adds := e.adds_plan

instance (es : List Expr) : Adds (values es) := adds_values es

instance (e : Expr) : Adds e.bindValue := Plan.Adds.value _

instance (e : Expr) (target : Option TypeId) : Adds (e.bindConverted target) := by
  unfold bindConverted
  infer_instance

end Expr

/-! ### Statements -/

instance (d : Declarator) (isImplicit : Bool) (declared : Option TypeId) :
    Adds (d.bindLocal isImplicit declared) := by
  obtain ⟨name, value⟩ := d
  unfold Declarator.bindLocal
  cases value with
  | none => infer_instance
  | some value => cases isImplicit <;> infer_instance

namespace Stmt

instance (type : TypeExpr) (declarators : List Declarator) (span : Span) :
    Adds (bindLocals type declarators span) := by
  have finish (ops : List OperationId) : Adds (match ops with
      | [op] => pure op
      | _ => Bind.add ⟨.block ops, none, span.origin, true, none⟩) := by
    split <;> infer_instance
  unfold bindLocals
  infer_instance

instance (value : Expr) : Adds (bindExpression value) := by
  unfold bindExpression
  infer_instance

instance (condition : Expr) : Adds (bindCondition condition) := by
  unfold bindCondition
  infer_instance

instance (start : ForStart) : Adds (bindStart start) := by
  unfold bindStart
  cases start <;> infer_instance

mutual

theorem adds_bind : (st : Stmt) → Adds st.bind
  | .block statements span => by
    have := adds_bindAll statements
    unfold bind
    infer_instance
  | .locals .. | .expression _ | .ret .. | .empty _ => by
    unfold bind
    infer_instance
  | .ifThen _ whenTrue _ => by
    have := adds_bind whenTrue
    unfold bind
    infer_instance
  | .ifElse _ whenTrue whenFalse _ => by
    have := adds_bind whenTrue
    have := adds_bind whenFalse
    unfold bind
    infer_instance
  | .whileLoop _ body _ | .forLoop _ _ _ body _ => by
    have := adds_bind body
    unfold bind
    infer_instance

theorem adds_bindAll : (ss : List Stmt) → Adds (bindAll ss)
  | [] => .pure _
  | s :: ss => by
    have := adds_bind s
    have := adds_bindAll ss
    unfold bindAll
    infer_instance

end

instance (st : Stmt) : Adds st.bind := st.adds_bind

instance (ss : List Stmt) : Adds (bindAll ss) := adds_bindAll ss

end Stmt

instance (value : Expr) : Adds value.bindArrow := by
  unfold Expr.bindArrow
  infer_instance

instance (body : Body) : Adds body.bind := by
  cases body with
  | block statements span => exact Stmt.adds_bind (.block statements span)
  | arrow value => exact inferInstanceAs (Adds value.bindArrow)

end CultureLint
