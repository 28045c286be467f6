import CultureLint.Proofs.Binding.Locals

/-! Locals follow lexical scope. An expression uses its names from left to right; a statement does with
locals what its events say, so that it adds only its own variables to the innermost scope, and a block and a
`for` leave the scopes as they were. -/

namespace CultureLint

open CultureLint.Bind (Follows)

/-! ### Expressions -/

/-- The right operands of a chain are bound from the first operator to the last. -/
inductive LinksFollow : List ChainLink → List (ScopeEvent Declarator) → Prop
  | nil : LinksFollow [] []
  | cons {l : ChainLink} {ls : List ChainLink} {events events' : List (ScopeEvent Declarator)}
      (h : LinksFollow ls events) (hright : Follows l.right events') :
      LinksFollow (l :: ls) (events ++ events')

namespace Plan

/-- The plan does with locals what the events say: first the foot, and then the operators. -/
def Follows (p : Plan) (events : List (ScopeEvent Declarator)) : Prop :=
  ∃ footEvents linkEvents, Bind.Follows p.foot footEvents ∧ LinksFollow p.links linkEvents ∧
    events = footEvents ++ linkEvents

namespace Follows

variable {p : Plan} {events : List (ScopeEvent Declarator)}

theorem applyLinks {links : List ChainLink} (h : LinksFollow links events) (x : Bind.Operand) :
    Bind.Follows (links.reverse.foldlM applyLink x) events := by
  induction h with
  | nil => exact .pure
  | @cons link links events events' _ hright ih =>
    rw [List.reverse_cons, List.foldlM_append]
    refine ih.bind fun left => ?_
    have hlink : Bind.Follows (applyLink left link) events' :=
      hright.finish fun right => .skip (.binary link.node left _ link.op) fun _ => .pure
    simpa only [List.foldlM_cons, List.foldlM_nil, bind_pure] using hlink

theorem value (h : p.Follows events) : Bind.Follows p.value events := by
  obtain ⟨footEvents, linkEvents, hfoot, hlinks, rfl⟩ := h
  refine hfoot.bind fun foot => .skip (.asValue p.footNode foot) fun op => ?_
  exact (applyLinks hlinks (op, p.footNode)).finish fun _ => .pure

theorem bound (h : p.Follows events) : Bind.Follows p.bound events := by
  have hvalue := h.value
  obtain ⟨foot, footNode, links⟩ := p
  cases links with
  | nil =>
    obtain ⟨footEvents, linkEvents, hfoot, hlinks, rfl⟩ := h
    cases hlinks
    rw [List.append_nil]
    exact hfoot
  | cons link links => exact hvalue.map

/-- A plan without operators. -/
theorem ofFoot {foot : Bind Bound} {footNode : Node} (h : Bind.Follows foot events) :
    Plan.Follows { foot, footNode } events := ⟨events, [], h, .nil, (List.append_nil events).symm⟩

end Follows

end Plan

namespace Expr

mutual

/-- An expression uses its names from left to right. -/
theorem follows_plan : (e : Expr) → e.plan.Follows e.uses
  | .binary node op left right => by
    rw [uses_eq]
    show Plan.Follows _ (left.uses ++ (right.uses ++ []))
    obtain ⟨footEvents, linkEvents, hfoot, hlinks, huses⟩ := left.follows_plan
    refine ⟨footEvents, linkEvents ++ right.uses, hfoot, ?_, ?_⟩
    · exact .cons (l := ⟨node, op, right.plan.value, right.node⟩) hlinks right.follows_plan.value
    · rw [huses, List.append_nil, List.append_assoc]
  | .literal node kind text => by
    rw [uses_eq]
    show Plan.Follows _ []
    exact .ofFoot (.skip (.specialType _) fun _ => .value (.add rfl))
  | .name node word => by
    rw [uses_eq]
    show Plan.Follows _ [.use node word]
    exact .ofFoot (.name node word)
  | .primitive node type => by
    rw [uses_eq]
    show Plan.Follows _ []
    refine .ofFoot (.skip (.special _) fun id => ?_)
    cases id with
    | some id => exact .pure
    | none => exact .value (.addInvalid node [])
  | .this node => by
    rw [uses_eq]
    show Plan.Follows _ []
    exact .ofFoot (.skip .readFrame fun _ => .value (.add rfl))
  | .parenthesized node inner => by
    rw [uses_eq]
    show Plan.Follows _ (inner.uses ++ [])
    rw [List.append_nil]
    exact .ofFoot inner.follows_plan.bound
  | .memberAccess node receiver ident => by
    rw [uses_eq]
    show Plan.Follows _ (receiver.uses ++ [])
    exact .ofFoot (receiver.follows_plan.bound.bind fun bound => .memberAccess node bound ident.name)
  | .invocation node callee arguments => by
    rw [uses_eq]
    show Plan.Follows _ (callee.uses ++ arguments.flatMap uses)
    refine .ofFoot (callee.follows_plan.bound.bind fun bound => (follows_values arguments).finish fun args => ?_)
    exact .value (.invocation node bound args)
  | .elementAccess node receiver arguments => by
    rw [uses_eq]
    show Plan.Follows _ (receiver.uses ++ arguments.flatMap uses)
    refine .ofFoot (receiver.follows_plan.value.bind fun op => (follows_values arguments).finish fun args => ?_)
    exact .value (.elementAccess node op _)
  | .objectCreation node type arguments => by
    rw [uses_eq]
    show Plan.Follows _ (arguments.flatMap uses)
    refine .ofFoot (.skip (.resolveType type) fun _ => (follows_values arguments).finish fun args => ?_)
    exact .value (.add rfl)
  | .unary node op operand => by
    rw [uses_eq]
    show Plan.Follows _ (operand.uses ++ [])
    exact .ofFoot (operand.follows_plan.value.bind fun value => .value (.unary node _ op))
  | .step node increment operand => by
    rw [uses_eq]
    show Plan.Follows _ (operand.uses ++ [])
    exact .ofFoot (operand.follows_plan.value.bind fun value => .value (.step node increment value))
  | .cast node type operand => by
    rw [uses_eq]
    show Plan.Follows _ (operand.uses ++ [])
    refine .ofFoot (.skip (.resolveType type) fun target => operand.follows_plan.value.bind fun value => ?_)
    exact .value (.cast node target value)
  | .assignment node op target value => by
    rw [uses_eq]
    show Plan.Follows _ (target.uses ++ (value.uses ++ []))
    refine .ofFoot (target.follows_plan.value.bind fun targetOp => value.follows_plan.value.bind fun _ => ?_)
    exact .value (.assignment node _ op targetOp)
  | .conditional node condition whenTrue whenFalse => by
    rw [uses_eq]
    show Plan.Follows _ (condition.uses ++ (whenTrue.uses ++ (whenFalse.uses ++ [])))
    refine .ofFoot (.skip (.special _) fun boolean => condition.follows_plan.value.bind fun op =>
      .skip (.convert op condition.node boolean) fun converted => whenTrue.follows_plan.value.bind fun a =>
        whenFalse.follows_plan.value.bind fun b => ?_)
    exact .value (.conditional node _ _ converted)

/-- Expressions use their names one after the other. -/
theorem follows_values : (es : List Expr) → Follows (values es) (es.flatMap uses)
  | [] => .pure
  | e :: es => by
    rw [List.flatMap_cons]
    exact e.follows_plan.value.bind fun _ => (follows_values es).finish fun _ => .pure

end

theorem follows_bindValue (e : Expr) : Follows e.bindValue e.uses := e.follows_plan.value

theorem follows_bindConverted (e : Expr) (target : Option TypeId) : Follows (e.bindConverted target) e.uses :=
  e.follows_bindValue.finish fun op => .convert op e.node target

end Expr

/-! ### Statements -/

namespace Bind.Follows

variable {α : Type} {m : Bind α} {events : List (ScopeEvent Declarator)}

/-- What is done in a block of its own opens a scope and closes it again. -/
theorem inBlock (h : Follows m events) : Follows (inBlock m) (.opening :: events ++ [.closing]) := by
  intro frame s
  obtain ⟨typed, htyped, hlocals, hunit⟩ := h frame { s with locals := [] :: s.locals }
  refine ⟨.opening :: typed ++ [.closing], ?_, ?_, hunit.trans ?_⟩
  · rw [List.map_append, List.map_cons, htyped]
    rfl
  · rw [TypedEvent.replay_append]
    exact congrArg List.tail hlocals
  · rw [TypedEvent.tellsAll_append, TypedEvent.tellsAll]
    simp [TypedEvent.tellsAll, TypedEvent.tells, TypedEvent.step]

/-- A variable becomes known together with its declaration. -/
theorem declaration (d : Declarator) (value : Option OperationId) (type : Option TypeId) :
    Follows (declareLocal d.name.name type >>= fun _ =>
      Bind.add ⟨.variableDeclaration d.name.name value, type, d.span.origin, false, none⟩) [.declaration d] := by
  intro frame s
  exact ⟨[.declaration (d, type)], rfl, rfl, s.unit.locals_add _⟩

end Bind.Follows

theorem Declarator.follows_bindLocal (d : Declarator) (isImplicit : Bool) (declared : Option TypeId) :
    Follows (d.bindLocal isImplicit declared) d.events := by
  have hdeclaration (value : Option OperationId) (type : Option TypeId) := Follows.declaration d value type
  unfold bindLocal events
  cases d.value with
  | none => exact hdeclaration none declared
  | some value =>
    rw [Option.toList_some, List.flatMap_singleton]
    apply Follows.ite
    · exact value.follows_bindValue.bind fun op => .skip (.typeOf op) fun type => hdeclaration (some op) type
    · exact (value.follows_bindConverted declared).bind fun op => hdeclaration (some op) declared

namespace Stmt

theorem follows_bindLocals (type : TypeExpr) (declarators : List Declarator) (span : Span) :
    Follows (bindLocals type declarators span) (declarators.flatMap Declarator.events) := by
  apply Follows.skip (.resolveType type)
  intro declared
  apply Follows.finish (.mapM (fun d => d.follows_bindLocal _ declared) declarators)
  intro ops
  match ops with
  | [] => exact .add rfl
  | [op] => exact .pure
  | _ :: _ :: _ => exact .add rfl

theorem follows_bindExpression (value : Expr) : Follows (bindExpression value) value.uses :=
  value.follows_bindValue.finish fun _ => .add rfl

theorem follows_bindCondition (condition : Expr) : Follows (bindCondition condition) condition.uses :=
  .skip (.special .boolean) fun boolean => condition.follows_bindConverted boolean

theorem follows_bindStart (start : ForStart) : Follows (bindStart start) start.events := by
  cases start with
  | nothing => exact .pure
  | locals type declarators span => exact (follows_bindLocals type declarators span).map
  | expression value => exact (follows_bindExpression value).map

mutual

/-- A statement does with locals what its events say. -/
theorem follows_bind : (s : Stmt) → Follows s.bind s.events
  | .block statements span => by
    rw [bind, events]
    exact (follows_bindAll statements).inBlock.finish fun _ => .add rfl
  | .locals type declarators span => by
    rw [bind, events]
    exact follows_bindLocals type declarators span
  | .expression value => by
    rw [bind, events]
    exact follows_bindExpression value
  | .ret value span => by
    rw [bind, events]
    have hvalue (target : Option TypeId) :
        Follows (value.mapM (·.bindConverted target) >>= fun value => Bind.addStmt span (.ret value))
          (value.toList.flatMap Expr.uses) :=
      (Follows.optionMapM (fun e => e.follows_bindConverted target) value).finish fun _ => .add rfl
    apply Follows.skip .returnsNothing
    intro nothing
    exact .ite (hvalue none) (.skip .readFrame fun frame => hvalue frame.returns)
  | .ifThen condition whenTrue span => by
    rw [bind, events]
    refine (follows_bindCondition condition).bind fun _ => whenTrue.follows_bind.finish fun _ => ?_
    exact .add rfl
  | .ifElse condition whenTrue whenFalse span => by
    rw [bind, events, List.append_assoc]
    refine (follows_bindCondition condition).bind fun _ => whenTrue.follows_bind.bind fun _ => ?_
    exact whenFalse.follows_bind.finish fun _ => .add rfl
  | .whileLoop condition body span => by
    rw [bind, events]
    refine (follows_bindCondition condition).bind fun _ => body.follows_bind.finish fun _ => ?_
    exact .add rfl
  | .forLoop start condition iterators body span => by
    rw [bind, events]
    rw [← List.append_nil (_ :: _ ++ _)]
    refine .bind_result (.inBlock ?_) fun frame s => .add rfl
    rw [List.append_assoc, List.append_assoc]
    refine (follows_bindStart start).bind fun _ => (Follows.optionMapM follows_bindCondition condition).bind fun _ => ?_
    refine (Follows.mapM Expr.follows_bindValue iterators).bind fun _ => body.follows_bind.finish fun _ => ?_
    exact .pure
  | .empty span => by
    rw [bind, events]
    exact .add rfl

theorem follows_bindAll : (ss : List Stmt) → Follows (bindAll ss) (eventsAll ss)
  | [] => .pure
  | s :: ss => by
    rw [bindAll, eventsAll]
    exact s.follows_bind.bind fun _ => (follows_bindAll ss).finish fun _ => .pure

end

/-- A statement adds its own variables to the innermost scope, the latest first, and nothing else. -/
theorem locals_bind (s : Stmt) (frame : Frame) (state : BindState) {innermost : Variables}
    {outer : List Variables} (h : state.locals = innermost :: outer) :
    ∃ added : Variables, (s.bind frame state).2.locals = (added ++ innermost) :: outer ∧
      added.map Prod.fst = (s.declared.map (·.name.name)).reverse := by
  obtain ⟨typed, htyped, hlocals, -⟩ := s.follows_bind frame state
  rw [hlocals, h]
  exact s.adds_events typed htyped innermost outer

/-- A block and a `for` leave all scopes as they were. -/
theorem locals_bind_block (statements : List Stmt) (span : Span) (frame : Frame) (state : BindState) :
    ((block statements span).bind frame state).2.locals = state.locals := by
  obtain ⟨typed, htyped, hlocals, -⟩ := (block statements span).follows_bind frame state
  rw [hlocals, replay_block htyped]

theorem locals_bind_forLoop (start : ForStart) (condition : Option Expr) (iterators : List Expr) (body : Stmt)
    (span : Span) (frame : Frame) (state : BindState) :
    ((forLoop start condition iterators body span).bind frame state).2.locals = state.locals := by
  obtain ⟨typed, htyped, hlocals, -⟩ := (forLoop start condition iterators body span).follows_bind frame state
  rw [hlocals, replay_forLoop htyped]

end Stmt

/-! ### Bodies -/

theorem Expr.follows_bindArrow (value : Expr) : Follows value.bindArrow value.uses := by
  have hstatement : Follows (OperationKind.expressionStatement <$> value.bindValue) value.uses :=
    value.follows_bindValue.map
  refine .skip .returnsNothing fun nothing => .ite ?_ ?_
  · rw [← List.append_nil value.uses]
    exact hstatement.bind_result fun frame s => .add rfl
  · refine .skip .readFrame fun frame => (value.follows_bindConverted frame.returns).finish fun op => ?_
    show Follows (Bind.add ⟨.ret (some op), none, value.span.origin, true, none⟩) []
    exact .add rfl

theorem Body.follows_bind (body : Body) : Follows body.bind body.events := by
  cases body with
  | block statements span => exact (Stmt.block statements span).follows_bind
  | arrow value => exact value.follows_bindArrow

end CultureLint
