import CultureLint.Binding.Stmt
import CultureLint.Proofs.Binding.Steps
import CultureLint.Proofs.Tree.Move
import Mathlib.Data.List.Forall2

/-! Binding does not care where things stand: a moved body gives the operations of the body, with their
origins moved. `Moves` says so of two steps of binding, and is closed under the ways to put steps together. -/

namespace CultureLint

/-! ### Names and written types -/

section

variable (f : Shift)

@[simp] theorem dotted_move (n : QualifiedName) : (move f n).dotted = n.dotted := by
  have hnames : (move f n.tail).map Ident.name = n.tail.map Ident.name := by
    rw [move, instMovableList, List.map_map]
    rfl
  simp only [QualifiedName.dotted, QualifiedName.parts, List.map_cons]
  exact congrArg (fun tail => ".".intercalate (n.head.name :: tail)) hnames

namespace Scope

variable (scope : Scope)

theorem resolveQualified_move (c : Compilation) (n : QualifiedName) :
    scope.resolveQualified c (move f n) = scope.resolveQualified c n := by
  have htail (target : NameTarget) (tail : List Ident) :
      (move f tail).foldlM (fun target part => resolveMember c target part.name) target =
        tail.foldlM (fun target part => resolveMember c target part.name) target := by
    induction tail generalizing target with
    | nil => rfl
    | cons part tail ih =>
      rw [move_cons, List.foldlM_cons, List.foldlM_cons]
      exact congrArg _ (funext ih)
  have hrest := funext fun target => htail target n.tail
  change (if n.global then lookupDotted c n.head.name >>= _ else scope.resolveName c n.head.name >>= _) = _
  exact congrArg (fun k : NameTarget → Option NameTarget =>
    if n.global then lookupDotted c n.head.name >>= k else scope.resolveName c n.head.name >>= k) hrest

theorem resolveTypeName_move (c : Compilation) (n : QualifiedName) :
    scope.resolveTypeName c (move f n) = scope.resolveTypeName c n := by
  rw [resolveTypeName, resolveQualified_move, resolveTypeName]

theorem resolveType_move (type : TypeExpr) : scope.resolveType (move f type) = scope.resolveType type := by
  induction type with
  | primitive | implicit => rfl
  | named name =>
    funext c
    exact congrArg (·, c) (scope.resolveTypeName_move f c name)
  | nullable of span ih =>
    change scope.resolveType (.nullable (move f of) (move f span)) = _
    rw [resolveType, resolveType, ih]
  | array of span ih =>
    change scope.resolveType (.array (move f of) (move f span)) = _
    rw [resolveType, resolveType, ih]

end Scope

end

/-! ### States -/

/-- The origin at the moved place. -/
def Operation.move (f : Shift) (op : Operation) : Operation :=
  { op with origin := { op.origin with span := Movable.move f op.origin.span } }

namespace BoundUnit

variable (f : Shift) (unit : BoundUnit)

def move : BoundUnit := { unit with operations := unit.operations.map (Operation.move f) }

theorem get?_move (id : OperationId) : (unit.move f).get? id = (unit.get? id).map (Operation.move f) :=
  Array.getElem?_map

@[simp] theorem typeOf_move (id : OperationId) : (unit.move f).typeOf id = unit.typeOf id := by
  rw [typeOf, get?_move, typeOf]
  cases unit.get? id <;> rfl

theorem isNull_move (id : OperationId) : (unit.move f).isNull id = unit.isNull id := by
  unfold isNull
  rw [get?_move]
  obtain _ | ⟨kind, _⟩ := unit.get? id
  · rfl
  · cases kind with
    | literal kind => cases kind <;> rfl
    | _ => rfl

theorem add_move (op : Operation) : (unit.move f).add (op.move f) = (unit.add op).move f := by
  have hmodify (ops : Array Operation) (ids : List OperationId) :
      ids.foldl (fun ops id => ops.modify id.index fun part => { part with parent := some unit.nextId })
          (ops.map (Operation.move f)) =
        (ids.foldl (fun ops id => ops.modify id.index fun part => { part with parent := some unit.nextId })
          ops).map (Operation.move f) := by
    induction ids generalizing ops with
    | nil => rfl
    | cons id ids ih =>
      rw [List.foldl_cons, List.foldl_cons, ← ih]
      refine congrArg (List.foldl _ · ids) ?_
      apply Array.ext_getElem?
      intro i
      simp [Array.getElem?_modify]
      split <;> simp [Function.comp_def, Operation.move]
  have hnext : (unit.move f).nextId = unit.nextId := by simp [nextId, move]
  simp only [add, hnext]
  simp only [move, Array.map_push, BoundUnit.mk.injEq, and_true]
  exact congrArg (Array.push · (op.move f)) (hmodify _ _)

end BoundUnit

namespace BindState

def move (f : Shift) (s : BindState) : BindState := { s with unit := s.unit.move f }

end BindState

namespace Bind

variable {α β γ δ : Type} {f : Shift}

/-- The second step does in a moved state what the first one does, with a result that is mapped. -/
def MovesTo (f : Shift) (r : α → β) (m : Bind α) (n : Bind β) : Prop :=
  ∀ frame s, n frame (s.move f) = (r (m frame s).1, (m frame s).2.move f)

/-- The second step does in a moved state what the first one does, with the same result. -/
abbrev Moves (f : Shift) (m n : Bind α) : Prop := MovesTo f id m n

namespace MovesTo

variable {r : α → β} {m : Bind α} {n : Bind β}

theorem pure {a : α} : MovesTo f r (pure a) (pure (r a)) := fun _ _ => rfl

theorem bind {q : γ → δ} {k : α → Bind γ} {l : β → Bind δ} (h : MovesTo f r m n)
    (hk : ∀ a, MovesTo f q (k a) (l (r a))) : MovesTo f q (m >>= k) (n >>= l) := by
  intro frame s
  change l (n frame (s.move f)).1 frame (n frame (s.move f)).2 = _
  rw [h frame s]
  exact hk _ frame _

theorem ite {c : Prop} [Decidable c] {m' : Bind α} {n' : Bind β} (h : MovesTo f r m n)
    (h' : MovesTo f r m' n') : MovesTo f r (if c then m else m') (if c then n else n') := by
  split
  · exact h
  · exact h'

end MovesTo

namespace Moves

variable {m n : Bind α}

theorem bind {q : γ → δ} {k : α → Bind γ} {l : α → Bind δ} (h : Moves f m n)
    (hk : ∀ a, MovesTo f q (k a) (l a)) : MovesTo f q (m >>= k) (n >>= l) := MovesTo.bind h hk

theorem pure {a : α} : Moves f (pure a) (pure a) := fun _ _ => rfl

theorem map {g : α → β} (h : Moves f m n) : Moves f (g <$> m) (g <$> n) := by
  rw [← bind_pure_comp, ← bind_pure_comp]
  exact h.bind fun _ => .pure

theorem read : Moves f (MonadReaderOf.read : Bind Frame) MonadReaderOf.read := fun _ _ => rfl

theorem getCompilation : Moves f getCompilation getCompilation := fun _ _ => rfl

theorem typeOf (op : OperationId) : Moves f (typeOf op) (typeOf op) := fun _ s =>
  congrArg (·, s.move f) (s.unit.typeOf_move f op)

theorem isNull (op : OperationId) : Moves f (isNull op) (isNull op) := by
  intro frame s
  rw [isNull_apply, isNull_apply]
  exact congrArg (·, s.move f) (s.unit.isNull_move f op)

theorem resolveType (type : TypeExpr) : Moves f (resolveType type) (resolveType (move f type)) := by
  intro frame s
  have hscope : frame.scope.resolveType (move f type) = frame.scope.resolveType type :=
    frame.scope.resolveType_move f type
  change liftTypes (frame.scope.resolveType (move f type)) frame (s.move f) = _
  rw [hscope]
  rfl

theorem special (t : SpecialType) : Moves f (special t) (special t) := fun _ _ => rfl

theorem numericOf (type : Option TypeId) : Moves f (numericOf type) (numericOf type) := fun _ _ => rfl

theorem isString (type : Option TypeId) : Moves f (isString type) (isString type) := fun _ _ => rfl

theorem specialType (t : Option SpecialType) : Moves f (specialType t) (specialType t) := by
  cases t with
  | none => exact .pure
  | some t => exact special t

/-! ### Operations -/

theorem add {op op' : Operation} (h : op' = op.move f) : Moves f (add op) (add op') := by
  intro frame s
  rw [h]
  change ((s.unit.move f).nextId, { s with unit := (s.unit.move f).add (op.move f) }) = _
  rw [s.unit.add_move f]
  simp only [BoundUnit.nextId, BoundUnit.move, Array.size_map]
  rfl

variable (node : Node)

theorem addExpr (kind : OperationKind) (type : Option TypeId) :
    Moves f (addExpr node kind type) (addExpr (move f node) kind type) := add rfl

theorem addStmt (span : Span) (kind : OperationKind) :
    Moves f (addStmt span kind) (addStmt (move f span) kind) := add rfl

theorem addInvalid (parts : List OperationId) :
    Moves f (addInvalid node parts) (addInvalid (move f node) parts) := addExpr node _ _

theorem addImplicitThis : Moves f (addImplicitThis node) (addImplicitThis (move f node)) :=
  read.bind fun _ => add rfl

theorem convert (op : OperationId) (target : Option TypeId) :
    Moves f (convert op node target) (convert op (move f node) target) := by
  cases target with
  | none => exact .pure
  | some target =>
    exact getCompilation.bind fun _ => (typeOf op).bind fun _ => (isNull op).bind fun _ =>
      .ite .pure (add rfl)

theorem convertSpecial (op : OperationId) (target : SpecialType) :
    Moves f (convertSpecial op node target) (convertSpecial op (move f node) target) :=
  (special target).bind fun _ => convert node op _

/-! ### Operators -/

theorem promotionOf (left right : Option TypeId) :
    Moves f (promotionOf left right) (promotionOf left right) := by
  refine (numericOf left).bind fun a => (numericOf right).bind fun b => ?_
  cases a <;> cases b <;> exact .pure

end Moves

/-- An operand at the moved place. -/
def moveOperand (f : Shift) (x : Operand) : Operand := (x.1, move f x.2)

namespace Moves

theorem convertOperand (x : Operand) (target : Option TypeId) :
    Moves f (convertOperand x target) (convertOperand (moveOperand f x) target) := convert x.2 x.1 target

variable (node : Node)

theorem unary (op : UnaryOp) (x : Operand) :
    Moves f (unary node op x) (unary (move f node) op (moveOperand f x)) := by
  cases op with
  | increment | decrement => exact (typeOf x.1).bind fun _ => addExpr node _ _
  | not => exact (special _).bind fun _ => (convertOperand x _).bind fun _ => addExpr node _ _
  | plus | minus | bitNot =>
    refine (typeOf x.1).bind fun _ => (numericOf _).bind fun numeric => ?_
    cases numeric with
    | none => exact addExpr node _ _
    | some s => exact (convertSpecial x.2 x.1 _).bind fun _ => (special _).bind fun _ => addExpr node _ _

theorem step (increment : Bool) (op : OperationId) :
    Moves f (step node increment op) (step (move f node) increment op) :=
  (typeOf op).bind fun _ => addExpr node _ _

theorem cast (target : Option TypeId) (op : OperationId) :
    Moves f (cast node target op) (cast (move f node) target op) := by
  cases target with
  | none => exact addInvalid node _
  | some target =>
    exact getCompilation.bind fun _ => (typeOf op).bind fun _ => (isNull op).bind fun _ => addExpr node _ _

theorem concatOperand (x : Operand) : Moves f (concatOperand x) (concatOperand (moveOperand f x)) :=
  (typeOf x.1).bind fun _ => (isString _).bind fun _ => .ite .pure <|
    (isNull x.1).bind fun _ => .ite (convertSpecial x.2 x.1 _) (convertSpecial x.2 x.1 _)

theorem convertBoth (x y : Operand) (target : Option TypeId) :
    Moves f (convertBoth x y target) (convertBoth (moveOperand f x) (moveOperand f y) target) :=
  (convertOperand x target).bind fun _ => (convertOperand y target).bind fun _ => .pure

theorem binaryOperands (op : BinaryOp) (x y : Operand) :
    Moves f (binaryOperands op x y) (binaryOperands op (moveOperand f x) (moveOperand f y)) := by
  refine (typeOf x.1).bind fun _ => (typeOf y.1).bind fun _ => (special _).bind fun _ =>
    (promotionOf _ _).bind fun numeric => ?_
  have calculate : Moves f (Bind.specialType numeric >>= fun promoted =>
      Bind.convertBoth x y promoted >>= fun both => Pure.pure (both, promoted))
      (Bind.specialType numeric >>= fun promoted =>
        Bind.convertBoth (moveOperand f x) (moveOperand f y) promoted >>= fun both =>
          Pure.pure (both, promoted)) :=
    (specialType numeric).bind fun promoted => (convertBoth x y promoted).bind fun _ => .pure
  cases op with
  | add =>
    exact (isString _).bind fun _ => (isString _).bind fun _ => .ite
      ((concatOperand x).bind fun _ => (concatOperand y).bind fun _ => (special _).bind fun _ => .pure)
      (.ite calculate .pure)
  | sub | mul | div | rem => exact .ite calculate .pure
  | shl =>
    exact (numericOf _).bind fun _ => (specialType _).bind fun _ => (convertOperand x _).bind fun _ =>
      (convertSpecial y.2 y.1 _).bind fun _ => .pure
  | bitAnd | bitOr | bitXor => exact .ite .pure (.ite calculate .pure)
  | eq | ne | lt | gt | le | ge => exact (specialType _).bind fun _ => (convertBoth x y _).bind fun _ => .pure
  | and | or => exact (convertBoth x y _).bind fun _ => .pure
  | coalesce => exact .pure

theorem binary (op : BinaryOp) (x y : Operand) :
    Moves f (binary node op x y) (binary (move f node) op (moveOperand f x) (moveOperand f y)) :=
  (binaryOperands op x y).bind fun _ => addExpr node _ _

theorem assignment (op : AssignOp) (target : OperationId) (x : Operand) :
    Moves f (assignment node op target x) (assignment (move f node) op target (moveOperand f x)) := by
  refine (typeOf target).bind fun _ => ?_
  cases op with
  | assign => exact (convertOperand x _).bind fun _ => addExpr node _ _
  | compound op =>
    exact (isString _).bind fun _ => .ite
      ((concatOperand x).bind fun _ => addExpr node _ _)
      ((typeOf x.1).bind fun _ => (promotionOf _ _).bind fun _ => (specialType _).bind fun _ =>
        (convertOperand x _).bind fun _ => addExpr node _ _)

theorem conditional (condition : OperationId) (x y : Operand) :
    Moves f (conditional node condition x y)
      (conditional (move f node) condition (moveOperand f x) (moveOperand f y)) :=
  getCompilation.bind fun _ => (typeOf x.1).bind fun _ => (typeOf y.1).bind fun _ =>
    (isNull x.1).bind fun _ => (isNull y.1).bind fun _ => (convertBoth x y _).bind fun _ => addExpr node _ _

/-! ### Names, members and calls -/

theorem asValue (bound : Bound) : Moves f (asValue node bound) (asValue (move f node) bound) := by
  cases bound with
  | value op => exact .pure
  | type | namespaceName | methodGroup => exact addInvalid node _

theorem member? (owner : TypeId) (name : String) (receiver : Receiver) :
    Moves f (member? node owner name receiver) (member? (move f node) owner name receiver) := by
  refine getCompilation.bind fun c => ?_
  cases c.membersNamed owner name with
  | nil => exact .pure
  | cons found others =>
    obtain ⟨ref, member⟩ := found
    dsimp only
    cases member.value? with
    | none => exact .pure
    | some value =>
      have use (kind : OperationKind) : Moves f
          (Bind.addExpr node kind value.type >>= fun op => Pure.pure (some (Bound.value op)))
          (Bind.addExpr (move f node) kind value.type >>= fun op => Pure.pure (some (Bound.value op))) :=
        (addExpr node kind value.type).bind fun _ => .pure
      refine read.bind fun frame => .ite ?_ ?_
      · exact (addImplicitThis node).map.bind fun _ => use _
      · exact pure.bind fun _ => use _

theorem name (word : String) : Moves f (name node word) (name (move f node) word) := by
  have hlocal : Moves f (local? word) (local? word) := fun _ _ => rfl
  refine hlocal.bind fun found => ?_
  cases found with
  | some type => exact (addExpr node _ _).bind fun _ => .pure
  | none =>
    refine read.bind fun frame => ?_
    cases frame.parameters.lookup word with
    | some type => exact (addExpr node _ _).bind fun _ => .pure
    | none =>
      refine read.bind fun _ => (member? node _ _ _).bind fun bound => ?_
      cases bound with
      | some bound => exact .pure
      | none =>
        refine read.bind fun frame => getCompilation.bind fun c => ?_
        cases frame.scope.resolveName c word with
        | some target => exact .pure
        | none => exact (addInvalid node _).bind fun _ => .pure

theorem memberAccess (receiver : Bound) (word : String) :
    Moves f (memberAccess node receiver word) (memberAccess (move f node) receiver word) := by
  have hinvalid (parts : List OperationId) :
      Moves f (Bound.value <$> Bind.addInvalid node parts) (Bound.value <$> Bind.addInvalid (move f node) parts) :=
    (addInvalid node parts).map
  cases receiver with
  | namespaceName space =>
    refine getCompilation.bind fun c => ?_
    cases Scope.resolveMember c (.namespaceName space) word with
    | some target => exact .pure
    | none => exact hinvalid _
  | type id =>
    refine (member? node id word _).bind fun bound => ?_
    cases bound with
    | some bound => exact .pure
    | none => exact hinvalid _
  | value op =>
    refine (typeOf op).bind fun type => ?_
    cases type with
    | none => exact hinvalid _
    | some id =>
      refine (member? node id word _).bind fun bound => ?_
      cases bound with
      | some bound => exact .pure
      | none => exact hinvalid _
  | methodGroup => exact hinvalid _

theorem convertArguments (args : List Operand) (ps : List ParameterSymbol) :
    Moves f (convertArguments args ps) (convertArguments (args.map (moveOperand f)) ps) := by
  induction args generalizing ps with
  | nil => cases ps <;> exact .pure
  | cons x args ih =>
    cases ps with
    | nil => exact .pure
    | cons p ps => exact (convert x.2 x.1 _).bind fun _ => (ih ps).bind fun _ => .pure

theorem mapM {g : α → Bind γ} {h : β → Bind γ} {r : α → β} (H : ∀ a, Moves f (g a) (h (r a)))
    (as : List α) : Moves f (as.mapM g) ((as.map r).mapM h) := by
  induction as with
  | nil => exact .pure
  | cons a as ih =>
    rw [List.map_cons, List.mapM_cons, List.mapM_cons]
    exact (H a).bind fun _ => ih.bind fun _ => .pure

theorem callGroup (owner : TypeId) (word : String) (receiver : Receiver) (args : List Operand) :
    Moves f (callGroup node owner word receiver args)
      (callGroup (move f node) owner word receiver (args.map (moveOperand f))) := by
  have hops : (args.map (moveOperand f)).map (·.1) = args.map (·.1) := by
    rw [List.map_map]
    rfl
  have htypes := mapM (f := f) (r := moveOperand f)
    (g := fun x : Operand => do return ((← Bind.typeOf x.1, ← Bind.isNull x.1) : ArgumentType))
    (h := fun x : Operand => do return ((← Bind.typeOf x.1, ← Bind.isNull x.1) : ArgumentType))
    (fun x => (typeOf x.1).bind fun _ => (isNull x.1).bind fun _ => .pure) args
  refine htypes.bind fun types => getCompilation.bind fun c => ?_
  rw [hops]
  cases overload? c owner word types with
  | none => exact addExpr node _ _
  | some found =>
    obtain ⟨ref, method⟩ := found
    have call (op : Option OperationId) : Moves f
        (Bind.convertArguments args method.parameters >>= fun arguments =>
          Bind.addExpr node (.invocation (some ref) op arguments) method.returns)
        (Bind.convertArguments (args.map (moveOperand f)) method.parameters >>= fun arguments =>
          Bind.addExpr (move f node) (.invocation (some ref) op arguments) method.returns) :=
      (convertArguments args _).bind fun _ => addExpr node _ _
    refine read.bind fun frame => .ite ?_ ?_
    · exact (addImplicitThis node).map.bind fun op => call op
    · exact pure.bind fun op => call op

theorem invocation (callee : Bound) (args : List Operand) :
    Moves f (invocation node callee args) (invocation (move f node) callee (args.map (moveOperand f))) := by
  have hops : (args.map (moveOperand f)).map (·.1) = args.map (·.1) := by
    rw [List.map_map]
    rfl
  cases callee with
  | methodGroup owner word receiver => exact callGroup node owner word receiver args
  | value op =>
    simp only [Bind.invocation, hops]
    exact addInvalid node _
  | type | namespaceName =>
    simp only [Bind.invocation, hops]
    exact addInvalid node _

theorem elementAccess (receiver : OperationId) (args : List OperationId) :
    Moves f (elementAccess node receiver args) (elementAccess (move f node) receiver args) :=
  getCompilation.bind fun _ => (typeOf receiver).bind fun _ => addExpr node _ _

end Moves

end Bind

/-! ### Expressions -/

/-- Links that do the same, one of them for a moved expression. -/
structure ChainLink.Moves (f : Shift) (l l' : ChainLink) : Prop where
  node : l'.node = move f l.node
  op : l'.op = l.op
  right : Bind.Moves f l.right l'.right
  rightNode : l'.rightNode = move f l.rightNode

/-- Plans that do the same, one of them for a moved expression. -/
structure Plan.Moves (f : Shift) (p p' : Plan) : Prop where
  foot : Bind.Moves f p.foot p'.foot
  footNode : p'.footNode = move f p.footNode
  links : List.Forall₂ (ChainLink.Moves f) p.links p'.links

namespace Plan.Moves

open CultureLint.Bind (moveOperand MovesTo)

variable {f : Shift} {p p' : Plan}

theorem applyLinks {ls ls' : List ChainLink} (h : List.Forall₂ (ChainLink.Moves f) ls ls') (x : Bind.Operand) :
    MovesTo f (moveOperand f) (ls.foldlM applyLink x) (ls'.foldlM applyLink (moveOperand f x)) := by
  induction h generalizing x with
  | nil => exact .pure
  | @cons l l' ls ls' hl _ ih =>
    rw [List.foldlM_cons, List.foldlM_cons]
    have hlink : MovesTo f (moveOperand f) (applyLink x l) (applyLink (moveOperand f x) l') := by
      unfold applyLink
      rw [hl.node, hl.op, hl.rightNode]
      exact hl.right.bind fun right => (Bind.Moves.binary l.node l.op x (right, l.rightNode)).bind fun _ => .pure
    exact hlink.bind fun y => ih y

theorem value (h : p.Moves f p') : Bind.Moves f p.value p'.value := by
  unfold Plan.value
  rw [h.footNode]
  have hlinks : List.Forall₂ (ChainLink.Moves f) p.links.reverse p'.links.reverse :=
    List.rel_reverse h.links
  exact h.foot.bind fun bound => (Bind.Moves.asValue p.footNode bound).bind fun foot =>
    (applyLinks hlinks (foot, p.footNode)).bind fun _ => .pure

theorem bound (h : p.Moves f p') : Bind.Moves f p.bound p'.bound := by
  unfold Plan.bound
  have hvalue := h.value
  obtain ⟨foot, footNode, links⟩ := p
  obtain ⟨foot', footNode', links'⟩ := p'
  cases h.links with
  | nil => exact h.foot
  | cons => exact hvalue.map

end Plan.Moves

namespace Expr

open CultureLint.Bind (Moves MovesTo moveOperand)

variable (f : Shift)

mutual

theorem moves_plan : (e : Expr) → e.plan.Moves f (e.move f).plan
  | .literal node kind text => ⟨(Moves.specialType _).bind fun _ => (Moves.addExpr node _ _).bind fun _ => .pure,
      rfl, .nil⟩
  | .name node word => ⟨Moves.name node word, rfl, .nil⟩
  | .primitive node type => by
    refine ⟨(Moves.special _).bind fun found => ?_, rfl, .nil⟩
    cases found with
    | some id => exact .pure
    | none => exact (Moves.addInvalid node _).bind fun _ => .pure
  | .this node => ⟨Moves.read.bind fun _ => (Moves.addExpr node _ _).bind fun _ => .pure, rfl, .nil⟩
  | .parenthesized node inner => ⟨(moves_plan inner).bound, rfl, .nil⟩
  | .memberAccess node receiver ident =>
    ⟨(moves_plan receiver).bound.bind fun bound => Moves.memberAccess node bound ident.name, rfl, .nil⟩
  | .invocation node callee arguments =>
    ⟨(moves_plan callee).bound.bind fun callee => (moves_values arguments).bind fun args =>
      (Moves.invocation node callee args).bind fun _ => .pure, rfl, .nil⟩
  | .elementAccess node receiver arguments => by
    refine ⟨(moves_plan receiver).value.bind fun op => (moves_values arguments).bind fun args => ?_, rfl, .nil⟩
    rw [List.map_map]
    exact (Moves.elementAccess node op _).bind fun _ => .pure
  | .objectCreation node type arguments => by
    refine ⟨(Moves.resolveType type).bind fun type => (moves_values arguments).bind fun args => ?_, rfl, .nil⟩
    rw [List.map_map]
    exact (Moves.addExpr node _ _).bind fun _ => .pure
  | .unary node op operand => by
    refine ⟨(moves_plan operand).value.bind fun value => ?_, rfl, .nil⟩
    rw [show (operand.move f).node = _ from operand.node_move f]
    exact (Moves.unary node op (value, operand.node)).bind fun _ => .pure
  | .step node increment operand =>
    ⟨(moves_plan operand).value.bind fun value => (Moves.step node increment value).bind fun _ => .pure, rfl, .nil⟩
  | .cast node type operand =>
    ⟨(Moves.resolveType type).bind fun target => (moves_plan operand).value.bind fun value =>
      (Moves.cast node target value).bind fun _ => .pure, rfl, .nil⟩
  | .binary node op left right =>
    have hleft := moves_plan left
    ⟨hleft.foot, hleft.footNode, .cons ⟨rfl, rfl, (moves_plan right).value, right.node_move f⟩ hleft.links⟩
  | .assignment node op target value => by
    refine ⟨(moves_plan target).value.bind fun targetOp => (moves_plan value).value.bind fun valueOp => ?_,
      rfl, .nil⟩
    rw [show (value.move f).node = _ from value.node_move f]
    exact (Moves.assignment node op targetOp (valueOp, value.node)).bind fun _ => .pure
  | .conditional node condition whenTrue whenFalse => by
    refine ⟨(Moves.special _).bind fun boolean => (moves_plan condition).value.bind fun op => ?_, rfl, .nil⟩
    rw [show (condition.move f).node = _ from condition.node_move f,
      show (whenTrue.move f).node = _ from whenTrue.node_move f,
      show (whenFalse.move f).node = _ from whenFalse.node_move f]
    exact (Moves.convert condition.node op boolean).bind fun conditionOp =>
      (moves_plan whenTrue).value.bind fun a => (moves_plan whenFalse).value.bind fun b =>
        (Moves.conditional node conditionOp (a, whenTrue.node) (b, whenFalse.node)).bind fun _ => .pure

theorem moves_values : (es : List Expr) →
    MovesTo f (List.map (moveOperand f)) (values es) (values (moveAll f es))
  | [] => .pure
  | e :: es => by
    refine (moves_plan e).value.bind fun op => (moves_values es).bind fun ops => ?_
    rw [show (e.move f).node = _ from e.node_move f]
    exact .pure

end

variable {f} (e : Expr)

theorem moves_bindValue : Moves f e.bindValue (Movable.move f e).bindValue := (moves_plan f e).value

theorem moves_bindConverted (target : Option TypeId) :
    Moves f (e.bindConverted target) ((Movable.move f e).bindConverted target) := by
  unfold bindConverted
  rw [e.node_move f]
  exact e.moves_bindValue.bind fun op => Moves.convert e.node op target

end Expr

/-! ### Statements -/

namespace Bind.Moves

variable {α : Type} {f : Shift}

theorem inBlock {m n : Bind α} (h : Moves f m n) : Moves f (inBlock m) (inBlock n) := by
  have hopen : Moves f (modify fun s => { s with locals := [] :: s.locals } : Bind Unit)
      (modify fun s => { s with locals := [] :: s.locals }) := fun _ _ => rfl
  have hclose : Moves f (modify fun s => { s with locals := s.locals.tail } : Bind Unit)
      (modify fun s => { s with locals := s.locals.tail }) := fun _ _ => rfl
  exact hopen.bind fun _ => h.bind fun _ => hclose.bind fun _ => .pure

theorem declareLocal (name : String) (type : Option TypeId) :
    Moves f (declareLocal name type) (declareLocal name type) := fun _ _ => rfl

theorem returnsNothing : Moves f returnsNothing returnsNothing := fun _ _ => rfl

theorem optionMapM {β : Type} [Movable α] {g : α → Bind β} (H : ∀ a, Moves f (g a) (g (move f a)))
    (a : Option α) : Moves f (a.mapM g) ((move f a).mapM g) := by
  cases a with
  | none => exact .pure
  | some a => exact (H a).map

end Bind.Moves

section

open CultureLint.Bind (Moves)

variable {f : Shift}

@[simp] theorem Declarator.span_move (d : Declarator) : (move f d).span = move f d.span := by
  obtain ⟨name, value⟩ := d
  cases value with
  | none => rfl
  | some value =>
    change (move f name.span).cover (move f value).span = _
    rw [value.span_move f, ← move_cover]
    rfl

theorem Declarator.moves_bindLocal (d : Declarator) (isImplicit : Bool) (declared : Option TypeId) :
    Moves f (d.bindLocal isImplicit declared) ((move f d).bindLocal isImplicit declared) := by
  have declare (value : Option OperationId) (type : Option TypeId) : Moves f
      (Bind.declareLocal d.name.name type >>= fun _ =>
        Bind.add ⟨.variableDeclaration d.name.name value, type, d.span.origin, false, none⟩)
      (Bind.declareLocal d.name.name type >>= fun _ =>
        Bind.add ⟨.variableDeclaration d.name.name value, type, (move f d).span.origin, false, none⟩) := by
    rw [d.span_move]
    exact (Moves.declareLocal _ _).bind fun _ => Moves.add rfl
  obtain ⟨name, value⟩ := d
  cases value with
  | none => exact Moves.pure.bind fun _ => declare _ _
  | some value =>
    cases isImplicit with
    | true =>
      exact value.moves_bindValue.bind fun op => (Moves.typeOf op).bind fun _ => Moves.pure.bind fun _ => declare _ _
    | false =>
      exact (value.moves_bindConverted declared).bind fun _ => Moves.pure.bind fun _ => declare _ _

namespace Stmt

theorem moves_bindLocals (type : TypeExpr) (declarators : List Declarator) (span : Span) :
    Moves f (bindLocals type declarators span)
      (bindLocals (Movable.move f type) (Movable.move f declarators) (Movable.move f span)) := by
  have hall (isImplicit : Bool) (declared : Option TypeId) : Moves f
      (declarators.mapM fun d => d.bindLocal isImplicit declared)
      ((Movable.move f declarators).mapM fun d => d.bindLocal isImplicit declared) :=
    Moves.mapM (fun d => d.moves_bindLocal isImplicit declared) declarators
  have block (ops : List OperationId) : Moves f (Bind.add ⟨.block ops, none, span.origin, true, none⟩)
      (Bind.add ⟨.block ops, none, (Movable.move f span).origin, true, none⟩) := Moves.add rfl
  cases type with
  | implicit | primitive | named | nullable | array =>
    refine (Moves.resolveType _).bind fun declared => (hall _ declared).bind fun ops => ?_
    obtain _ | ⟨op, _ | ⟨op', ops⟩⟩ := ops
    · exact block _
    · exact .pure
    · exact block _

theorem moves_bindExpression (value : Expr) :
    Moves f (bindExpression value) (bindExpression (Movable.move f value)) := by
  unfold bindExpression
  rw [value.span_move f]
  exact value.moves_bindValue.bind fun _ => Moves.addStmt _ _

theorem moves_bindCondition (condition : Expr) :
    Moves f (bindCondition condition) (bindCondition (Movable.move f condition)) :=
  (Moves.special _).bind fun _ => condition.moves_bindConverted _

theorem moves_bindStart (start : ForStart) : Moves f (bindStart start) (bindStart (Movable.move f start)) := by
  cases start with
  | nothing => exact .pure
  | locals type declarators span => exact (moves_bindLocals type declarators span).map
  | expression value => exact (moves_bindExpression value).map

mutual

theorem moves_bind : (st : Stmt) → Moves f st.bind (st.move f).bind
  | .block statements span => (moves_bindAll statements).inBlock.bind fun _ => Moves.addStmt span _
  | .locals type declarators span => moves_bindLocals type declarators span
  | .expression value => moves_bindExpression value
  | .ret value span => by
    have finish (target : Option TypeId) : Moves f
        (value.mapM (·.bindConverted target) >>= fun value => Bind.addStmt span (.ret value))
        ((Movable.move f value).mapM (·.bindConverted target) >>= fun value =>
          Bind.addStmt (Movable.move f span) (.ret value)) :=
      (Moves.optionMapM (fun e => e.moves_bindConverted target) value).bind fun _ => Moves.addStmt span _
    refine Moves.returnsNothing.bind fun nothing => .ite ?_ ?_
    · exact Moves.pure.bind fun target => finish target
    · exact Moves.read.bind fun _ => Moves.pure.bind fun target => finish target
  | .ifThen condition whenTrue span =>
    (moves_bindCondition condition).bind fun _ => (moves_bind whenTrue).bind fun _ => Moves.addStmt span _
  | .ifElse condition whenTrue whenFalse span =>
    (moves_bindCondition condition).bind fun _ => (moves_bind whenTrue).bind fun _ =>
      (moves_bind whenFalse).bind fun _ => Moves.addStmt span _
  | .whileLoop condition body span =>
    (moves_bindCondition condition).bind fun _ => (moves_bind body).bind fun _ => Moves.addStmt span _
  | .forLoop start condition iterators body span =>
    Moves.bind (Moves.inBlock ((moves_bindStart start).bind fun _ =>
      (Moves.optionMapM moves_bindCondition condition).bind fun _ =>
        (Moves.mapM Expr.moves_bindValue iterators).bind fun _ => (moves_bind body).bind fun _ => .pure))
      fun _ => Moves.addStmt span _
  | .empty span => Moves.addStmt span _

theorem moves_bindAll : (ss : List Stmt) → Moves f (bindAll ss) (bindAll (moveAll f ss))
  | [] => .pure
  | s :: ss => (moves_bind s).bind fun _ => (moves_bindAll ss).bind fun _ => .pure

end

end Stmt

theorem Expr.moves_bindArrow (value : Expr) : Moves f value.bindArrow (Movable.move f value).bindArrow := by
  have arrow (kind : OperationKind) : Moves f (Bind.add ⟨kind, none, value.span.origin, true, none⟩)
      (Bind.add ⟨kind, none, (Movable.move f value).span.origin, true, none⟩) := by
    rw [value.span_move f]
    exact Moves.add rfl
  refine Moves.returnsNothing.bind fun nothing => .ite ?_ ?_
  · exact value.moves_bindValue.map.bind fun kind => arrow kind
  · exact Moves.read.bind fun frame => (value.moves_bindConverted frame.returns).bind fun _ =>
      Moves.pure.bind fun kind => arrow kind

theorem Body.moves_bind (body : Body) : Moves f body.bind (move f body).bind := by
  cases body with
  | block statements span =>
    have hblock := Stmt.moves_bind (f := f) (.block statements span)
    rw [Stmt.move, Stmt.moveAll_eq] at hblock
    exact hblock
  | arrow value => exact value.moves_bindArrow

end

end CultureLint
