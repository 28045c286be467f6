import CultureLint.Binding.Expr
import CultureLint.Proofs.Binding.Order
import CultureLint.Proofs.Binding.Steps
import CultureLint.Proofs.Document.Fits

/-! Binding lays operations in the order of the text: what an expression is bound to stands inside the
expression, and the operands of an operation stand in it one behind the other. -/

namespace CultureLint

/-! ### Steps -/

/-- One document has all the operations of another, and the same roots. -/
structure BoundUnit.Keeps (unit later : BoundUnit) : Prop where
  ext : unit.Extends later
  roots : later.roots = unit.roots

namespace BoundUnit.Keeps

variable {unit later last : BoundUnit}

theorem refl (unit : BoundUnit) : unit.Keeps unit := ⟨.refl _, rfl⟩

theorem trans (h : unit.Keeps later) (h' : later.Keeps last) : unit.Keeps last :=
  ⟨h.ext.trans h'.ext, h'.roots.trans h.roots⟩

theorem add (unit : BoundUnit) (op : Operation) : unit.Keeps (unit.add op) :=
  ⟨unit.extends_add op, roots_add unit op⟩

end BoundUnit.Keeps

namespace Bind

variable {α β : Type} {u : BoundUnit}

/-- From the given operations the step leads to more of them, as the result says. -/
def Leads (m : Bind α) (u : BoundUnit) (Q : α → BoundUnit → Prop) : Prop :=
  ∀ frame s, s.unit = u → u.Keeps (m frame s).2.unit ∧ Q (m frame s).1 (m frame s).2.unit

/-- The step adds no operation. -/
def Quiet (m : Bind α) : Prop := ∀ frame s, (m frame s).2.unit = s.unit

namespace Quiet

variable {m : Bind α} {k : α → Bind β}

theorem pure {a : α} : Quiet (pure a : Bind α) := fun _ _ => rfl

theorem bind (h : Quiet m) (hk : ∀ a, Quiet (k a)) : Quiet (m >>= k) := fun frame s =>
  (hk _ frame _).trans (h frame s)

theorem read : Quiet (MonadReaderOf.read : Bind Frame) := fun _ _ => rfl

theorem getCompilation : Quiet getCompilation := fun _ _ => rfl

theorem typeOf (op : OperationId) : Quiet (typeOf op) := fun _ _ => rfl

theorem isNull (op : OperationId) : Quiet (isNull op) := by
  intro frame s
  rw [isNull_apply]

theorem resolveType (type : TypeExpr) : Quiet (resolveType type) := fun _ _ => rfl

theorem special (t : SpecialType) : Quiet (special t) := fun _ _ => rfl

theorem numericOf (type : Option TypeId) : Quiet (numericOf type) := fun _ _ => rfl

theorem isString (type : Option TypeId) : Quiet (isString type) := fun _ _ => rfl

theorem specialType (t : Option SpecialType) : Quiet (specialType t) := by
  cases t with
  | none => exact .pure
  | some t => exact special t

theorem promotionOf (left right : Option TypeId) : Quiet (promotionOf left right) := by
  refine (numericOf left).bind fun a => (numericOf right).bind fun b => ?_
  cases a <;> cases b <;> exact .pure

theorem mapM {f : α → Bind β} (h : ∀ a, Quiet (f a)) (as : List α) : Quiet (as.mapM f) := by
  induction as with
  | nil => exact .pure
  | cons a as ih =>
    rw [List.mapM_cons]
    exact (h a).bind fun _ => ih.bind fun _ => .pure

end Quiet

namespace Leads

variable {m : Bind α} {k : α → Bind β} {Q Q' : α → BoundUnit → Prop} {R : β → BoundUnit → Prop}

theorem pure {a : α} (h : Q a u) : Leads (pure a) u Q := by
  rintro frame s rfl
  exact ⟨.refl _, h⟩

theorem bind (h : Leads m u Q) (hk : ∀ a v, u.Keeps v → Q a v → Leads (k a) v R) :
    Leads (m >>= k) u R := by
  intro frame s hs
  obtain ⟨hkeep, hq⟩ := h frame s hs
  obtain ⟨hkeep', hr⟩ := hk _ _ hkeep hq frame _ rfl
  exact ⟨hkeep.trans hkeep', hr⟩

/-- A step that only looks changes nothing for the next one. -/
theorem skip (h : Quiet m) (hk : ∀ a, Leads (k a) u R) : Leads (m >>= k) u R := by
  rintro frame s rfl
  exact hk _ frame _ (h frame s)

theorem map {g : α → β} (h : Leads m u Q) (hg : ∀ a v, Q a v → R (g a) v) : Leads (g <$> m) u R := by
  rw [← bind_pure_comp]
  exact h.bind fun a v _ hq => .pure (hg a v hq)

theorem imp (h : Leads m u Q) (hq : ∀ a v, Q a v → Q' a v) : Leads m u Q' := fun frame s hs =>
  (h frame s hs).imp_right (hq _ _)

theorem ite {c : Prop} [Decidable c] {m' : Bind α} (h : Leads m u Q) (h' : Leads m' u Q) :
    Leads (if c then m else m') u Q := by
  split
  · exact h
  · exact h'

/-! ### Operations -/

/-- An operation around others stands where it comes from. -/
theorem add (op : Operation)
    (hparts : u.Lies op.origin.span.start op.origin.span.stop op.kind.children)
    (hsmaller : op.kind.isInfix = true → ∀ part ∈ op.kind.children, ∃ found,
      u.get? part = some found ∧ found.origin.span ≠ op.origin.span) :
    Leads (add op) u fun r v => v.Lies op.origin.span.start op.origin.span.stop [r] := by
  rintro frame s rfl
  refine ⟨.add _ _, .cons (s.unit.get?_add_nextId op) (Nat.le_refl _) (Nat.le_refl _)
    (hparts.mono (s.unit.extends_add op)) (fun hinfix part hpart => ?_) (.nil (Nat.le_refl _))⟩
  obtain ⟨found, hfound, hne⟩ := hsmaller hinfix part hpart
  obtain ⟨parent, hfound⟩ := s.unit.extends_add op _ _ hfound
  exact ⟨_, hfound, hne⟩

theorem addPlain {op : Operation} (hkind : op.kind.isInfix = false)
    (h : u.Lies op.origin.span.start op.origin.span.stop op.kind.children) :
    Leads (Bind.add op) u fun r v => v.Lies op.origin.span.start op.origin.span.stop [r] :=
  add op h fun hinfix => by simp [hkind] at hinfix

theorem addStmt {span : Span} {kind : OperationKind} (hkind : kind.isInfix = false)
    (h : u.Lies span.start span.stop kind.children) :
    Leads (addStmt span kind) u fun r v => v.Lies span.start span.stop [r] :=
  addPlain hkind h

variable (node : Node)

theorem addExpr {kind : OperationKind} (type : Option TypeId) (hkind : kind.isInfix = false)
    (h : u.Lies node.span.start node.span.stop kind.children) :
    Leads (addExpr node kind type) u fun r v => v.Lies node.span.start node.span.stop [r] :=
  addPlain hkind h

theorem addInvalid {parts : List OperationId} (h : u.Lies node.span.start node.span.stop parts) :
    Leads (addInvalid node parts) u fun r v => v.Lies node.span.start node.span.stop [r] :=
  addExpr node none rfl h

theorem addImplicitThis :
    Leads (addImplicitThis node) u fun r v => v.Lies node.span.start node.span.start [r] :=
  skip .read fun _ => addPlain rfl (.nil (Nat.le_refl _))

theorem convert {op : OperationId} (target : Option TypeId)
    (h : u.Lies node.span.start node.span.stop [op]) :
    Leads (convert op node target) u fun r v => v.Lies node.span.start node.span.stop [r] := by
  cases target with
  | none => exact pure h
  | some target =>
    exact skip .getCompilation fun _ => skip (.typeOf op) fun _ => skip (.isNull op) fun _ =>
      .ite (pure h) (addPlain rfl h)

theorem convertSpecial {op : OperationId} (target : SpecialType)
    (h : u.Lies node.span.start node.span.stop [op]) :
    Leads (convertSpecial op node target) u fun r v => v.Lies node.span.start node.span.stop [r] :=
  skip (.special target) fun _ => convert node _ h

end Leads

/-! ### Operators -/

/-- The operand stands inside the expression that it is written as. -/
def InPlace (x : Operand) (u : BoundUnit) : Prop := u.Lies x.2.span.start x.2.span.stop [x.1]

theorem InPlace.mono {x : Operand} {v : BoundUnit} (h : InPlace x u) (hk : u.Keeps v) : InPlace x v :=
  BoundUnit.Lies.mono h hk.ext

/-- Two expressions that are not empty stand in a third one, one behind the other. -/
structure Holds (node x y : Node) : Prop where
  left : x.span.start < x.span.stop
  right : y.span.start < y.span.stop
  start : node.span.start ≤ x.span.start
  apart : x.span.stop ≤ y.span.start
  stop : y.span.stop ≤ node.span.stop

namespace Leads

variable {x y : Operand}

theorem convertOperand (target : Option TypeId) (h : InPlace x u) :
    Leads (convertOperand x target) u fun r => InPlace (r, x.2) := convert x.2 target h

theorem concatOperand (h : InPlace x u) : Leads (concatOperand x) u fun r => InPlace (r, x.2) :=
  skip (.typeOf x.1) fun _ => skip (.isString _) fun _ => .ite (pure h) <|
    skip (.isNull x.1) fun _ => .ite (convertSpecial x.2 _ h) (convertSpecial x.2 _ h)

theorem convertBoth (target : Option TypeId) (hx : InPlace x u) (hy : InPlace y u) :
    Leads (convertBoth x y target) u fun r v => InPlace (r.1, x.2) v ∧ InPlace (r.2, y.2) v :=
  (convertOperand target hx).bind fun _ _ hk hl => (convertOperand target (hy.mono hk)).bind fun _ _ hk' hr =>
    pure ⟨hl.mono hk', hr⟩

theorem binaryOperands (op : BinaryOp) (hx : InPlace x u) (hy : InPlace y u) :
    Leads (binaryOperands op x y) u fun r v => InPlace (r.1.1, x.2) v ∧ InPlace (r.1.2, y.2) v := by
  refine skip (.typeOf x.1) fun _ => skip (.typeOf y.1) fun _ => skip (.special _) fun boolean =>
    skip (.promotionOf _ _) fun numeric => ?_
  have asTheyAre (type : Option TypeId) : Leads (Pure.pure ((x.1, y.1), type)) u
      fun (r : (OperationId × OperationId) × Option TypeId) v =>
        InPlace (r.1.1, x.2) v ∧ InPlace (r.1.2, y.2) v :=
    pure ⟨hx, hy⟩
  have both (target type : Option TypeId) : Leads (Bind.convertBoth x y target >>= fun both =>
      Pure.pure (both, type)) u fun r v => InPlace (r.1.1, x.2) v ∧ InPlace (r.1.2, y.2) v :=
    (convertBoth target hx hy).bind fun _ _ _ h => pure h
  have calculate : Leads (Bind.specialType numeric >>= fun promoted =>
      Bind.convertBoth x y promoted >>= fun both => Pure.pure (both, promoted)) u
      fun r v => InPlace (r.1.1, x.2) v ∧ InPlace (r.1.2, y.2) v :=
    skip (.specialType numeric) fun promoted => both promoted promoted
  cases op with
  | add =>
    refine skip (.isString _) fun _ => skip (.isString _) fun _ => .ite ?_ (.ite calculate (asTheyAre _))
    exact (concatOperand hx).bind fun _ _ hk hl => (concatOperand (hy.mono hk)).bind fun _ _ hk' hr =>
      skip (.special _) fun _ => pure ⟨hl.mono hk', hr⟩
  | sub | mul | div | rem => exact .ite calculate (asTheyAre _)
  | shl =>
    exact skip (.numericOf _) fun _ => skip (.specialType _) fun _ =>
      (convertOperand _ hx).bind fun _ _ hk hl => (convertSpecial y.2 _ (hy.mono hk)).bind fun _ _ hk' hr =>
        pure ⟨hl.mono hk', hr⟩
  | bitAnd | bitOr | bitXor => exact .ite (asTheyAre _) (.ite calculate (asTheyAre _))
  | eq | ne | lt | gt | le | ge => exact skip (.specialType _) fun _ => both _ _
  | and | or => exact both _ _
  | coalesce => exact asTheyAre _

variable {node : Node}

/-- An operation with an operator between two operands. -/
theorem addInfix {x y : Node} {kind : OperationKind} {l r : OperationId} (type : Option TypeId)
    (hkind : kind.children = [l, r]) (hl : InPlace (l, x) u) (hr : InPlace (r, y) u) (h : Holds node x y) :
    Leads (Bind.addExpr node kind type) u fun r => InPlace (r, node) := by
  obtain ⟨hx, hy, hstart, hxy, hstop⟩ := h
  have hboth : u.Lies node.span.start node.span.stop [l, r] :=
    (BoundUnit.Lies.widen hl hstart hxy).append (BoundUnit.Lies.widen hr (Nat.le_refl _) hstop)
  refine add ⟨kind, type, node.origin, false, none⟩ (hkind ▸ hboth) fun _ part hpart => ?_
  rw [hkind] at hpart
  have hne {id : OperationId} {lo hi : Nat} (h : u.Lies lo hi [id])
      (hinside : node.span.start < lo ∨ hi < node.span.stop) :
      ∃ found, u.get? id = some found ∧ found.origin.span ≠ node.span := by
    cases h with
    | @cons _ mid _ _ found _ hop hlo hhi _ _ hrest =>
      refine ⟨found, hop, fun heq => ?_⟩
      have := hrest.le
      rw [heq] at hlo hhi
      omega
  simp only [List.mem_cons, List.not_mem_nil, or_false] at hpart
  obtain rfl | rfl := hpart
  · exact hne hl (.inr (by dsimp only; omega))
  · exact hne hr (.inl (by dsimp only; omega))

theorem binary (op : BinaryOp) (hx : InPlace x u) (hy : InPlace y u) (h : Holds node x.2 y.2) :
    Leads (binary node op x y) u fun r => InPlace (r, node) :=
  (binaryOperands op hx hy).bind fun _ _ _ hr => addInfix _ rfl hr.1 hr.2 h

theorem assignment {target : OperationId} {targetNode : Node} (op : AssignOp)
    (ht : InPlace (target, targetNode) u) (hx : InPlace x u) (h : Holds node targetNode x.2) :
    Leads (assignment node op target x) u fun r => InPlace (r, node) := by
  refine skip (.typeOf target) fun _ => ?_
  cases op with
  | assign =>
    exact (convertOperand _ hx).bind fun _ _ hk hr => addInfix _ rfl (ht.mono hk) hr h
  | compound op =>
    refine skip (.isString _) fun _ => .ite ?_ ?_
    · exact (concatOperand hx).bind fun _ _ hk hr => addInfix _ rfl (ht.mono hk) hr h
    · exact skip (.typeOf x.1) fun _ => skip (.promotionOf _ _) fun _ => skip (.specialType _) fun _ =>
        (convertOperand _ hx).bind fun _ _ hk hr => addInfix _ rfl (ht.mono hk) hr h

theorem conditional {condition : OperationId} (conditionNode : Node) (hc : InPlace (condition, conditionNode) u)
    (hx : InPlace x u) (hy : InPlace y u) (hstart : node.span.start ≤ conditionNode.span.start)
    (hapart : conditionNode.span.stop ≤ x.2.span.start) (h : x.2.span.stop ≤ y.2.span.start)
    (hstop : y.2.span.stop ≤ node.span.stop) :
    Leads (conditional node condition x y) u fun r => InPlace (r, node) := by
  refine skip .getCompilation fun _ => skip (.typeOf x.1) fun _ => skip (.typeOf y.1) fun _ =>
    skip (.isNull x.1) fun _ => skip (.isNull y.1) fun _ => (convertBoth _ hx hy).bind fun r v hk hr => ?_
  have hcondition : v.Lies node.span.start x.2.span.start [condition] :=
    BoundUnit.Lies.widen (hc.mono hk) hstart hapart
  have hl : v.Lies x.2.span.start y.2.span.start [r.1] := BoundUnit.Lies.widen hr.1 (Nat.le_refl _) h
  have hr : v.Lies y.2.span.start node.span.stop [r.2] := BoundUnit.Lies.widen hr.2 (Nat.le_refl _) hstop
  exact addExpr node _ rfl (hcondition.append (hl.append hr))

/-- The one operand of an operation. -/
theorem inside (hx : InPlace x u) (hstart : node.span.start ≤ x.2.span.start)
    (hstop : x.2.span.stop ≤ node.span.stop) : u.Lies node.span.start node.span.stop [x.1] :=
  BoundUnit.Lies.widen hx hstart hstop

theorem unary (op : UnaryOp) (hx : InPlace x u) (hstart : node.span.start ≤ x.2.span.start)
    (hstop : x.2.span.stop ≤ node.span.stop) : Leads (unary node op x) u fun r => InPlace (r, node) := by
  cases op with
  | increment | decrement =>
    exact skip (.typeOf x.1) fun _ => addExpr node _ rfl (inside hx hstart hstop)
  | not =>
    exact skip (.special _) fun _ => (convertOperand _ hx).bind fun _ _ _ hr =>
      addExpr node _ rfl (inside hr hstart hstop)
  | plus | minus | bitNot =>
    refine skip (.typeOf x.1) fun _ => skip (.numericOf _) fun numeric => ?_
    cases numeric with
    | none => exact addExpr node _ rfl (inside hx hstart hstop)
    | some s =>
      exact (convertSpecial x.2 _ hx).bind fun _ _ _ hr => skip (.special _) fun _ =>
        addExpr node _ rfl (inside (x := (_, x.2)) hr hstart hstop)

theorem cast (target : Option TypeId) {op : OperationId} (h : u.Lies node.span.start node.span.stop [op]) :
    Leads (cast node target op) u fun r => InPlace (r, node) := by
  cases target with
  | none => exact addInvalid node h
  | some target =>
    exact skip .getCompilation fun _ => skip (.typeOf op) fun _ => skip (.isNull op) fun _ =>
      addExpr node _ rfl h

end Leads

/-! ### Names, members and calls -/

/-- What an expression turned out to be stands inside the expression, as far as it is an operation. -/
def BoundInPlace (node : Node) (b : Bound) (u : BoundUnit) : Prop :=
  u.Lies node.span.start node.span.stop b.value?.toList

/-- The operands stand inside the expressions that they are written as, one behind the other. -/
def AllInPlace (lo hi : Nat) (u : BoundUnit) : List Operand → Prop
  | [] => lo ≤ hi
  | x :: xs => lo ≤ x.2.span.start ∧ InPlace x u ∧ AllInPlace x.2.span.stop hi u xs

namespace AllInPlace

variable {lo hi : Nat} {v : BoundUnit} {xs : List Operand}

theorem widen {lo' : Nat} (h : AllInPlace lo hi u xs) (hlo : lo' ≤ lo) : AllInPlace lo' hi u xs := by
  cases xs with
  | nil => exact Nat.le_trans hlo h
  | cons x xs => exact ⟨Nat.le_trans hlo h.1, h.2⟩

theorem mono (h : AllInPlace lo hi u xs) (hk : u.Keeps v) : AllInPlace lo hi v xs := by
  induction xs generalizing lo with
  | nil => exact h
  | cons x xs ih => exact ⟨h.1, h.2.1.mono hk, ih h.2.2⟩

theorem le (h : AllInPlace lo hi u xs) : lo ≤ hi := by
  induction xs generalizing lo with
  | nil => exact h
  | cons x xs ih =>
    have := ih h.2.2
    have := x.2.span.start_le_stop
    have := h.1
    omega

theorem lies (h : AllInPlace lo hi u xs) : u.Lies lo hi (xs.map (·.1)) := by
  induction xs generalizing lo with
  | nil => exact .nil h
  | cons x xs ih =>
    have hx : u.Lies lo x.2.span.stop [x.1] := BoundUnit.Lies.widen h.2.1 h.1 (Nat.le_refl _)
    exact hx.append (ih h.2.2)

end AllInPlace

namespace Leads

variable {node : Node}

theorem asValue {b : Bound} (h : BoundInPlace node b u) :
    Leads (asValue node b) u fun r => InPlace (r, node) := by
  cases b with
  | value op => exact pure h
  | type | namespaceName | methodGroup => exact addInvalid node h

/-- The value that an expression turned out to be. -/
theorem value {m : Bind OperationId} (h : Leads m u fun r => InPlace (r, node)) :
    Leads (m >>= fun op => Pure.pure (Bound.value op)) u (BoundInPlace node) :=
  h.bind fun _ _ _ hr => pure hr

/-- The use of a member through a receiver, which may be left out. -/
theorem reference {receiver : Option OperationId} (kind : Option OperationId → OperationKind)
    (type : Option TypeId) (hplain : ∀ op, (kind op).isInfix = false)
    (hparts : ∀ op, (kind op).children = op.toList) {c : Frame → Prop} [DecidablePred c]
    (h : u.Lies node.span.start node.span.stop receiver.toList) :
    Leads (do
      let op ← if c (← read) then some <$> Bind.addImplicitThis node else Pure.pure receiver
      return some (Bound.value (← Bind.addExpr node (kind op) type))) u
      fun b v => ∀ bound ∈ b, BoundInPlace node bound v := by
  have use (op : Option OperationId) (v : BoundUnit)
      (hop : v.Lies node.span.start node.span.stop op.toList) :
      Leads (Bind.addExpr node (kind op) type >>= fun r => Pure.pure (some (Bound.value r))) v
        fun b v => ∀ bound ∈ b, BoundInPlace node bound v := by
    refine (addExpr node type (hplain op) (hparts op ▸ hop)).bind fun r w _ hr => pure fun bound hb => ?_
    cases hb
    exact hr
  refine skip .read fun frame => .ite ?_ ?_
  · have hthis : Leads (some <$> Bind.addImplicitThis node) u fun op v =>
        v.Lies node.span.start node.span.stop op.toList :=
      (addImplicitThis node).map fun r v hr => hr.widen (Nat.le_refl _) node.span.start_le_stop
    exact hthis.bind fun op v _ hop => use op v hop
  · exact (pure h : Leads (Pure.pure receiver) u _).bind fun op v _ hop => use op v hop

theorem member? (owner : TypeId) (name : String) (receiver : Receiver)
    (h : u.Lies node.span.start node.span.stop receiver.value?.toList) :
    Leads (member? node owner name receiver) u fun b v => ∀ bound ∈ b, BoundInPlace node bound v := by
  refine skip .getCompilation fun c => ?_
  cases c.membersNamed owner name with
  | nil => exact pure (by simp)
  | cons found others =>
    obtain ⟨ref, member⟩ := found
    cases member with
    | method symbol =>
      refine pure fun bound hb => ?_
      cases hb
      exact h
    | property symbol =>
      exact reference (.propertyReference ref) symbol.type (fun _ => rfl) (fun _ => rfl)
        (c := fun frame => (receiver = .implicit && !symbol.isStatic && !frame.inStatic) = true) h
    | field symbol =>
      exact reference (.fieldReference ref) symbol.type (fun _ => rfl) (fun _ => rfl)
        (c := fun frame => (receiver = .implicit && !symbol.isStatic && !frame.inStatic) = true) h

theorem name (word : String) : Leads (name node word) u (BoundInPlace node) := by
  have hnil : u.Lies node.span.start node.span.stop [] := .nil node.span.start_le_stop
  have hlocal : Quiet (local? word) := fun _ _ => rfl
  refine skip hlocal fun found => ?_
  cases found with
  | some type => exact value (addExpr node _ rfl hnil)
  | none =>
    refine skip .read fun frame => ?_
    cases frame.parameters.lookup word with
    | some type => exact value (addExpr node _ rfl hnil)
    | none =>
      refine skip .read fun _ => (member? _ word .implicit hnil).bind fun b v hk hb => ?_
      cases b with
      | some bound => exact pure (hb bound rfl)
      | none =>
        refine skip .read fun frame => skip .getCompilation fun c => ?_
        have hnil := hnil.mono hk.ext
        cases frame.scope.resolveName c word with
        | some target =>
          cases target with
          | type | namespaceName => exact pure hnil
        | none => exact value (addInvalid node hnil)

theorem memberAccess {receiver : Bound} (word : String) (h : BoundInPlace node receiver u) :
    Leads (memberAccess node receiver word) u (BoundInPlace node) := by
  have hinvalid {parts : List OperationId} {v : BoundUnit} (hparts : v.Lies node.span.start node.span.stop parts) :
      Leads (Bound.value <$> Bind.addInvalid node parts) v (BoundInPlace node) :=
    (addInvalid node hparts).map fun _ _ hr => hr
  cases receiver with
  | namespaceName space =>
    refine skip .getCompilation fun c => ?_
    cases Scope.resolveMember c (.namespaceName space) word with
    | some target =>
      cases target with
      | type | namespaceName => exact pure h
    | none => exact hinvalid h
  | type id =>
    refine (member? id word .typeName h).bind fun b v hk hb => ?_
    cases b with
    | some bound => exact pure (hb bound rfl)
    | none => exact hinvalid (h.mono hk.ext)
  | value op =>
    refine skip (.typeOf op) fun type => ?_
    cases type with
    | none => exact hinvalid h
    | some id =>
      refine (member? id word (.value op) h).bind fun b v hk hb => ?_
      cases b with
      | some bound => exact pure (hb bound rfl)
      | none => exact hinvalid (h.mono hk.ext)
  | methodGroup => exact hinvalid h

variable {lo hi : Nat} {args : List Operand}

theorem convertArguments (parameters : List ParameterSymbol) (h : AllInPlace lo hi u args) :
    Leads (convertArguments args parameters) u fun rs v => v.Lies lo hi rs := by
  induction args generalizing lo u parameters with
  | nil => cases parameters <;> exact pure (.nil h)
  | cons x args ih =>
    cases parameters with
    | nil => exact pure (.nil h.le)
    | cons p parameters =>
      refine (convert x.2 p.type h.2.1).bind fun r v hk hr => ?_
      refine (ih parameters (h.2.2.mono hk)).bind fun rs w hk' hrs => pure ?_
      have hr : w.Lies lo x.2.span.stop [r] := (hr.mono hk'.ext).widen h.1 (Nat.le_refl _)
      exact hr.append hrs

theorem callGroup {mid : Nat} (owner : TypeId) (word : String) {receiver : Receiver}
    (hr : u.Lies node.span.start mid receiver.value?.toList) (ha : AllInPlace mid node.span.stop u args) :
    Leads (callGroup node owner word receiver args) u fun r => InPlace (r, node) := by
  refine skip (.mapM (fun x => ?_) args) fun types => skip .getCompilation fun c => ?_
  · exact Quiet.bind (.typeOf x.1) fun _ => Quiet.bind (.isNull x.1) fun _ => .pure
  cases overload? c owner word types with
  | none => exact addExpr node _ rfl (hr.append ha.lies)
  | some found =>
    obtain ⟨ref, method⟩ := found
    have call (op : Option OperationId) (v : BoundUnit) (hk : u.Keeps v)
        (hop : v.Lies node.span.start mid op.toList) :
        Leads (Bind.convertArguments args method.parameters >>= fun arguments =>
          Bind.addExpr node (.invocation (some ref) op arguments) method.returns) v
          fun r => InPlace (r, node) :=
      (convertArguments method.parameters (ha.mono hk)).bind fun rs w hk' hrs =>
        addExpr node _ rfl ((hop.mono hk'.ext).append hrs)
    refine skip .read fun frame => .ite ?_ ?_
    · have hthis : Leads (some <$> Bind.addImplicitThis node) u fun op v =>
          v.Lies node.span.start mid op.toList :=
        (addImplicitThis node).map fun r v h => h.widen (Nat.le_refl _) hr.le
      exact hthis.bind fun op v hk hop => call op v hk hop
    · exact (pure hr : Leads (Pure.pure receiver.value?) u _).bind fun op v hk hop => call op v hk hop

theorem invocation {mid : Nat} {callee : Bound} (hc : u.Lies node.span.start mid callee.value?.toList)
    (ha : AllInPlace mid node.span.stop u args) :
    Leads (invocation node callee args) u fun r => InPlace (r, node) := by
  cases callee with
  | methodGroup owner word receiver => exact callGroup owner word hc ha
  | value op => exact addInvalid node (hc.append ha.lies)
  | type | namespaceName => exact addInvalid node (hc.append ha.lies)

end Leads

end Bind

/-! ### Expressions -/

open CultureLint.Bind (Leads InPlace BoundInPlace AllInPlace Holds)

/-- The operators of a chain stand around what is bound below them; the node is that of the last one. -/
inductive LinksLie (foot : Node) : Node → List ChainLink → Prop
  | nil : LinksLie foot foot []
  | cons {left : Node} {l : ChainLink} {ls : List ChainLink} (h : LinksLie foot left ls)
      (hright : ∀ u, Leads l.right u fun r => InPlace (r, l.rightNode)) (hholds : Holds l.node left l.rightNode) :
      LinksLie foot l.node (l :: ls)

/-- What is bound by the plan stands inside the node. -/
structure Plan.Lies (p : Plan) (node : Node) : Prop where
  foot : ∀ u, Leads p.foot u (BoundInPlace p.footNode)
  links : LinksLie p.footNode node p.links

namespace Plan.Lies

variable {p : Plan} {node : Node} {u : BoundUnit}

theorem applyLinks {foot : Node} {op : OperationId} {ls : List ChainLink} (h : LinksLie foot node ls)
    (hop : InPlace (op, foot) u) :
    Leads (ls.reverse.foldlM applyLink (op, foot)) u fun x v => x.2 = node ∧ InPlace x v := by
  induction h with
  | nil => exact .pure ⟨rfl, hop⟩
  | @cons left l ls _ hright hholds ih =>
    rw [List.reverse_cons, List.foldlM_append]
    refine ih.bind fun x v _ hx => ?_
    obtain ⟨rfl, hx⟩ := hx
    have hlink : Leads (applyLink x l) v fun y w => y.2 = l.node ∧ InPlace y w :=
      (hright v).bind fun r w hk hr => (Leads.binary l.op (hx.mono hk) hr hholds).bind fun _ _ _ hop =>
        .pure ⟨rfl, hop⟩
    simpa only [List.foldlM_cons, List.foldlM_nil, bind_pure] using hlink

theorem value (h : p.Lies node) : Leads p.value u fun r => InPlace (r, node) :=
  (h.foot u).bind fun _ _ _ hb => (Leads.asValue hb).bind fun _ _ _ hop =>
    (applyLinks h.links hop).bind fun x v _ hx => .pure (by
      obtain ⟨rfl, hx⟩ := hx
      exact hx)

theorem bound (h : p.Lies node) : Leads p.bound u (BoundInPlace node) := by
  unfold Plan.bound
  have hvalue := h.value (u := u)
  obtain ⟨foot, footNode, links⟩ := p
  cases links with
  | nil =>
    cases h.links
    exact h.foot u
  | cons l ls => exact hvalue.map fun _ _ hr => hr

/-- A plan without operators. -/
theorem ofFoot {foot : Bind Bound} (h : ∀ u, Leads foot u (BoundInPlace node)) :
    Plan.Lies { foot, footNode := node } node := ⟨h, .nil⟩

end Plan.Lies

namespace Expr

mutual

/-- What an expression is bound to stands inside it. -/
theorem lies_plan : (e : Expr) → e.Tidy → e.plan.Lies e.node
  | .binary node op left right, h => by
    obtain ⟨a, hleft, b, hright, hb⟩ := h.children
    have hl := lies_plan left hleft.2
    have hr := lies_plan right hright.2
    refine ⟨hl.foot, .cons (l := ⟨node, op, right.plan.value, right.node⟩) hl.links (fun u => hr.value) ?_⟩
    exact ⟨hleft.2.orderly.nonempty, hright.2.orderly.nonempty, hleft.1.1, Nat.le_trans hleft.1.2 hright.1.1,
      Nat.le_trans hright.1.2 hb⟩
  | .literal node kind text, _ => .ofFoot fun u => .skip (.specialType _) fun _ =>
      .value (.addExpr node _ rfl (.nil node.span.start_le_stop))
  | .name node word, _ => .ofFoot fun u => .name word
  | .primitive node type, _ => .ofFoot fun u => by
    have hnil : u.Lies node.span.start node.span.stop [] := .nil node.span.start_le_stop
    refine .skip (.special _) fun id => ?_
    cases id with
    | some id => exact .pure hnil
    | none => exact .value (.addInvalid node hnil)
  | .this node, _ => .ofFoot fun u => .skip .read fun _ =>
      .value (.addExpr node _ rfl (.nil node.span.start_le_stop))
  | .parenthesized node inner, h => .ofFoot fun u => by
    obtain ⟨a, hinner, ha⟩ := h.children
    exact (lies_plan inner hinner.2).bound.imp fun _ _ hb =>
      BoundUnit.Lies.widen hb hinner.1.1 (Nat.le_trans hinner.1.2 ha)
  | .memberAccess node receiver ident, h => .ofFoot fun u => by
    obtain ⟨a, hreceiver, ha⟩ := h.children
    exact (lies_plan receiver hreceiver.2).bound.bind fun _ _ _ hb => .memberAccess ident.name
      (BoundUnit.Lies.widen hb hreceiver.1.1 (Nat.le_trans hreceiver.1.2 ha))
  | .invocation node callee arguments, h => .ofFoot fun u => by
    obtain ⟨a, hcallee, harguments⟩ := h.children
    refine (lies_plan callee hcallee.2).bound.bind fun b v _ hb => ?_
    refine (allInPlace_values arguments a node.span.stop harguments v).bind fun xs w hk hxs => ?_
    exact .value (.invocation ((BoundUnit.Lies.widen hb hcallee.1.1 hcallee.1.2).mono hk.ext) hxs)
  | .elementAccess node receiver arguments, h => .ofFoot fun u => by
    obtain ⟨a, hreceiver, harguments⟩ := h.children
    refine (lies_plan receiver hreceiver.2).value.bind fun r v _ hr => ?_
    refine (allInPlace_values arguments a node.span.stop harguments v).bind fun xs w hk hxs => ?_
    have hr : w.Lies node.span.start a [r] := (BoundUnit.Lies.widen hr hreceiver.1.1 hreceiver.1.2).mono hk.ext
    exact .value (.skip .getCompilation fun _ => .skip (.typeOf r) fun _ =>
      .addExpr node _ rfl (hr.append hxs.lies))
  | .objectCreation node type arguments, h => .ofFoot fun u => by
    refine .skip (.resolveType type) fun _ => ?_
    refine (allInPlace_values arguments _ _ h.children u).bind fun xs v _ hxs => ?_
    exact .value (.addExpr node _ rfl hxs.lies)
  | .unary node op operand, h => .ofFoot fun u => by
    obtain ⟨a, hoperand, ha⟩ := h.children
    exact (lies_plan operand hoperand.2).value.bind fun _ _ _ hr =>
      .value (.unary op hr hoperand.1.1 (Nat.le_trans hoperand.1.2 ha))
  | .step node increment operand, h => .ofFoot fun u => by
    obtain ⟨a, hoperand, ha⟩ := h.children
    exact (lies_plan operand hoperand.2).value.bind fun r _ _ hr =>
      .value (.skip (.typeOf r) fun _ => .addExpr node _ rfl
        (BoundUnit.Lies.widen hr hoperand.1.1 (Nat.le_trans hoperand.1.2 ha)))
  | .cast node type operand, h => .ofFoot fun u => by
    obtain ⟨a, hoperand, ha⟩ := h.children
    exact .skip (.resolveType type) fun target => (lies_plan operand hoperand.2).value.bind fun _ _ _ hr =>
      .value (.cast target (BoundUnit.Lies.widen hr hoperand.1.1 (Nat.le_trans hoperand.1.2 ha)))
  | .assignment node op target value, h => .ofFoot fun u => by
    obtain ⟨a, htarget, b, hvalue, hb⟩ := h.children
    refine (lies_plan target htarget.2).value.bind fun t v _ ht => ?_
    refine (lies_plan value hvalue.2).value.bind fun x w hk hx => ?_
    exact .value (.assignment op (ht.mono hk) hx ⟨htarget.2.orderly.nonempty, hvalue.2.orderly.nonempty,
      htarget.1.1, Nat.le_trans htarget.1.2 hvalue.1.1, Nat.le_trans hvalue.1.2 hb⟩)
  | .conditional node condition whenTrue whenFalse, h => .ofFoot fun u => by
    obtain ⟨a, hcondition, b, htrue, c, hfalse, hc⟩ := h.children
    refine .skip (.special _) fun boolean => ?_
    refine (lies_plan condition hcondition.2).value.bind fun r v _ hr => ?_
    refine (Leads.convert condition.node boolean hr).bind fun r v _ hr => ?_
    refine (lies_plan whenTrue htrue.2).value.bind fun x w hk hx => ?_
    refine (lies_plan whenFalse hfalse.2).value.bind fun y w' hk' hy => ?_
    exact .value (.conditional condition.node (BoundUnit.Lies.mono hr (hk.trans hk').ext)
      (hx.mono hk') hy hcondition.1.1 (Nat.le_trans hcondition.1.2 htrue.1.1)
      (Nat.le_trans htrue.1.2 hfalse.1.1) (Nat.le_trans hfalse.1.2 hc))

/-- Expressions one behind the other are bound to operations one behind the other. -/
theorem allInPlace_values : (es : List Expr) → (lo hi : Nat) → Fits lo hi es → (u : BoundUnit) →
    Leads (values es) u fun xs v => AllInPlace lo hi v xs
  | [], _, _, h, _ => .pure h
  | e :: es, lo, hi, h, u => by
    obtain ⟨mid, he, hes⟩ := h
    refine (lies_plan e he.2).value.bind fun r v _ hr => ?_
    exact (allInPlace_values es mid hi hes v).bind fun xs w hk hxs =>
      .pure ⟨he.1.1, hr.mono hk, hxs.widen he.1.2⟩

end

variable {e : Expr} {u : BoundUnit}

theorem inPlace_bindValue (h : e.Tidy) : Leads e.bindValue u fun r => InPlace (r, e.node) :=
  (lies_plan e h).value

theorem inPlace_bindConverted (h : e.Tidy) (target : Option TypeId) :
    Leads (e.bindConverted target) u fun r => InPlace (r, e.node) :=
  (inPlace_bindValue h).bind fun _ _ _ hr => .convert e.node target hr

end Expr

end CultureLint
