import CultureLint.Proofs.Binding.Adding
import CultureLint.Proofs.Binding.DottedNames
import CultureLint.Proofs.Binding.Tally

/-! Steps that join no strings: they add operations, and change neither the types nor the locals nor what is counted.
Such a step can stand between others in one of two documents that are compared. -/

namespace CultureLint

namespace Bind

variable {α β : Type}

/-- The step adds operations that join no strings, and does nothing else. -/
def Joinless (m : Bind α) : Prop :=
  ∀ frame s, ∃ unit, (m frame s).2 = { s with unit } ∧
    ∀ types p, unit.countJoined types p = s.unit.countJoined types p

namespace Joinless

variable {m m' : Bind α} {k : α → Bind β}

theorem pure (a : α) : Joinless (Pure.pure a : Bind α) := fun _ s => ⟨s.unit, rfl, fun _ _ => rfl⟩

theorem bind (h : Joinless m) (hk : ∀ a, Joinless (k a)) : Joinless (m >>= k) := by
  intro frame s
  obtain ⟨unit, hs, hcount⟩ := h frame s
  obtain ⟨unit', hs', hcount'⟩ := hk (m frame s).1 frame (m frame s).2
  refine ⟨unit', hs'.trans ?_, fun types p => (hcount' types p).trans ?_⟩
  · rw [hs]
  · rw [hs, hcount]

/-- A step that only asks. -/
theorem ask (h : ∀ frame s, (m frame s).2 = s) (hk : ∀ a, Joinless (k a)) : Joinless (m >>= k) :=
  bind (fun frame s => ⟨s.unit, h frame s, fun _ _ => rfl⟩) hk

theorem read {k : Frame → Bind β} (hk : ∀ f, Joinless (k f)) : Joinless (MonadReaderOf.read >>= k) :=
  ask (fun _ _ => rfl) hk

theorem getCompilation {k : Compilation → Bind β} (hk : ∀ c, Joinless (k c)) :
    Joinless (Bind.getCompilation >>= k) := ask (fun _ _ => rfl) hk

theorem typeOf {op : OperationId} {k : Option TypeId → Bind β} (hk : ∀ t, Joinless (k t)) :
    Joinless (Bind.typeOf op >>= k) := ask (fun _ _ => rfl) hk

theorem isNull {op : OperationId} {k : Bool → Bind β} (hk : ∀ b, Joinless (k b)) :
    Joinless (Bind.isNull op >>= k) := ask (fun _ _ => by rw [isNull_apply]) hk

theorem ite {p : Prop} [Decidable p] (h : Joinless m) (h' : Joinless m') :
    Joinless (if p then m else m') := by
  split
  · exact h
  · exact h'

theorem map {g : α → β} (h : Joinless m) : Joinless (g <$> m) := fun frame s => h frame s

/-! ### Operations -/

theorem add {op : Operation} (h : ∀ types : WellKnownTypes, types.joinsStrings op = false) : Joinless (Bind.add op) :=
  fun _ s => ⟨s.unit.add op, rfl, fun types _ => BoundUnit.countJoined_add_of_not_joins (h types)⟩

variable {node : Node}

theorem addExpr {kind : OperationKind} {type : Option TypeId}
    (h : ∀ types : WellKnownTypes, types.joinsStrings ⟨kind, type, node.origin, false, none⟩ = false) :
    Joinless (Bind.addExpr node kind type) := add h

theorem addInvalid (parts : List OperationId) : Joinless (Bind.addInvalid node parts) := addExpr fun _ => rfl

theorem addImplicitThis : Joinless (Bind.addImplicitThis node) := read fun _ => add fun _ => rfl

theorem convert (op : OperationId) (target : Option TypeId) :
    Joinless (Bind.convert op node target) := by
  cases target with
  | none => exact pure op
  | some target =>
    exact getCompilation fun _ => typeOf fun _ => isNull fun _ => ite (pure op) (add fun _ => rfl)

theorem concatOperand (x : Operand) : Joinless (Bind.concatOperand x) :=
  typeOf fun _ => ask (fun _ _ => rfl) fun _ => ite (pure x.1) <| isNull fun _ =>
    ite (ask (fun _ _ => rfl) fun _ => convert _ _) (ask (fun _ _ => rfl) fun _ => convert _ _)

/-! ### Names, members and calls -/

theorem asValue (b : Bound) : Joinless (Bind.asValue node b) := by
  cases b with
  | value op => exact pure op
  | type | namespaceName | methodGroup => exact addInvalid _

/-- The `this` that is left out, or the receiver that is there. -/
theorem receiver {p : Frame → Prop} [DecidablePred p] {receiver : Option OperationId}
    {k : Option OperationId → Bind β} (hk : ∀ o, Joinless (k o)) : Joinless (do
      let op ← if p (← MonadReaderOf.read) then some <$> Bind.addImplicitThis node else Pure.pure receiver
      k op) :=
  read fun _ => ite (bind (map addImplicitThis) hk) (bind (pure receiver) hk)

theorem member? (owner : TypeId) (word : String) (r : Receiver) :
    Joinless (Bind.member? node owner word r) := by
  refine getCompilation fun c => ?_
  cases c.membersNamed owner word with
  | nil => exact pure none
  | cons found others =>
    obtain ⟨ref, member⟩ := found
    have use {kind : OperationKind} {type : Option TypeId}
        (h : ∀ types : WellKnownTypes, types.joinsStrings ⟨kind, type, node.origin, false, none⟩ = false) :
        Joinless (Bind.addExpr node kind type >>= fun op => Pure.pure (some (Bound.value op))) :=
      bind (addExpr h) fun _ => pure _
    cases member with
    | method symbol => exact pure _
    | property symbol | field symbol =>
      exact receiver (p := fun frame => (r = .implicit && !symbol.isStatic && !frame.inStatic) = true) fun _ =>
        use fun _ => rfl

theorem name (word : String) : Joinless (Bind.name node word) := by
  have value {m : Bind OperationId} (hm : Joinless m) :
      Joinless (m >>= fun op => Pure.pure (Bound.value op)) := bind hm fun _ => pure _
  refine ask (m := local? word) (fun _ _ => rfl) fun found => ?_
  cases found with
  | some type => exact value (addExpr fun _ => rfl)
  | none =>
    refine read fun frame => ?_
    cases frame.parameters.lookup word with
    | some type => exact value (addExpr fun _ => rfl)
    | none =>
      refine read fun frame => bind (member? _ word .implicit) fun b => ?_
      cases b with
      | some bound => exact pure bound
      | none =>
        refine read fun frame => getCompilation fun c => ?_
        cases frame.scope.resolveName c word with
        | some target => exact pure _
        | none => exact value (addInvalid _)

theorem memberAccess (b : Bound) (word : String) :
    Joinless (Bind.memberAccess node b word) := by
  have hinvalid (parts : List OperationId) : Joinless (Bound.value <$> Bind.addInvalid node parts) :=
    map (addInvalid parts)
  have orInvalid {m : Bind (Option Bound)} {k : Option Bound → Bind Bound} {parts : List OperationId}
      (hm : Joinless m) (hsome : ∀ bound, k (some bound) = Pure.pure bound)
      (hnone : k none = Bound.value <$> Bind.addInvalid node parts) : Joinless (m >>= k) := by
    refine bind hm fun b => ?_
    cases b with
    | some bound => exact hsome bound ▸ pure bound
    | none => exact hnone ▸ hinvalid parts
  cases b with
  | namespaceName space =>
    refine getCompilation fun c => ?_
    cases Scope.resolveMember c (.namespaceName space) word with
    | some target => exact pure _
    | none => exact hinvalid _
  | type id => exact orInvalid (member? id word .typeName) (fun _ => rfl) rfl
  | value op =>
    refine typeOf fun type => ?_
    cases type with
    | none => exact hinvalid _
    | some id => exact orInvalid (member? id word (.value op)) (fun _ => rfl) rfl
  | methodGroup => exact hinvalid _

theorem convertArguments (args : List Operand) (parameters : List ParameterSymbol) :
    Joinless (Bind.convertArguments args parameters) := by
  induction args generalizing parameters with
  | nil => cases parameters <;> exact pure _
  | cons x args ih =>
    cases parameters with
    | nil => exact pure _
    | cons p parameters => exact bind (convert _ _) fun _ => bind (ih parameters) fun _ => pure _

theorem callGroup (owner : TypeId) (word : String) (r : Receiver) (args : List Operand) :
    Joinless (Bind.callGroup node owner word r args) := by
  have types : Joinless (args.mapM fun x => do return ((← Bind.typeOf x.1, ← Bind.isNull x.1) : ArgumentType)) := by
    induction args with
    | nil => exact pure _
    | cons x args ih =>
      rw [List.mapM_cons]
      exact bind (typeOf fun _ => isNull fun _ => pure _) fun _ => bind ih fun _ => pure _
  refine bind types fun types => getCompilation fun c => ?_
  cases overload? c owner word types with
  | none => exact addExpr fun _ => rfl
  | some found =>
    obtain ⟨ref, method⟩ := found
    exact receiver (p := fun frame => (r = .implicit && !method.isStatic && !frame.inStatic) = true) fun _ =>
      bind (convertArguments args _) fun _ => addExpr fun _ => rfl

theorem invocation (callee : Bound) (args : List Operand) : Joinless (Bind.invocation node callee args) := by
  cases callee with
  | methodGroup owner word r => exact callGroup owner word r args
  | value | type | namespaceName => exact addInvalid _

end Joinless

end Bind

/-- Dotted names join no strings. -/
theorem Expr.IsDotted.joinless {e : Expr} {words : List String} (h : e.IsDotted words) :
    Bind.Joinless e.plan.bound ∧ Bind.Joinless e.bindValue := by
  suffices hbound : Bind.Joinless e.plan.bound by
    exact ⟨hbound, e.bindValue_eq ▸ .bind hbound fun _ => .asValue _⟩
  induction h with
  | name node word => exact .name word
  | memberAccess node h ident ih => exact .bind ih fun b => .memberAccess b ident.name

end CultureLint
