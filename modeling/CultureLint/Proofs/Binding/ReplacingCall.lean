import CultureLint.Proofs.Binding.Overload
import CultureLint.Proofs.Binding.ReplacedOperand

/-! A call in the place of an operand: a method of the operand is called with a dotted name as its argument. The
operand is bound as before inside the call, and what is around it there joins no strings. -/

namespace CultureLint

namespace Bind

variable {frame : Frame} {s : BindState} {node : Node} {op : OperationId} {T : TypeId} {word : String}

/-- A member of a value is a value again, or some methods of the type. -/
theorem memberAccess_value (frame : Frame) (node : Node) (word : String) (h : s.unit.typeOf op = some T) :
    (∃ r, (memberAccess node (.value op) word frame s).1 = .value r) ∨
      ∃ receiver, (memberAccess node (.value op) word frame s).1 = .methodGroup T word receiver := by
  have htype : typeOf op frame s = (some T, s) := congrArg (·, s) h
  rw [memberAccess, bind_of_asks htype]
  dsimp only
  rw [member?, bind_assoc]
  change (∃ r, ((_ : Bind Bound) frame s).1 = .value r) ∨ _
  cases hm : s.compilation.membersNamed T word with
  | nil =>
    left
    rw [bind_of_asks (show getCompilation frame s = (s.compilation, s) from rfl), hm]
    exact ⟨_, rfl⟩
  | cons found others =>
    obtain ⟨ref, member⟩ := found
    rw [bind_of_asks (show getCompilation frame s = (s.compilation, s) from rfl), hm]
    cases member with
    | method symbol => exact .inr ⟨_, rfl⟩
    | property symbol | field symbol => exact .inl ⟨_, rfl⟩

/-- A call is spelled out. It gives what the method returns that it means, or nothing that is known. -/
theorem exists_get?_invocation (node : Node) (callee : Bound) (args : List Operand) (frame : Frame) (s : BindState) :
    ∃ made, (invocation node callee args frame s).2.unit.get? (invocation node callee args frame s).1 = some made ∧
      made.isImplicit = false ∧ (made.type = none ∨ ∃ owner word receiver ref method,
        callee = .methodGroup owner word receiver ∧
        overload? s.compilation owner word (argumentTypes s.unit args) = some (ref, method) ∧
        made.type = method.returns) := by
  cases callee with
  | value | type | namespaceName => exact ⟨_, s.unit.get?_add_nextId _, rfl, .inl rfl⟩
  | methodGroup owner word receiver =>
    obtain ⟨_, _, -, -, hget⟩ := calls_callGroup (s := s) frame node owner word receiver args
    refine ⟨_, hget, rfl, ?_⟩
    cases ho : overload? s.compilation owner word (argumentTypes s.unit args) with
    | none => exact .inl rfl
    | some found => exact .inr ⟨owner, word, receiver, found.1, found.2, rfl, ho, rfl⟩

end Bind

namespace Expr

open CultureLint.Bind (Joinless)

theorem values_singleton (e : Expr) : values [e] = (fun op => [(op, e.node)]) <$> e.bindValue := by
  simp [values, bindValue]

/-- A call of a method of something, from there on. -/
def bindCall (node access : Node) (word : String) (argument : Expr) (receiver : Bound) : Bind OperationId := do
  let callee ← Bind.memberAccess access receiver word
  let args ← values [argument]
  Bind.invocation node callee args

variable {node access : Node} {word : String} {argument : Expr} {words : List String}

/-- A call is bound as its receiver and what comes behind it. -/
theorem bindValue_call (node access : Node) (receiver : Expr) (ident : Ident) (argument : Expr) :
    (invocation node (.memberAccess access receiver ident) [argument]).bindValue =
      receiver.plan.bound >>= bindCall node access ident.name argument := by
  rw [bindValue_eq]
  simp only [plan, Plan.bound, bind_assoc, pure_bind]
  refine bind_congr fun b => bind_congr fun callee => bind_congr fun args => ?_
  exact bind_pure _

theorem joinless_values (h : argument.IsDotted words) : Joinless (values [argument]) := by
  rw [values_singleton]
  exact .map h.joinless.2

theorem joinless_bindCall (h : argument.IsDotted words) (receiver : Bound) :
    Joinless (bindCall node access word argument receiver) :=
  .bind (.memberAccess _ _) fun _ => .bind (joinless_values h) fun _ => .invocation _ _

/-- A call is spelled out. -/
theorem isWritten_bindCall (b : Bound) (frame : Frame) (s : BindState) :
    (bindCall node access word argument b frame s).2.unit.IsWritten
      (bindCall node access word argument b frame s).1 := by
  let A := Bind.memberAccess access b word frame s
  let V := values [argument] frame A.2
  obtain ⟨made, hget, hwritten, -⟩ := Bind.exists_get?_invocation node A.1 V.1 frame V.2
  exact ⟨made, hget, hwritten⟩

/-- What the call of a method gives: what a method of the type returns that takes one argument, or nothing that is
known. -/
theorem typeOf_bindCall (node access : Node) (word : String) (h : argument.IsDotted words) (frame : Frame)
    {s : BindState} {op : OperationId} {T : TypeId} (htype : s.unit.typeOf op = some T) {type : Option TypeId}
    (hmade : (bindCall node access word argument (.value op) frame s).2.unit.typeOf
      (bindCall node access word argument (.value op) frame s).1 = type) :
    type = none ∨ ∃ arg ref method, Bind.overload? s.compilation T word [arg] = some (ref, method) ∧
      type = method.returns := by
  let A := Bind.memberAccess access (.value op) word frame s
  let V := values [argument] frame A.2
  obtain ⟨made, hget, -, htypes⟩ := Bind.exists_get?_invocation node A.1 V.1 frame V.2
  obtain rfl : made.type = type := (congrArg (Option.bind · Operation.type) hget).symm.trans hmade
  refine htypes.imp_right ?_
  rintro ⟨owner, name, receiver, ref, method, hcallee, hoverload, hreturns⟩
  have hjoinless : Joinless (Bind.memberAccess access (.value op) word) := .memberAccess _ _
  obtain ⟨unit, hA, -⟩ := hjoinless frame s
  obtain ⟨unit', hV, -⟩ := joinless_values h frame A.2
  have hcompilation : V.2.compilation = s.compilation := by
    rw [show V.2 = _ from hV, show A.2 = _ from hA]
  have hone : V.1 = [((argument.bindValue frame A.2).1, argument.node)] := by
    rw [show V = values [argument] frame A.2 from rfl, values_singleton]
    rfl
  rw [hcompilation, hone] at hoverload
  obtain ⟨r, hvalue⟩ | ⟨r, hgroup⟩ := Bind.memberAccess_value frame access word htype
  · cases hvalue.symm.trans hcallee
  · cases hgroup.symm.trans hcallee
    exact ⟨_, ref, method, hoverload, hreturns⟩

end Expr

namespace Comparison

open Tracks

variable {C : Comparison} {e copy receiver argument : Expr} {node access : Node} {ident : Ident} {words : List String}

/-- A call in the place of the operand, if what it gives cannot be formatted. -/
theorem Finding.replaced_call (h : C.Finding) (hnode : e.node = C.hole) (he : C.TracksExpr e copy)
    (hreceiver : receiver.plan.bound = copy.plan.bound) (hargument : argument.IsDotted words)
    (hplain : ∀ c, c.Coherent → C.base.Grows c → ∀ T, C.sought.formats T = true → ∀ arg ref method,
      Bind.overload? c T ident.name [arg] = some (ref, method) → method.returns.any C.sought.formats = false) :
    C.Replaced e (.invocation node (.memberAccess access receiver ident) [argument]) := by
  refine ⟨hnode, fun u u' => ?_⟩
  have hnonempty : e.node.span.start < e.node.span.stop := hnode ▸ h.nonempty
  have hjoinless (b : Bound) : Bind.Joinless (Expr.bindCall node access ident.name argument b) :=
    Expr.joinless_bindCall hargument b
  have hadds (b : Bound) : Bind.Adds (Expr.bindCall node access ident.name argument b) := by
    unfold Expr.bindCall
    infer_instance
  have invalid {v v' : BoundUnit} (parts : List OperationId) (b' : Bound) :
      C.Tracks (Bind.addInvalid e.node parts) (Expr.bindCall node access ident.name argument b') v v'
        fun r r' w w' => C.Fills w w' r r' := by
    rintro f f' s s' hf rfl rfl ha hl hl'
    refine ⟨(of_joinless (.addInvalid parts) (hjoinless b') f f' s s' hf rfl rfl ha hl hl').1,
      ⟨_, s.unit.get?_add_nextId _, rfl, hnonempty⟩, Expr.isWritten_bindCall b' f' s', fun hconv => ?_⟩
    -- what has no meaning has no type
    obtain ⟨T, htype, -⟩ := h.exists_type _ hconv
    obtain ⟨parent, hlast⟩ := hl _ _ (s.unit.get?_add_nextId _)
    cases htype.symm.trans (congrArg (Option.bind · Operation.type) hlast)
  rw [Expr.bindValue_call, hreceiver, Expr.bindValue_eq]
  refine (he.bound u u').bind fun b b' v v' _ _ hb => ?_
  cases hb with
  | @value r r' hr =>
    rintro f f' s s' hf rfl rfl ha hl hl'
    replace hl : s.unit.Extends C.last := hl
    refine ⟨(of_joinless (.pure r) (hjoinless (.value r')) f f' s s' hf rfl rfl ha hl hl').1, hr.solid,
      Expr.isWritten_bindCall _ f' s', fun hconv => ?_⟩
    obtain ⟨T, htype, -, hformats⟩ := h.exists_type r hconv
    have htype' : s'.unit.typeOf r' = some T := by rw [hr.type, ← hl.typeOf_eq hr.solid.mem_ids, htype]
    obtain hnone | ⟨arg, ref, method, hoverload, hreturns⟩ :=
      Expr.typeOf_bindCall node access ident.name hargument f' htype' rfl
    · rw [hnone]
      rfl
    · rw [ha.compilation] at hoverload
      rw [hreturns]
      exact hplain _ ha.coherent ha.grows T hformats arg ref method hoverload
  | type | namespaceName | methodGroup => exact invalid _ _

end Comparison

end CultureLint
