import CultureLint.Binding.Member
import CultureLint.Proofs.Binding.Steps

/-! Names, members and calls: what becomes of the operations that a receiver and arguments are. -/

namespace CultureLint.Bind

variable {α : Type} {operand : Expr → Prop} {frame : Frame} {s : BindState} {rest : List OperationId}

/-- A value is spelled out by the code. -/
def Spelt (bound : Bound) (t : BindState) : Prop := ∀ op, bound = .value op → t.unit.IsWritten op

theorem ends_asValue {bound : Bound} (node : Node)
    (h : BodyInv operand frame s (bound.value?.toList ++ rest)) (hw : Spelt bound s) :
    Ends operand frame s (asValue node bound frame s) (fun r => r :: rest)
      fun r t => t.unit.IsWritten r := by
  cases bound with
  | value op => exact .pure h (hw op rfl)
  | type | namespaceName | methodGroup => exact ends_addInvalid node h

/-! ### Members -/

theorem spelt_of_isWritten {op : OperationId} {t : BindState} (h : t.unit.IsWritten op) :
    Spelt (.value op) t := fun _ hop => Bound.value.inj hop ▸ h

theorem spelt_ofTarget (target : NameTarget) (t : BindState) : Spelt (.ofTarget target) t := by
  cases target <;> nofun

/-- An operation that is added and is the value. -/
theorem ends_value {m : Bind OperationId}
    (h : Ends operand frame s (m frame s) (fun r => r :: rest) fun r t => t.unit.IsWritten r) :
    Ends operand frame s ((do return .value (← m) : Bind Bound) frame s)
      (fun b => b.value?.toList ++ rest) Spelt :=
  .bind h fun _ _ _ ht hr => .pure ht (spelt_of_isWritten hr)

/-- A member is used through its receiver, or through a `this` that is left out. -/
theorem ends_receiver {f : Option OperationId → Bind α} {free : α → List OperationId}
    {Q : α → BindState → Prop} {p : Prop} [Decidable p] {receiver : Receiver} (node : Node)
    (hp : p → receiver = .implicit) (h : BodyInv operand frame s (receiver.value?.toList ++ rest))
    (hf : ∀ op t, Later s t → BodyInv operand frame t (op.toList ++ rest) →
      Ends operand frame t (f op frame t) free Q) :
    Ends operand frame s ((if p then (some <$> addImplicitThis node) >>= f
      else Pure.pure receiver.value? >>= f : Bind α) frame s) free Q := by
  refine .ite (fun hi => ?_) fun _ => hf _ s (.refl s) h
  rw [hp hi] at h
  refine .bind (.map (F := fun op => op.toList ++ rest) (R := fun _ _ => True)
    (ends_addImplicitThis node h)) fun op t hl ht _ => hf op t hl ht

theorem ends_member? (node : Node) (owner : TypeId) (name : String) (receiver : Receiver)
    (h : BodyInv operand frame s (receiver.value?.toList ++ rest)) :
    Ends operand frame s (member? node owner name receiver frame s)
      (fun b => (b.elim receiver.value? Bound.value?).toList ++ rest)
      fun b t => ∀ bound, b = some bound → Spelt bound t := by
  refine .ask (a := s.compilation) rfl ?_
  cases hm : s.compilation.membersNamed owner name with
  | nil => exact .pure h nofun
  | cons found others =>
    obtain ⟨ref, member⟩ := found
    have hmem : (ref, member) ∈ s.compilation.membersNamed owner name := hm ▸ List.mem_cons_self ..
    have known := h.coherent.knows_of_mem_membersNamed hmem
    dsimp only
    cases hv : member.value? with
    | none =>
      refine .pure h fun bound hb => ?_
      cases hb
      exact nofun
    | some value =>
      have hvalue : s.compilation.Knows value.type := by
        cases member <;> simp_all [Member.types, Member.value?]
      refine .ask (a := frame) rfl (ends_receiver node (fun hp => ?_) h fun op t hl ht => ?_)
      · simp_all
      · have href : t.compilation.Has ref.type := hl.grows.within.has (Compilation.has_of_mem_membersNamed hmem)
        have kind (k : OperationKind) (hk : k.children = op.toList) (hmember : k.member? = some ref) :
            Ends operand frame t ((do return some (.value (← addExpr node k value.type)) :
              Bind (Option Bound)) frame t)
              (fun b => (b.elim receiver.value? Bound.value?).toList ++ rest)
              fun b t => ∀ bound, b = some bound → Spelt bound t := by
          refine .bind (ends_addMember node (hk ▸ ht) hmember href (hl.knows hvalue)) fun r u _ hu hr =>
            .pure hu fun bound hb => ?_
          cases hb
          exact spelt_of_isWritten hr
        cases member with
        | method => cases hv
        | property => exact kind _ rfl rfl
        | field => exact kind _ rfl rfl

theorem mem_of_lookup {block : Variables} {name : String} {type : Option TypeId}
    (h : block.lookup name = some type) : (name, type) ∈ block := by
  obtain ⟨before, after, rfl, _⟩ := List.lookup_eq_some_iff.1 h
  simp

theorem ends_name (node : Node) (name : String) (h : BodyInv operand frame s rest) :
    Ends operand frame s (Bind.name node name frame s) (fun b => b.value?.toList ++ rest) Spelt := by
  refine .ask (a := s.locals.flatten.lookup name) rfl ?_
  cases hlocal : s.locals.flatten.lookup name with
  | some type =>
    exact ends_value (ends_addExpr node h rfl (h.locals _ (mem_of_lookup hlocal)))
  | none =>
    refine .ask (a := frame) rfl ?_
    cases hparameter : frame.parameters.lookup name with
    | some type =>
      exact ends_value (ends_addExpr node h rfl (h.parameters _ (mem_of_lookup hparameter)))
    | none =>
      refine .ask (a := frame) rfl (.bind (ends_member? node _ name .implicit h) fun b t _ ht hb => ?_)
      cases b with
      | some bound => exact .pure ht (hb bound rfl)
      | none =>
        refine .ask (a := frame) rfl (.ask (a := t.compilation) rfl ?_)
        cases frame.scope.resolveName t.compilation name with
        | some target =>
          refine .pure ?_ (spelt_ofTarget target t)
          cases target <;> exact ht
        | none => exact ends_value (ends_addInvalid node ht)

theorem ends_memberAccess {bound : Bound} (node : Node) (name : String)
    (h : BodyInv operand frame s (bound.value?.toList ++ rest)) :
    Ends operand frame s (memberAccess node bound name frame s) (fun b => b.value?.toList ++ rest)
      Spelt := by
  cases bound with
  | namespaceName space =>
    refine .ask (a := s.compilation) rfl ?_
    cases hr : Scope.resolveMember s.compilation (.namespaceName space) name with
    | some target =>
      refine .pure ?_ (spelt_ofTarget target s)
      cases target <;> exact h
    | none => exact ends_value (ends_addInvalid node h)
  | type id =>
    refine .bind (ends_member? node id name .typeName h) fun b t _ ht hb => ?_
    cases b with
    | some bound => exact .pure ht (hb bound rfl)
    | none => exact ends_value (ends_addInvalid node ht)
  | value op =>
    refine .ask (a := s.unit.typeOf op) rfl ?_
    cases s.unit.typeOf op with
    | none => exact ends_value (ends_addInvalid node h)
    | some id =>
      refine .bind (ends_member? node id name (.value op) h) fun b t _ ht hb => ?_
      cases b with
      | some bound => exact .pure ht (hb bound rfl)
      | none => exact ends_value (ends_addInvalid node ht)
  | methodGroup owner name receiver => exact ends_value (ends_addInvalid node h)

/-! ### Calls -/

theorem mapM_apply {β : Type} {f : α → Bind β} {g : α → β} {xs : List α}
    (hf : ∀ x ∈ xs, f x frame s = (g x, s)) : xs.mapM f frame s = (xs.map g, s) := by
  induction xs with
  | nil => rfl
  | cons x xs ih =>
    obtain ⟨hx, hxs⟩ := List.forall_mem_cons.1 hf
    rw [List.mapM_cons]
    change ((xs.mapM f) frame (f x frame s).2).map (fun ys => (f x frame s).1 :: ys) id = _
    rw [hx, ih hxs]
    rfl

theorem argumentConversions?_length {c : Compilation} {ps : List ParameterSymbol}
    {args : List ArgumentType} {conversions : List Conversion}
    (h : argumentConversions? c ps args = some conversions) : args.length = ps.length := by
  induction ps generalizing args conversions with
  | nil => cases args <;> simp_all [argumentConversions?]
  | cons p ps ih =>
    cases args with
    | nil => simp [argumentConversions?] at h
    | cons arg args =>
      obtain ⟨type, isNull⟩ := arg
      obtain ⟨target, _, h⟩ := Option.bind_eq_some_iff.1 h
      dsimp only at h
      split at h
      · obtain ⟨others, ho, _⟩ := Option.bind_eq_some_iff.1 h
        rw [List.length_cons, List.length_cons, ih ho]
      · cases h

theorem mem_of_bestMethod? {methods : List (Nat × MemberRef × MethodSymbol)}
    {found : MemberRef × MethodSymbol} (h : bestMethod? methods = some found) :
    ∃ n, (n, found) ∈ methods := by
  obtain ⟨best, hb, rfl⟩ := Option.map_eq_some_iff.1 h
  have keep (ms : List (Nat × MemberRef × MethodSymbol)) (start : Option (Nat × MemberRef × MethodSymbol))
      (hs : ∀ b, start = some b → b ∈ methods) (hms : ∀ m ∈ ms, m ∈ methods) :
      ∀ b, ms.foldl (fun best next =>
        if best.all fun (found : Nat × MemberRef × MethodSymbol) => found.1 < next.1 then some next
        else best) start = some b → b ∈ methods := by
    induction ms generalizing start with
    | nil => exact hs
    | cons m ms ih =>
      obtain ⟨hm, hms⟩ := List.forall_mem_cons.1 hms
      rw [List.foldl_cons]
      refine ih _ ?_ hms
      split
      · exact fun b hb => Option.some.inj hb ▸ hm
      · exact hs
  exact ⟨best.1, keep methods none nofun (fun _ => id) best hb⟩

/-- The method that a call means is one of the name, and has a parameter for every argument. -/
theorem of_overload?_eq_some {c : Compilation} {owner : TypeId} {name : String}
    {args : List ArgumentType} {ref : MemberRef} {method : MethodSymbol}
    (h : overload? c owner name args = some (ref, method)) :
    (ref, Member.method method) ∈ c.membersNamed owner name ∧
      args.length = method.parameters.length := by
  obtain ⟨n, hn⟩ := mem_of_bestMethod? h
  obtain ⟨⟨ref', member⟩, hm, hf⟩ := List.mem_filterMap.1 hn
  obtain ⟨method', hmethod, hf⟩ := Option.bind_eq_some_iff.1 hf
  obtain ⟨conversions, hc, hf⟩ := Option.bind_eq_some_iff.1 hf
  cases hf
  cases member with
  | method method' =>
    cases hmethod
    exact ⟨hm, argumentConversions?_length hc⟩
  | property | field => cases hmethod

theorem ends_convertArguments {args : List (OperationId × Node)} {ps : List ParameterSymbol}
    (hlen : args.length = ps.length) (hps : ∀ p ∈ ps, s.compilation.Knows p.type)
    (h : BodyInv operand frame s (args.map (·.1) ++ rest)) :
    Ends operand frame s (convertArguments args ps frame s) (fun rs => rs ++ rest)
      fun _ _ => True := by
  induction args generalizing s ps rest with
  | nil => exact .pure h trivial
  | cons arg args ih =>
    obtain ⟨op, node⟩ := arg
    cases ps with
    | nil => cases hlen
    | cons p ps =>
      obtain ⟨hp, hps⟩ := List.forall_mem_cons.1 hps
      refine .bind (ends_convert node h hp) fun r t hl ht _ => ?_
      have hps' : ∀ p ∈ ps, t.compilation.Knows p.type := fun p hp => hl.knows (hps p hp)
      refine .bind (ih (Nat.succ.inj hlen) hps' (ht.permute List.perm_middle.symm))
        fun rs u _ hu _ => .pure (hu.permute List.perm_middle) trivial

theorem ends_callGroup (node : Node) (owner : TypeId) (name : String) (receiver : Receiver)
    {args : List (OperationId × Node)}
    (h : BodyInv operand frame s (receiver.value?.toList ++ (args.map (·.1) ++ rest))) :
    Ends operand frame s (callGroup node owner name receiver args frame s) (fun r => r :: rest)
      fun r t => t.unit.IsWritten r := by
  let typeOfArgument (arg : OperationId × Node) : ArgumentType :=
    (s.unit.typeOf arg.1, s.unit.isNull arg.1)
  refine .ask (mapM_apply (g := typeOfArgument) fun arg _ => ?_) (.ask (a := s.compilation) rfl ?_)
  · change (((s.unit.typeOf arg.1, (isNull arg.1 frame s).1) : ArgumentType), (isNull arg.1 frame s).2) = _
    rw [isNull_apply]
  cases ho : overload? s.compilation owner name (args.map typeOfArgument) with
  | none =>
    rw [← List.append_assoc] at h
    exact ends_addExpr node h rfl (Compilation.knows_none _)
  | some found =>
    obtain ⟨ref, method⟩ := found
    obtain ⟨hmem, hlen⟩ := of_overload?_eq_some ho
    rw [List.length_map] at hlen
    have href := Compilation.has_of_mem_membersNamed hmem
    have known := h.coherent.knows_of_mem_membersNamed hmem
    have hreturns : s.compilation.Knows method.returns := known _ (by simp [Member.types])
    have behind (xs ys : List OperationId) : (xs ++ (ys ++ rest)).Perm (ys ++ (xs ++ rest)) := by
      rw [← List.append_assoc, ← List.append_assoc]
      exact List.perm_append_comm.append_right rest
    refine .ask (a := frame) rfl (ends_receiver node (fun hp => ?_) h fun op t hl ht => ?_)
    · simp_all
    · have hps : ∀ p ∈ method.parameters, t.compilation.Knows p.type := fun p hp =>
        hl.knows (known _ (by
          simp only [Member.types, List.mem_cons, List.mem_append, List.mem_map]
          exact .inr (.inr (.inl ⟨p, hp, rfl⟩))))
      refine .bind (ends_convertArguments hlen hps (ht.permute (behind ..))) fun rs u hl' hu _ => ?_
      have hu := hu.permute (behind ..)
      rw [← List.append_assoc] at hu
      exact ends_addMember node hu rfl ((hl.trans hl').grows.within.has href) ((hl.trans hl').knows hreturns)

theorem ends_invocation {callee : Bound} (node : Node) {args : List (OperationId × Node)}
    (h : BodyInv operand frame s (callee.value?.toList ++ (args.map (·.1) ++ rest))) :
    Ends operand frame s (invocation node callee args frame s) (fun r => r :: rest)
      fun r t => t.unit.IsWritten r := by
  cases callee with
  | methodGroup owner name receiver => exact ends_callGroup node owner name receiver h
  | value op => exact ends_addInvalid node h
  | type | namespaceName => exact ends_addInvalid node h

theorem ends_elementAccess (node : Node) {receiver : OperationId} {args : List OperationId}
    (h : BodyInv operand frame s (receiver :: (args ++ rest))) :
    Ends operand frame s (elementAccess node receiver args frame s) (fun r => r :: rest)
      fun r t => t.unit.IsWritten r := by
  refine .ask (a := s.compilation) rfl (.ask (a := s.unit.typeOf receiver) rfl
    (ends_addExpr node h rfl fun id hid => ?_))
  obtain ⟨type, _, hid⟩ := Option.bind_eq_some_iff.1 hid
  split at hid
  case h_1 element hk =>
    cases hid
    exact (h.coherent.closed type).element id (.inl hk)
  case h_2 =>
    split at hid
    · exact h.coherent.knows_special? .char id hid
    · cases hid

end CultureLint.Bind
