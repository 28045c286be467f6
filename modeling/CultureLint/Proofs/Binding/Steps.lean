import CultureLint.Proofs.Binding.Invariant

/-! What the steps of binding do to the state of a body. A statement about a step names the operations
that are free before it and those that are free behind it. -/

namespace CultureLint

/-- One state of binding comes after another: nothing that was made is lost. -/
structure Later (s t : BindState) : Prop where
  grows : s.compilation.Grows t.compilation
  ext : s.unit.Extends t.unit

namespace Later

variable {s t u : BindState}

theorem refl (s : BindState) : Later s s := ⟨.refl _, .refl _⟩

theorem trans (h : Later s t) (h' : Later t u) : Later s u :=
  ⟨h.grows.trans h'.grows, h.ext.trans h'.ext⟩

theorem knows (h : Later s t) {type : Option TypeId} (ht : s.compilation.Knows type) :
    t.compilation.Knows type := h.grows.within.knows ht

end Later

namespace BodyInv

variable {operand : Expr → Prop} {frame : Frame} {s : BindState} {free rest : List OperationId}

theorem permute (h : BodyInv operand frame s free) (hp : free.Perm rest) :
    BodyInv operand frame s rest :=
  ⟨h.toUnitInv.permute hp, h.locals, h.containing, h.returns, h.parameters⟩

theorem add {op : Operation} (h : BodyInv operand frame s (op.kind.children ++ rest))
    (hparent : op.parent = none) (hop : Legal operand s.compilation s.unit op) :
    BodyInv operand frame { s with unit := s.unit.add op } (s.unit.nextId :: rest) :=
  ⟨h.toUnitInv.add hparent hop, h.locals, h.containing, h.returns, h.parameters⟩

theorem grow {d : Compilation} (h : BodyInv operand frame s free) (hd : d.Coherent)
    (grows : s.compilation.Grows d) : BodyInv operand frame { s with compilation := d } free where
  toUnitInv := h.toUnitInv.grow hd grows
  locals v hv := grows.within.knows (h.locals v hv)
  containing := grows.within.has h.containing
  returns := grows.within.knows h.returns
  parameters v hv := grows.within.knows (h.parameters v hv)

theorem withLocals (h : BodyInv operand frame s free) {blocks : List Variables}
    (hl : ∀ v ∈ blocks.flatten, s.compilation.Knows v.2) :
    BodyInv operand frame { s with locals := blocks } free :=
  ⟨h.toUnitInv, hl, h.containing, h.returns, h.parameters⟩

theorem joined_later {t : BindState} {r : OperationId} (h : BodyInv operand frame s free)
    (hr : Joined operand s.compilation s.unit r) (ht : BodyInv operand frame t rest)
    (hl : Later s t) : Joined operand t.compilation t.unit r :=
  hr.mono h.knows_typeOf h.coherent ht.coherent hl.grows hl.ext

end BodyInv

namespace Bind

/-- A step came from one state to another, in which some operations are free and the result is as it
should be. -/
structure Ends {α : Type} (operand : Expr → Prop) (frame : Frame) (s : BindState) (r : α × BindState)
    (free : α → List OperationId) (Q : α → BindState → Prop) : Prop where
  later : Later s r.2
  inv : BodyInv operand frame r.2 (free r.1)
  post : Q r.1 r.2

namespace Ends

variable {α β : Type} {operand : Expr → Prop} {frame : Frame} {s : BindState}
  {free : α → List OperationId} {F : β → List OperationId} {Q Q' : α → BindState → Prop}
  {R : β → BindState → Prop} {m : Bind α} {f : α → Bind β}

theorem pure {a : α} (h : BodyInv operand frame s (free a)) (hq : Q a s) :
    Ends operand frame s ((Pure.pure a : Bind α) frame s) free Q := ⟨.refl s, h, hq⟩

theorem bind (h : Ends operand frame s (m frame s) free Q)
    (hf : ∀ a t, Later s t → BodyInv operand frame t (free a) → Q a t →
      Ends operand frame t (f a frame t) F R) :
    Ends operand frame s ((m >>= f) frame s) F R :=
  have hf := hf _ _ h.later h.inv h.post
  ⟨h.later.trans hf.later, hf.inv, hf.post⟩

theorem map {g : α → β} (h : Ends operand frame s (m frame s) (fun a => F (g a))
    fun a t => R (g a) t) : Ends operand frame s ((g <$> m) frame s) F R :=
  ⟨h.later, h.inv, h.post⟩

/-- A step that only asks leaves the state as it is. -/
theorem ask {a : α} (ha : m frame s = (a, s)) (hf : Ends operand frame s (f a frame s) F R) :
    Ends operand frame s ((m >>= f) frame s) F R := by
  have : (m >>= f) frame s = f (m frame s).1 frame (m frame s).2 := rfl
  rw [this, ha]
  exact hf

theorem mono {r : α × BindState} (h : Ends operand frame s r free Q)
    (hq : ∀ a t, Later s t → BodyInv operand frame t (free a) → Q a t → Q' a t) :
    Ends operand frame s r free Q' :=
  ⟨h.later, h.inv, hq _ _ h.later h.inv h.post⟩

theorem ite {p : Prop} [Decidable p] {x y : Bind α}
    (hx : p → Ends operand frame s (x frame s) free Q)
    (hy : ¬p → Ends operand frame s (y frame s) free Q) :
    Ends operand frame s ((if p then x else y : Bind α) frame s) free Q := by
  split
  · exact hx ‹_›
  · exact hy ‹_›

end Ends

variable {α : Type} {operand : Expr → Prop} {frame : Frame} {s : BindState}
  {free rest : List OperationId}

/-! ### Questions -/

/-- A step that only asks leaves the state to the next one. -/
theorem bind_of_asks {α β : Type} {m : Bind α} {a : α} (h : m frame s = (a, s)) (f : α → Bind β) :
    (m >>= f) frame s = f a frame s := by
  change f (m frame s).1 frame (m frame s).2 = _
  rw [h]

theorem getUnit_bind {α : Type} (f : BoundUnit → Bind α) : (getUnit >>= f) frame s = f s.unit frame s := rfl

theorem isNull_apply (op : OperationId) : isNull op frame s = (s.unit.isNull op, s) := by
  unfold isNull BoundUnit.isNull
  rw [getUnit_bind]
  generalize s.unit.get? op = found
  obtain _ | ⟨kind, _⟩ := found
  · rfl
  · cases kind with
    | literal kind => cases kind <;> rfl
    | _ => rfl

theorem isString_apply (type : Option TypeId) :
    isString type frame s = (s.compilation.isStringType type, s) := rfl

/-! ### Operations -/

theorem ends_add {op : Operation} (h : BodyInv operand frame s (op.kind.children ++ rest))
    (hparent : op.parent = none) (hop : Legal operand s.compilation s.unit op) :
    Ends operand frame s (add op frame s) (fun r => r :: rest)
      fun r t => t.unit.get? r = some op :=
  ⟨⟨.refl _, s.unit.extends_add op⟩, h.add hparent hop, s.unit.get?_add_nextId op⟩

theorem ends_addExpr {kind : OperationKind} {type : Option TypeId} (node : Node)
    (h : BodyInv operand frame s (kind.children ++ rest)) (hk : kind.isPlain = true)
    (ht : s.compilation.Knows type) :
    Ends operand frame s (addExpr node kind type frame s) (fun r => r :: rest)
      fun r t => t.unit.IsWritten r :=
  (ends_add h rfl (.of_isPlain hk ht)).mono fun _ _ _ _ hr => ⟨_, hr, rfl⟩

/-- The use of a member of a known type. -/
theorem ends_addMember {kind : OperationKind} {type : Option TypeId} {m : MemberRef} (node : Node)
    (h : BodyInv operand frame s (kind.children ++ rest)) (hk : kind.member? = some m)
    (hm : s.compilation.Has m.type) (ht : s.compilation.Knows type) :
    Ends operand frame s (addExpr node kind type frame s) (fun r => r :: rest)
      fun r t => t.unit.IsWritten r :=
  (ends_add h rfl (.of_member? hk ht hm)).mono fun _ _ _ _ hr => ⟨_, hr, rfl⟩

/-- A literal; `null` has no type. -/
theorem ends_addLiteral {type : Option TypeId} (node : Node) (kind : LiteralKind)
    (h : BodyInv operand frame s rest) (ht : s.compilation.Knows type)
    (hnull : kind = .null → type = none) :
    Ends operand frame s (addExpr node (.literal kind) type frame s) (fun r => r :: rest)
      fun r t => t.unit.IsWritten r := by
  have legal : Legal operand s.compilation s.unit ⟨.literal kind, type, node.origin, false, none⟩ :=
    ⟨ht, nofun, fun hk => hnull (OperationKind.literal.inj hk), nofun, nofun, nofun⟩
  exact (ends_add h rfl legal).mono fun _ _ _ _ hr => ⟨_, hr, rfl⟩

theorem ends_addStmt {kind : OperationKind} (span : Span)
    (h : BodyInv operand frame s (kind.children ++ rest)) (hk : kind.isPlain = true) :
    Ends operand frame s (addStmt span kind frame s) (fun r => r :: rest) fun _ _ => True :=
  (ends_add h rfl (.of_isPlain hk (Compilation.knows_none _))).mono fun _ _ _ _ _ => trivial

theorem ends_addInvalid {parts : List OperationId} (node : Node)
    (h : BodyInv operand frame s (parts ++ rest)) :
    Ends operand frame s (addInvalid node parts frame s) (fun r => r :: rest)
      fun r t => t.unit.IsWritten r :=
  ends_addExpr node h rfl (Compilation.knows_none _)

theorem ends_addImplicitThis (node : Node) (h : BodyInv operand frame s rest) :
    Ends operand frame s (addImplicitThis node frame s) (fun r => r :: rest) fun _ _ => True :=
  .ask (a := frame) rfl
    ((ends_add h rfl (.of_isPlain rfl (Compilation.knows_some.2 h.containing))).mono
      fun _ _ _ _ _ => trivial)

/-! ### Conversions -/

/-- The conversion that an operand needs to become a value of a type. -/
def conversionTo (s : BindState) (op : OperationId) (target : TypeId) : Conversion :=
  s.compilation.convertImplicit (s.unit.typeOf op) (s.unit.isNull op) target

/-- The operation that converts an operand. -/
def convertedTo (s : BindState) (op : OperationId) (node : Node) (target : TypeId) : Operation :=
  ⟨.conversion op (conversionTo s op target), some target, node.origin, true, none⟩

theorem convert_some (op : OperationId) (node : Node) (target : TypeId) :
    convert op node (some target) frame s =
      if (conversionTo s op target).isIdentity then (op, s)
      else (s.unit.nextId, { s with unit := s.unit.add (convertedTo s op node target) }) := by
  let next (isNull : Bool) : Bind OperationId :=
    let conversion := s.compilation.convertImplicit (s.unit.typeOf op) isNull target
    if conversion.isIdentity then Pure.pure op
    else add ⟨.conversion op conversion, some target, node.origin, true, none⟩
  change next (isNull op frame s).1 frame (isNull op frame s).2 = _
  rw [isNull_apply]
  change (if (conversionTo s op target).isIdentity then Pure.pure op
    else add (convertedTo s op node target) : Bind OperationId) frame s = _
  split <;> rfl

/-- What a conversion leads to: the operand itself if it has the type already, or is to have none, and
else an operation that nobody wrote. -/
inductive Converts (s : BindState) (op : OperationId) (node : Node) (target : Option TypeId)
    (r : OperationId) (t : BindState) : Prop
  | asIs (hr : r = op) (hid : ∀ T, target = some T → (conversionTo s op T).isIdentity = true)
  | converted (T : TypeId) (htarget : target = some T)
      (hid : (conversionTo s op T).isIdentity = false)
      (hr : t.unit.get? r = some (convertedTo s op node T))

theorem ends_convert {op : OperationId} {target : Option TypeId} (node : Node)
    (h : BodyInv operand frame s (op :: rest)) (ht : s.compilation.Knows target) :
    Ends operand frame s (convert op node target frame s) (fun r => r :: rest)
      fun r t => t.compilation = s.compilation ∧ Converts s op node target r t := by
  cases target with
  | none => exact .pure h ⟨rfl, .asIs rfl nofun⟩
  | some T =>
    rw [convert_some]
    split
    case isTrue hid =>
      refine ⟨.refl s, h, rfl, .asIs rfl fun T' hT => ?_⟩
      cases hT
      exact hid
    case isFalse hid =>
      have hadd : Ends operand frame s (add (convertedTo s op node T) frame s) (fun r => r :: rest)
          fun r t => t.unit.get? r = some (convertedTo s op node T) :=
        ends_add h rfl (.of_isPlain rfl ht)
      exact ⟨hadd.later, hadd.inv, rfl, .converted T rfl (Bool.eq_false_iff.2 hid) hadd.post⟩

theorem ends_convertSpecial {op : OperationId} (node : Node) (target : SpecialType)
    (h : BodyInv operand frame s (op :: rest)) :
    Ends operand frame s (convertSpecial op node target frame s) (fun r => r :: rest)
      fun r t => t.compilation = s.compilation ∧
        Converts s op node (s.compilation.special? target) r t :=
  .ask (a := s.compilation.special? target) rfl
    (ends_convert node h (h.coherent.knows_special? target))

/-! ### Types -/

/-- A written type. Types may be created, and no operation is. -/
theorem ends_resolveType {free : List OperationId} (h : BodyInv operand frame s free)
    (type : TypeExpr) : Ends operand frame s (resolveType type frame s) (fun _ => free)
      fun r t => t.compilation.Knows r := by
  obtain ⟨hg, hc, hk⟩ := Scope.makes_resolveType frame.scope h.coherent type
  exact ⟨⟨hg, .refl _⟩, h.grow hc hg, hk⟩

/-! ### Locals -/

theorem ends_declareLocal {free : List OperationId} (h : BodyInv operand frame s free) (name : String)
    {type : Option TypeId} (ht : s.compilation.Knows type) :
    Ends operand frame s (declareLocal name type frame s) (fun _ => free) fun _ _ => True := by
  refine ⟨⟨.refl _, .refl _⟩, h.withLocals fun v hv => ?_, trivial⟩
  have hlocals := h.locals
  cases hs : s.locals with
  | nil =>
    simp only [hs, List.flatten_cons, List.flatten_nil, List.append_nil, List.mem_singleton] at hv
    exact hv ▸ ht
  | cons block blocks =>
    simp only [hs, List.flatten_cons, List.cons_append, List.mem_cons] at hv hlocals
    obtain rfl | hv := hv
    · exact ht
    · exact hlocals v hv

theorem ends_inBlock {m : Bind α} {free : List OperationId} {F : α → List OperationId}
    {Q : α → Prop} (h : BodyInv operand frame s free)
    (hm : ∀ t, Later s t → BodyInv operand frame t free →
      Ends operand frame t (m frame t) F fun a _ => Q a) :
    Ends operand frame s (inBlock m frame s) F fun a _ => Q a := by
  have hm := hm { s with locals := [] :: s.locals } ⟨.refl _, .refl _⟩ (h.withLocals h.locals)
  refine ⟨⟨hm.later.grows, hm.later.ext⟩, hm.inv.withLocals fun v hv => hm.inv.locals v ?_, hm.post⟩
  obtain ⟨block, hb, hv⟩ := List.mem_flatten.1 hv
  exact List.mem_flatten.2 ⟨block, List.mem_of_mem_tail hb, hv⟩

end Bind

end CultureLint
