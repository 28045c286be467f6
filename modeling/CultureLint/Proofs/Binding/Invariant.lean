import CultureLint.Binding.Frame
import CultureLint.Proofs.Binding.Typing
import CultureLint.Proofs.Tree.Parts

/-! What holds of the state in which a body is bound, at every point of it: the types are coherent, the
operations are a forest, what joins strings joins operands that were converted by the rules, and the other
operators calculate in one type. The operations that were made and are not yet a part of anything are listed; every
step says which of them it takes and which it leaves. -/

namespace CultureLint

namespace BoundUnit

variable {unit later : BoundUnit} {id : OperationId}

/-- The code spells the operation out. -/
def IsWritten (unit : BoundUnit) (id : OperationId) : Prop :=
  ∃ op, unit.get? id = some op ∧ op.isImplicit = false

theorem IsWritten.mem_ids (h : unit.IsWritten id) : id ∈ unit.ids := by
  obtain ⟨op, hop, _⟩ := h
  exact mem_ids_of_get? hop

theorem IsWritten.mono (h : unit.IsWritten id) (hx : unit.Extends later) : later.IsWritten id := by
  obtain ⟨op, hop, hw⟩ := h
  obtain ⟨parent, hlater⟩ := hx id op hop
  exact ⟨_, hlater, hw⟩

/-- What is written has no conversion that nobody wrote. -/
theorem IsWritten.suits {T : TypeId} (h : unit.IsWritten id) (hT : unit.typeOf id = some T) :
    unit.Suits T id where
  type := hT
  exists_conversion op x conversion hop himplicit := by
    obtain ⟨op', hop', hw⟩ := h
    obtain rfl := Option.some.inj (hop'.symm.trans hop)
    simp [hw] at himplicit

/-- Whether an operation is the literal `null`. -/
def isNull (unit : BoundUnit) (id : OperationId) : Bool :=
  match unit.get? id with
  | some { kind := .literal .null, .. } => true
  | _ => false

theorem Extends.isNull_eq (h : unit.Extends later) (hid : id ∈ unit.ids) :
    later.isNull id = unit.isNull id := by
  obtain ⟨op, hop⟩ := Option.isSome_iff_exists.1 (get?_isSome.2 hid)
  obtain ⟨parent, hlater⟩ := h id op hop
  rw [isNull, isNull, hop, hlater]
  obtain ⟨kind, _⟩ := op
  cases kind with
  | literal kind => cases kind <;> rfl
  | _ => rfl

end BoundUnit

/-- Whether a type, where there is one, is the string. -/
def Compilation.isStringType (c : Compilation) (type : Option TypeId) : Bool :=
  type.bind (fun id => (c.symbol id).special) = some .string

/-- The member that an operation uses by name. -/
def OperationKind.member? : OperationKind → Option MemberRef
  | .fieldReference m _ | .propertyReference m _ => some m
  | .invocation m _ _ => m
  | _ => none

/-! ### Operands of string concatenations -/

section Joining

variable (operand : Expr → Prop) (c d : Compilation) (unit later : BoundUnit)

/-- How an operand that is no string comes to be converted: `null` and what has no meaning have no
type and are made a string or an object, and everything else is made an object, unless it is one. -/
inductive ConvertedBy (x : OperationId) (conversion : Conversion) (type : Option TypeId) : Prop
  | untyped (htype : unit.typeOf x = none) (htext : c.IsText type)
  | toObject (source object : TypeId) (hsource : unit.typeOf x = some source)
      (hobject : c.special? .object = some object) (htype : type = some object)
      (hne : source ≠ object) (hstring : (c.symbol source).special ≠ some .string)
      (hconversion : conversion.isConversion = (c.convertType source object).isConversion)

/-- What joins strings takes a string or an object as it is, and everything else by a conversion that
nobody wrote. -/
inductive Joined (id : OperationId) : Prop
  | asIs (hwritten : unit.IsWritten id)
      (htype : ∀ string object, c.special? .string = some string → c.special? .object = some object →
        unit.typeOf id = some string ∨ unit.typeOf id = some object)
  | converted (e : Expr) (x : OperationId) (conversion : Conversion) (op : Operation) (he : operand e)
      (hop : unit.get? id = some op) (hkind : op.kind = .conversion x conversion)
      (himplicit : op.isImplicit = true) (horigin : op.origin = e.node.origin)
      (hwritten : unit.IsWritten x) (hby : ConvertedBy c unit x conversion op.type)

/-- What holds of every operation of a document. -/
structure Legal (op : Operation) : Prop where
  known : c.Knows op.type
  member : ∀ m, op.kind.member? = some m → c.Has m.type
  null : op.kind = .literal .null → op.type = none
  sum : ∀ l r, op.kind = .binary .add l r → ∀ string, c.special? .string = some string →
    op.type = some string → Joined operand c unit l ∧ Joined operand c unit r
  calculated : ∀ sign l r, op.kind = .binary sign l r → sign.calculates = true → ∀ T, op.type = some T →
    sign = .add ∧ c.isSpecial T .string = true ∨ Calculated c unit sign l r T
  append : ∀ t v, op.kind = .compoundAssignment .add t v →
    unit.IsWritten t ∧ unit.typeOf t = op.type ∧
    ∀ string, c.special? .string = some string → op.type = some string → Joined operand c unit v

variable {operand c d unit later}

theorem ConvertedBy.mono {x : OperationId} {conversion : Conversion} {type : Option TypeId}
    (h : ConvertedBy c unit x conversion type) (hx : x ∈ unit.ids) (known : c.Knows (unit.typeOf x))
    (hc : c.Coherent) (hd : d.Coherent) (grows : c.Grows d) (ext : unit.Extends later) :
    ConvertedBy d later x conversion type := by
  cases h with
  | untyped htype htext => exact .untyped ((ext.typeOf_eq hx).trans htype) (grows.isText htext)
  | toObject source object hsource hobject htype hne hstring hconversion =>
    have hs : c.Has source := known source hsource
    refine .toObject source object ((ext.typeOf_eq hx).trans hsource)
      ((grows.special?_eq _).trans hobject) htype hne ?_ ?_
    · rwa [grows.symbol_eq source hs]
    · rw [hconversion, grows.isConversion_object_eq hc hd hs hobject]

theorem Joined.mono {id : OperationId} (h : Joined operand c unit id)
    (known : ∀ id, c.Knows (unit.typeOf id)) (hc : c.Coherent) (hd : d.Coherent) (grows : c.Grows d)
    (ext : unit.Extends later) : Joined operand d later id := by
  cases h with
  | asIs hwritten htype =>
    refine .asIs (hwritten.mono ext) fun string object hs ho => ?_
    rw [ext.typeOf_eq hwritten.mem_ids]
    exact htype string object ((grows.special?_eq _).symm.trans hs)
      ((grows.special?_eq _).symm.trans ho)
  | converted e x conversion op he hop hkind himplicit horigin hwritten hby =>
    obtain ⟨parent, hlater⟩ := ext id op hop
    exact .converted e x conversion _ he hlater hkind himplicit horigin (hwritten.mono ext)
      (hby.mono hwritten.mem_ids (known x) hc hd grows ext)

theorem Legal.mono {op : Operation} (h : Legal operand c unit op)
    (known : ∀ id, c.Knows (unit.typeOf id)) (hc : c.Coherent) (hd : d.Coherent) (grows : c.Grows d)
    (ext : unit.Extends later) : Legal operand d later op where
  known := grows.within.knows h.known
  member m hm := grows.within.has (h.member m hm)
  null := h.null
  sum l r hkind string hs htype := by
    obtain ⟨hl, hr⟩ := h.sum l r hkind string ((grows.special?_eq _).symm.trans hs) htype
    exact ⟨hl.mono known hc hd grows ext, hr.mono known hc hd grows ext⟩
  calculated sign l r hkind hsign T hT :=
    (h.calculated sign l r hkind hsign T hT).imp (fun ⟨hadd, hs⟩ => ⟨hadd, grows.isSpecial_of hs⟩)
      fun hcalc => hcalc.mono grows ext
  append t v hkind := by
    obtain ⟨ht, htype, hv⟩ := h.append t v hkind
    refine ⟨ht.mono ext, (ext.typeOf_eq ht.mem_ids).trans htype, fun string hs hty => ?_⟩
    exact (hv string ((grows.special?_eq _).symm.trans hs) hty).mono known hc hd grows ext

theorem Legal.withParent {op : Operation} (h : Legal operand c unit op) (parent : Option OperationId) :
    Legal operand c unit { op with parent } :=
  ⟨h.known, h.member, h.null, h.sum, h.calculated, h.append⟩

/-- The kinds of operations of which nothing is asked. -/
def OperationKind.isPlain : OperationKind → Bool
  | .literal .null | .binary _ _ _ | .compoundAssignment .add _ _ => false
  | kind => kind.member?.isNone

theorem Legal.of_isPlain {op : Operation} (h : op.kind.isPlain = true) (known : c.Knows op.type) :
    Legal operand c unit op where
  known := known
  member m hm := by
    unfold OperationKind.isPlain at h
    split at h
    all_goals simp_all
  null hk := by simp [hk, OperationKind.isPlain] at h
  sum l r hk := by simp [hk, OperationKind.isPlain] at h
  calculated sign l r hk := by simp [hk, OperationKind.isPlain] at h
  append t v hk := by simp [hk, OperationKind.isPlain] at h

/-- Of the use of a member it is asked that the member is one of a known type. -/
theorem Legal.of_member? {op : Operation} {m : MemberRef} (h : op.kind.member? = some m)
    (known : c.Knows op.type) (hm : c.Has m.type) : Legal operand c unit op where
  known := known
  member m' hm' := by
    rw [h] at hm'
    exact Option.some.inj hm' ▸ hm
  null hk := by simp [hk, OperationKind.member?] at h
  sum l r hk := by simp [hk, OperationKind.member?] at h
  calculated sign l r hk := by simp [hk, OperationKind.member?] at h
  append t v hk := by simp [hk, OperationKind.member?] at h

theorem Legal.of_binary {op : Operation} {sign : BinaryOp} {l r : OperationId}
    (h : op.kind = .binary sign l r) (known : c.Knows op.type)
    (hj : sign = .add → ∀ string, c.special? .string = some string → op.type = some string →
      Joined operand c unit l ∧ Joined operand c unit r)
    (hcalc : sign.calculates = true → ∀ T, op.type = some T →
      sign = .add ∧ c.isSpecial T .string = true ∨ Calculated c unit sign l r T) :
    Legal operand c unit op where
  known := known
  member m hm := by simp [h, OperationKind.member?] at hm
  null hk := by simp [h] at hk
  sum l' r' hk := by
    obtain ⟨rfl, rfl, rfl⟩ : sign = .add ∧ l = l' ∧ r = r' := by simpa [h] using hk
    exact hj rfl
  calculated sign' l' r' hk := by
    obtain ⟨rfl, rfl, rfl⟩ : sign = sign' ∧ l = l' ∧ r = r' := by simpa [h] using hk
    exact hcalc
  append t v hk := by simp [h] at hk

theorem Legal.of_compoundAssignment {op : Operation} {sign : BinaryOp} {t v : OperationId}
    (h : op.kind = .compoundAssignment sign t v) (known : c.Knows op.type) (ht : unit.IsWritten t)
    (htype : unit.typeOf t = op.type)
    (hj : sign = .add → ∀ string, c.special? .string = some string → op.type = some string →
      Joined operand c unit v) : Legal operand c unit op where
  known := known
  member m hm := by simp [h, OperationKind.member?] at hm
  null hk := by simp [h] at hk
  sum l r hk := by simp [h] at hk
  calculated sign l r hk := by simp [h] at hk
  append t' v' hk := by
    obtain ⟨rfl, rfl, rfl⟩ : sign = .add ∧ t = t' ∧ v = v' := by simpa [h] using hk
    exact ⟨ht, htype, hj rfl⟩

end Joining

/-! ### The state -/

/-- The operations of a document with the types of its program. -/
structure UnitInv (operand : Expr → Prop) (c : Compilation) (unit : BoundUnit)
    (free : List OperationId) : Prop where
  coherent : c.Coherent
  forest : unit.Forest free
  legal : ∀ id op, unit.get? id = some op → Legal operand c unit op

/-- The state inside a body, with what surrounds it. -/
structure BodyInv (operand : Expr → Prop) (frame : Frame) (s : BindState)
    (free : List OperationId) : Prop extends UnitInv operand s.compilation s.unit free where
  locals : ∀ v ∈ s.locals.flatten, s.compilation.Knows v.2
  containing : s.compilation.Has frame.containing
  returns : s.compilation.Knows frame.returns
  parameters : ∀ v ∈ frame.parameters, s.compilation.Knows v.2

namespace UnitInv

variable {operand : Expr → Prop} {c d : Compilation} {unit : BoundUnit} {free rest : List OperationId}

theorem knows_typeOf (h : UnitInv operand c unit free) (id : OperationId) :
    c.Knows (unit.typeOf id) := by
  intro type htype
  obtain ⟨op, hop, htype⟩ := Option.bind_eq_some_iff.1 htype
  exact (h.legal id op hop).known type htype

theorem permute (h : UnitInv operand c unit free) (hp : free.Perm rest) :
    UnitInv operand c unit rest := ⟨h.coherent, h.forest.permute hp, h.legal⟩

theorem add {op : Operation} (h : UnitInv operand c unit (op.kind.children ++ rest))
    (hparent : op.parent = none) (hop : Legal operand c unit op) :
    UnitInv operand c (unit.add op) (unit.nextId :: rest) where
  coherent := h.coherent
  forest := h.forest.add hparent
  legal id found hfound := by
    have ext := unit.extends_add op
    have mono (old : Operation) (hold : Legal operand c unit old) : Legal operand c (unit.add op) old :=
      hold.mono h.knows_typeOf h.coherent h.coherent (.refl c) ext
    obtain ⟨old, hold, rfl⟩ | ⟨rfl, rfl⟩ := BoundUnit.get?_add_eq_some hfound
    · have := mono old (h.legal id old hold)
      rw [BoundUnit.adopted]
      split
      · exact this.withParent _
      · exact this
    · exact mono _ hop

theorem addRoot {root : OperationId} (h : UnitInv operand c unit (root :: rest)) :
    UnitInv operand c (unit.addRoot root) rest where
  coherent := h.coherent
  forest := h.forest.addRoot
  legal id op hop :=
    (h.legal id op hop).mono h.knows_typeOf h.coherent h.coherent (.refl c)
      fun _ op hop => ⟨op.parent, hop⟩

theorem grow (h : UnitInv operand c unit free) (hd : d.Coherent) (grows : c.Grows d) :
    UnitInv operand d unit free :=
  ⟨hd, h.forest, fun id op hop =>
    (h.legal id op hop).mono h.knows_typeOf h.coherent hd grows (.refl unit)⟩

end UnitInv

end CultureLint
