import CultureLint.Binding.Operator
import CultureLint.Proofs.Binding.Steps

/-! The operators and the conversions they put on their operands. What a string concatenation joins was
converted by the rules, no other operator makes a string by `+`, and what is calculated with has the type of
the result. -/

namespace CultureLint

namespace Compilation

variable {c : Compilation}

theorem isIdentity_convertType (source target : TypeId) :
    (c.convertType source target).isIdentity = true ↔ source = target := by
  rw [convertType, convertTypeUpTo]
  by_cases h : source = target
  · simp [h, Conversion.isIdentity]
  · simp only [h, if_false, iff_false]
    repeat' split
    all_goals simp [Conversion.isIdentity]

theorem isIdentity_convertImplicit_none (isNull : Bool) (target : TypeId) :
    (c.convertImplicit none isNull target).isIdentity = false := by
  rw [convertImplicit]
  split <;> rfl

theorem isStringType_iff (h : c.Coherent) (type : Option TypeId) :
    c.isStringType type = true ↔ ∃ string, c.special? .string = some string ∧ type = some string := by
  cases type with
  | none => simp [isStringType]
  | some id =>
    simp only [isStringType, Option.bind_some, decide_eq_true_eq, Option.some.injEq]
    rw [← h.special?_iff]
    exact ⟨fun hs => ⟨id, hs, rfl⟩, fun ⟨_, hs, hid⟩ => hid ▸ hs⟩

end Compilation

theorem SpecialType.promoteWith_ne_string (a b : SpecialType) : a.promoteWith b ≠ some .string := by
  rw [promoteWith]
  repeat' split
  all_goals simp

namespace Bind

variable {operand : Expr → Prop} {frame : Frame} {s : BindState} {rest : List OperationId}

/-- Only an operand of the very type needs no conversion to it. -/
theorem typeOf_of_isIdentity {op : OperationId} {T : TypeId}
    (h : (conversionTo s op T).isIdentity = true) : s.unit.typeOf op = some T := by
  rw [conversionTo] at h
  cases htype : s.unit.typeOf op with
  | none =>
    rw [htype, Compilation.isIdentity_convertImplicit_none] at h
    cases h
  | some source =>
    rw [htype] at h
    rw [(Compilation.isIdentity_convertType source T).1 h]

/-! ### String concatenation -/

theorem typeOf_eq_none_of_isNull {free : List OperationId} {op : OperationId}
    (h : BodyInv operand frame s free) (hn : s.unit.isNull op = true) : s.unit.typeOf op = none := by
  rw [BoundUnit.isNull] at hn
  split at hn
  case h_1 hop =>
    have := (h.legal _ _ hop).null rfl
    simp only at this
    simp [BoundUnit.typeOf, hop, this]
  case h_2 => cases hn

/-- An operand that is no string joins strings as it is if it needs no conversion, and else through the
operation that converts it. -/
theorem Converts.joined {e : Expr} {op r : OperationId} {target : Option TypeId} {t : BindState}
    {free : List OperationId} (h : Converts s op e.node target r t) (he : operand e)
    (hs : BodyInv operand frame s free) (hl : Later s t) (hc : t.compilation = s.compilation)
    (hw : s.unit.IsWritten op)
    (has : (∀ T, target = some T → (conversionTo s op T).isIdentity = true) →
      ∀ string object, s.compilation.special? .string = some string →
        s.compilation.special? .object = some object → s.unit.typeOf op = some object)
    (hby : ∀ T, target = some T → (conversionTo s op T).isIdentity = false →
      ConvertedBy s.compilation s.unit op (conversionTo s op T) (some T)) :
    Joined operand t.compilation t.unit r := by
  rw [hc]
  cases h with
  | asIs hr hid =>
    subst hr
    refine .asIs (hw.mono hl.ext) fun string object hstring hobject => .inr ?_
    rw [hl.ext.typeOf_eq hw.mem_ids]
    exact has hid string object hstring hobject
  | converted T htarget hid hr =>
    have := (hby T htarget hid).mono hw.mem_ids (hs.knows_typeOf op) hs.coherent hs.coherent
      (.refl _) hl.ext
    exact .converted e op _ _ he hr rfl rfl rfl (hw.mono hl.ext) this

theorem ends_concatOperand {e : Expr} {op : OperationId} (he : operand e)
    (h : BodyInv operand frame s (op :: rest)) (hw : s.unit.IsWritten op) :
    Ends operand frame s (concatOperand (op, e.node) frame s) (fun r => r :: rest)
      fun r t => Joined operand t.compilation t.unit r := by
  refine .ask (a := s.unit.typeOf op) rfl (.ask (isString_apply _) (.ite (fun hs => ?_) fun hs => ?_))
  · obtain ⟨string, hstring, htype⟩ := (Compilation.isStringType_iff h.coherent _).1 hs
    refine .pure h (.asIs hw fun string' object hs' _ => .inl ?_)
    rw [htype, ← hstring, hs']
  refine .ask (isNull_apply _) (.ite (fun hn => ?_) fun hn => ?_)
  · have hnone := typeOf_eq_none_of_isNull h hn
    refine (ends_convertSpecial e.node .string h).mono fun r t hl ht ⟨hc, hconv⟩ =>
      hconv.joined he h hl hc hw (fun hid string object hstring _ => ?_) fun T hT _ =>
        .untyped hnone (Compilation.isText_special? h.coherent (.inl rfl) hT)
    cases hnone.symm.trans (typeOf_of_isIdentity (hid string hstring))
  · refine (ends_convertSpecial e.node .object h).mono fun r t hl ht ⟨hc, hconv⟩ =>
      hconv.joined he h hl hc hw (fun hid string object _ hobject => ?_) fun T hT hid => ?_
    · exact typeOf_of_isIdentity (hid object hobject)
    · cases htype : s.unit.typeOf op with
      | none => exact .untyped htype (Compilation.isText_special? h.coherent (.inr rfl) hT)
      | some source =>
        rw [conversionTo, htype] at hid ⊢
        refine .toObject source T htype hT rfl ?_ ?_ rfl
        · rintro rfl
          rw [Compilation.convertImplicit, (Compilation.isIdentity_convertType _ _).2 rfl] at hid
          cases hid
        · intro hstring
          refine hs ((Compilation.isStringType_iff h.coherent _).2 ⟨source, ?_, htype⟩)
          exact (h.coherent.special?_iff _ _).2 hstring

/-! ### Operands -/

/-- The conversion that a written operand needs stays the same while other operations are made. -/
theorem conversionTo_later {t : BindState} {op : OperationId} (hl : Later s t)
    (hc : t.compilation = s.compilation) (hw : s.unit.IsWritten op) (T : TypeId) :
    conversionTo t op T = conversionTo s op T := by
  rw [conversionTo, hc, hl.ext.typeOf_eq hw.mem_ids, hl.ext.isNull_eq hw.mem_ids, conversionTo]

/-- An operand that can be converted to a type suits it when it is. -/
theorem Converts.suits {op r : OperationId} {node : Node} {T : TypeId} {t : BindState}
    (h : Converts s op node (some T) r t) (hl : Later s t) (hw : s.unit.IsWritten op)
    (hconv : (conversionTo s op T).isConversion = true) : t.unit.Suits T r := by
  cases h with
  | asIs hr hid =>
    subst hr
    exact (hw.mono hl.ext).suits ((hl.ext.typeOf_eq hw.mem_ids).trans (typeOf_of_isIdentity (hid T rfl)))
  | converted T' htarget hid hr =>
    cases htarget
    refine ⟨by simp [BoundUnit.typeOf, hr, convertedTo], fun found x conversion hfound _ hkind => ?_⟩
    obtain rfl : convertedTo s op node T = found := Option.some.inj (hr.symm.trans hfound)
    obtain ⟨-, rfl⟩ := OperationKind.conversion.inj hkind
    exact hconv

theorem ends_convertBoth {l r : OperationId} {target : Option TypeId} (ln rn : Node)
    (h : BodyInv operand frame s (l :: r :: rest)) (ht : s.compilation.Knows target) :
    Ends operand frame s (convertBoth (l, ln) (r, rn) target frame s) (fun a => a.1 :: a.2 :: rest)
      fun a t => ∀ T, target = some T → s.unit.IsWritten l → s.unit.IsWritten r →
        (conversionTo s l T).isConversion = true → (conversionTo s r T).isConversion = true →
        t.unit.Suits T a.1 ∧ t.unit.Suits T a.2 := by
  refine .bind (ends_convert ln h ht) fun l' t hl h ⟨hc, hconvl⟩ => ?_
  refine .bind (ends_convert rn (h.permute (.swap ..)) (hl.knows ht)) fun r' u hl' h ⟨_, hconvr⟩ => ?_
  refine .pure (h.permute (.swap ..)) fun T hT hwl hwr hcl hcr => ?_
  subst hT
  rw [← conversionTo_later hl hc hwr T] at hcr
  exact ⟨(hconvl.suits hl hwl hcl).mono hl'.ext, hconvr.suits hl' (hwr.mono hl.ext) hcr⟩

theorem specialType_apply (special : Option SpecialType) :
    specialType special frame s = (special.bind s.compilation.special?, s) := by
  cases special <;> rfl

theorem knows_bind_special? (h : s.compilation.Coherent) (special : Option SpecialType) :
    s.compilation.Knows (special.bind s.compilation.special?) := by
  cases special with
  | none => exact Compilation.knows_none _
  | some special => exact h.knows_special? special

/-- The numeric type that a type is. -/
def numericIn (c : Compilation) (type : Option TypeId) : Option SpecialType :=
  (type.bind fun id => (c.symbol id).special).filter SpecialType.isNumeric

/-- The special type in which two numbers are calculated with. -/
def promoted (s : BindState) (left right : Option TypeId) : Option SpecialType :=
  match numericIn s.compilation left, numericIn s.compilation right with
  | some a, some b => a.promoteWith b
  | _, _ => none

theorem promotionOf_apply (left right : Option TypeId) :
    promotionOf left right frame s = (promoted s left right, s) := by
  change (match numericIn s.compilation left, numericIn s.compilation right with
    | some a, some b => (Pure.pure (a.promoteWith b) : Bind (Option SpecialType))
    | _, _ => Pure.pure none) frame s = _
  rw [promoted]
  cases numericIn s.compilation left <;> cases numericIn s.compilation right <;> rfl

theorem promoted_ne_string (left right : Option TypeId) : promoted s left right ≠ some .string := by
  rw [promoted]
  split
  · exact SpecialType.promoteWith_ne_string _ _
  · simp

/-- The type of a sum of numbers is not the string. -/
theorem special?_promoted_ne (h : s.compilation.Coherent) (left right : Option TypeId)
    {string : TypeId} (hs : s.compilation.special? .string = some string) :
    (promoted s left right).bind s.compilation.special? ≠ some string := by
  intro hp
  obtain ⟨special, hspecial, hp⟩ := Option.bind_eq_some_iff.1 hp
  rw [h.special?_iff] at hs hp
  have : special = .string := Option.some.inj (hp.symm.trans hs)
  exact promoted_ne_string left right (this ▸ hspecial)

theorem numericIn_eq_some {c : Compilation} {type : Option TypeId} {special : SpecialType}
    (h : numericIn c type = some special) : ∃ source, type = some source ∧
      (c.symbol source).special = some special ∧ special.isNumeric = true := by
  obtain ⟨h, hn⟩ := Option.filter_eq_some_iff.1 h
  obtain ⟨source, rfl, hs⟩ := Option.bind_eq_some_iff.1 h
  exact ⟨source, rfl, hs, hn⟩

theorem promoted_comm (left right : Option TypeId) : promoted s left right = promoted s right left := by
  rw [promoted, promoted]
  cases numericIn s.compilation left <;> cases numericIn s.compilation right
  case some.some a b => exact a.promoteWith_comm b
  all_goals rfl

/-- The type in which two operands are calculated with is one of numbers, to which the first operand is
converted. -/
theorem promoted_converts (h : s.compilation.Coherent) {l : OperationId} {right : Option TypeId}
    {T : TypeId} (hT : (promoted s (s.unit.typeOf l) right).bind s.compilation.special? = some T) :
    s.compilation.isNumeric T = true ∧ (conversionTo s l T).isConversion = true := by
  obtain ⟨p, hp, hT⟩ := Option.bind_eq_some_iff.1 hT
  rw [promoted] at hp
  split at hp
  case h_1 a b ha hb =>
    obtain ⟨source, htype, hsource, ha⟩ := numericIn_eq_some ha
    obtain ⟨_, _, _, hb⟩ := numericIn_eq_some hb
    obtain ⟨hnumeric, hwidens⟩ := SpecialType.widensTo_of_promoteWith ha hb hp
    refine ⟨Compilation.isNumeric_iff.2 ⟨p, (h.special?_iff p T).1 hT, hnumeric⟩, ?_⟩
    rw [conversionTo, htype, Compilation.convertImplicit]
    exact Compilation.isConversion_of_widensTo h hsource hT hwidens
  case h_2 => cases hp

/-- What is asked of the operands and the type of a binary operation: if it joins strings, its operands
were converted for that, and else it calculates in one type. -/
structure OperandsFit (operand : Expr → Prop) (op : BinaryOp)
    (a : (OperationId × OperationId) × Option TypeId) (t : BindState) : Prop where
  knows : t.compilation.Knows a.2
  joined : op = .add → ∀ string, t.compilation.special? .string = some string → a.2 = some string →
    Joined operand t.compilation t.unit a.1.1 ∧ Joined operand t.compilation t.unit a.1.2
  calculated : op.calculates = true → ∀ T, a.2 = some T →
    op = .add ∧ t.compilation.isSpecial T .string = true ∨
      Calculated t.compilation t.unit op a.1.1 a.1.2 T

theorem ends_binaryOperands {op : BinaryOp} {le re : Expr} {l r : OperationId}
    (he : op = .add → operand le ∧ operand re) (h : BodyInv operand frame s (l :: r :: rest))
    (hl : s.unit.IsWritten l) (hr : s.unit.IsWritten r) :
    Ends operand frame s (binaryOperands op (l, le.node) (r, re.node) frame s)
      (fun a => a.1.1 :: a.1.2 :: rest) (OperandsFit operand op) := by
  have htl := h.knows_typeOf l
  have htr := h.knows_typeOf r
  have hboolean := h.coherent.knows_special? .boolean
  refine .ask (a := s.unit.typeOf l) rfl (.ask (a := s.unit.typeOf r) rfl
    (.ask (a := s.compilation.special? .boolean) rfl (.ask (promotionOf_apply _ _) ?_)))
  -- What does not join strings must not have the type string where `+` is written.
  let NoString (type : Option TypeId) : Prop := op = .add → ∀ string,
    s.compilation.special? .string = some string → type ≠ some string
  have asTheyAre {type : Option TypeId} (ht : s.compilation.Knows type) (hno : NoString type)
      (hfit : op.calculates = true → ∀ T, type = some T →
        Calculated s.compilation s.unit op l r T) :
      Ends operand frame s ((Pure.pure ((l, r), type) : Bind _) frame s)
        (fun a => a.1.1 :: a.1.2 :: rest) (OperandsFit operand op) :=
    .pure h ⟨ht, fun hadd string hs htype => absurd htype (hno hadd string hs),
      fun hop T hT => .inr (hfit hop T hT)⟩
  have both {target type : Option TypeId} (htarget : s.compilation.Knows target)
      (ht : s.compilation.Knows type) (hno : NoString type)
      (hfit : op.calculates = true → ∀ T, type = some T → target = some T ∧
        s.compilation.isNumeric T = true ∧ (conversionTo s l T).isConversion = true ∧
        (conversionTo s r T).isConversion = true) :
      Ends operand frame s ((do return (← convertBoth (l, le.node) (r, re.node) target, type) :
        Bind _) frame s) (fun a => a.1.1 :: a.1.2 :: rest) (OperandsFit operand op) := by
    refine .bind (ends_convertBoth le.node re.node h htarget) fun a t hlater h hsuits => ?_
    refine .pure h ⟨hlater.knows ht, fun hadd string hs htype => ?_, fun hop T hT => .inr ?_⟩
    · exact absurd htype (hno hadd string ((hlater.grows.special?_eq _).symm.trans hs))
    · obtain ⟨htarget, hnumeric, hcl, hcr⟩ := hfit hop T hT
      obtain ⟨hsl, hsr⟩ := hsuits T htarget hl hr hcl hcr
      exact ⟨.inl (hlater.grows.isNumeric_of hnumeric), hsl, hsr⟩
  have hnumeric := knows_bind_special? h.coherent (promoted s (s.unit.typeOf l) (s.unit.typeOf r))
  have calculate : Ends operand frame s ((do
      let type ← specialType (promoted s (s.unit.typeOf l) (s.unit.typeOf r))
      return (← convertBoth (l, le.node) (r, re.node) type, type) : Bind _) frame s)
      (fun a => a.1.1 :: a.1.2 :: rest) (OperandsFit operand op) := by
    refine .ask (specialType_apply _) (both hnumeric hnumeric (fun _ string hs =>
      special?_promoted_ne h.coherent (s.unit.typeOf l) (s.unit.typeOf r) hs) fun _ T hT => ?_)
    obtain ⟨hn, hcl⟩ := promoted_converts h.coherent hT
    obtain ⟨-, hcr⟩ := promoted_converts h.coherent (promoted_comm _ _ ▸ hT)
    exact ⟨hT, hn, hcl, hcr⟩
  have nothing := asTheyAre (Compilation.knows_none _) (fun _ _ _ => nofun) fun _ _ => nofun
  cases op with
  | add =>
    refine .ask (isString_apply _) (.ask (isString_apply _) (.ite (fun _ => ?_) fun _ =>
      .ite (fun _ => calculate) fun _ => nothing))
    obtain ⟨hle, hre⟩ := he rfl
    refine .bind (ends_concatOperand hle h hl) fun l' t hs ht hl' => ?_
    refine .bind (ends_concatOperand hre (ht.permute (.swap ..)) (hr.mono hs.ext))
      fun r' u hu h hr' => ?_
    refine .ask (a := u.compilation.special? .string) rfl (.pure (h.permute (.swap ..)) ?_)
    exact ⟨h.coherent.knows_special? _, fun _ _ _ _ => ⟨ht.joined_later hl' h hu, hr'⟩,
      fun _ T hT => .inl ⟨rfl, h.coherent.isSpecial_of_special? hT⟩⟩
  | sub | mul | div | rem => exact .ite (fun _ => calculate) fun _ => nothing
  | shl =>
    refine .ask (a := numericIn s.compilation (s.unit.typeOf l)) rfl (.ask (specialType_apply _) ?_)
    have hpromoted := knows_bind_special? h.coherent
      ((numericIn s.compilation (s.unit.typeOf l)).map SpecialType.promote)
    refine .bind (ends_convert le.node h hpromoted) fun l' t hlater h _ => ?_
    refine .bind (ends_convertSpecial re.node .int32 (h.permute (.swap ..))) fun r' u hlater' h _ => ?_
    exact .pure (h.permute (.swap ..)) ⟨(hlater.trans hlater').knows hpromoted, nofun, nofun⟩
  | bitAnd | bitOr | bitXor =>
    refine .ite (fun hb => asTheyAre hboolean nofun fun _ T hT => ?_) fun _ =>
      .ite (fun _ => calculate) fun _ => nothing
    simp only [Bool.and_eq_true, decide_eq_true_eq] at hb
    obtain ⟨⟨-, hbl⟩, hbr⟩ := hb
    exact ⟨.inr ⟨rfl, h.coherent.isSpecial_of_special? hT⟩, hl.suits (hbl.trans hT),
      hr.suits (hbr.trans hT)⟩
  | eq | ne | lt | gt | le | ge => exact .ask (specialType_apply _) (both hnumeric hboolean nofun nofun)
  | and | or => exact both hboolean hboolean nofun nofun
  | coalesce => exact asTheyAre (htl.or htr) nofun nofun

/-! ### Operators -/

theorem ends_binary {op : BinaryOp} {le re : Expr} {l r : OperationId} (node : Node)
    (he : op = .add → operand le ∧ operand re) (h : BodyInv operand frame s (l :: r :: rest))
    (hl : s.unit.IsWritten l) (hr : s.unit.IsWritten r) :
    Ends operand frame s (binary node op (l, le.node) (r, re.node) frame s) (fun r => r :: rest)
      fun r t => t.unit.IsWritten r := by
  refine .bind (ends_binaryOperands he h hl hr) fun a t _ ht hfit => ?_
  exact (ends_add ht rfl (.of_binary rfl hfit.knows hfit.joined hfit.calculated)).mono
    fun r _ _ _ hr => ⟨_, hr, rfl⟩

theorem ends_assignment {op : AssignOp} {e : Expr} {target value : OperationId} (node : Node)
    (he : op = .compound .add → operand e) (h : BodyInv operand frame s (target :: value :: rest))
    (ht : s.unit.IsWritten target) (hv : s.unit.IsWritten value) :
    Ends operand frame s (assignment node op target (value, e.node) frame s) (fun r => r :: rest)
      fun r t => t.unit.IsWritten r := by
  have htype := h.knows_typeOf target
  have h' := h.permute (.swap ..)
  refine .ask (a := s.unit.typeOf target) rfl ?_
  cases op with
  | assign =>
    refine .bind (ends_convert e.node h' htype) fun r t hlater h _ => ?_
    exact ends_addExpr node (h.permute (.swap ..)) rfl (hlater.knows htype)
  | compound op =>
    have append {r : OperationId} {t : BindState} (hlater : Later s t)
        (h : BodyInv operand frame t (r :: target :: rest))
        (hj : op = .add → s.compilation.isStringType (s.unit.typeOf target) = true →
          Joined operand t.compilation t.unit r) :
        Ends operand frame t
          (addExpr node (.compoundAssignment op target r) (s.unit.typeOf target) frame t)
          (fun r => r :: rest) fun r t => t.unit.IsWritten r := by
      refine (ends_add (h.permute (.swap ..)) rfl (.of_compoundAssignment rfl (hlater.knows htype)
        (ht.mono hlater.ext) (hlater.ext.typeOf_eq ht.mem_ids) fun hop string hs hstring => ?_)).mono
        fun r _ _ _ hr => ⟨_, hr, rfl⟩
      refine hj hop ((Compilation.isStringType_iff h'.coherent _).2 ⟨string, ?_, hstring⟩)
      exact (hlater.grows.special?_eq _).symm.trans hs
    refine .ask (isString_apply _) (.ite (fun hplus => ?_) fun hplus => ?_)
    · obtain rfl : op = .add := by simp_all
      exact .bind (ends_concatOperand (he rfl) h' hv) fun r t hlater h hj =>
        append hlater h fun _ _ => hj
    · refine .ask (a := s.unit.typeOf value) rfl
        (.ask (promotionOf_apply _ _) (.ask (specialType_apply _) ?_))
      refine .bind (ends_convert e.node h' (knows_bind_special? h.coherent _)) fun r t hlater h _ =>
        append hlater h fun hop hs => ?_
      simp [hop, hs] at hplus

theorem ends_unary (node : Node) (op : UnaryOp) (e : Expr) {value : OperationId}
    (h : BodyInv operand frame s (value :: rest)) :
    Ends operand frame s (unary node op (value, e.node) frame s) (fun r => r :: rest)
      fun r t => t.unit.IsWritten r := by
  have htype := h.knows_typeOf value
  cases op with
  | increment | decrement =>
    exact .ask (a := s.unit.typeOf value) rfl (ends_addExpr node h rfl htype)
  | not =>
    have hboolean := h.coherent.knows_special? .boolean
    refine .ask (a := s.compilation.special? .boolean) rfl ?_
    refine .bind (ends_convert e.node h hboolean) fun r t hlater h _ => ?_
    exact ends_addExpr node h rfl (hlater.knows hboolean)
  | plus | minus | bitNot =>
    refine .ask (a := s.unit.typeOf value) rfl
      (.ask (a := numericIn s.compilation (s.unit.typeOf value)) rfl ?_)
    cases numericIn s.compilation (s.unit.typeOf value) with
    | none => exact ends_addExpr node h rfl (Compilation.knows_none _)
    | some special =>
      refine .bind (ends_convertSpecial e.node _ h) fun r t _ h _ => ?_
      exact .ask (a := t.compilation.special? _) rfl
        (ends_addExpr node h rfl (h.coherent.knows_special? _))

theorem ends_step (node : Node) (isIncrement : Bool) {value : OperationId}
    (h : BodyInv operand frame s (value :: rest)) :
    Ends operand frame s (step node isIncrement value frame s) (fun r => r :: rest)
      fun r t => t.unit.IsWritten r :=
  .ask (a := s.unit.typeOf value) rfl (ends_addExpr node h rfl (h.knows_typeOf value))

theorem ends_cast (node : Node) {target : Option TypeId} {value : OperationId}
    (h : BodyInv operand frame s (value :: rest)) (ht : s.compilation.Knows target) :
    Ends operand frame s (cast node target value frame s) (fun r => r :: rest)
      fun r t => t.unit.IsWritten r := by
  cases target with
  | none => exact ends_addInvalid node h
  | some target =>
    exact .ask (a := s.compilation) rfl (.ask (a := s.unit.typeOf value) rfl
      (.ask (isNull_apply value) (ends_addExpr node h rfl ht)))

theorem knows_outcomeType {c : Compilation} {left right : Option TypeId} (hl : c.Knows left)
    (hr : c.Knows right) (leftNull rightNull : Bool) :
    c.Knows (outcomeType c left right leftNull rightNull) := by
  unfold outcomeType
  repeat' split
  all_goals first | assumption | exact Compilation.knows_none _

theorem ends_conditional (node : Node) (le re : Expr) {condition l r : OperationId}
    (h : BodyInv operand frame s (condition :: l :: r :: rest)) :
    Ends operand frame s (conditional node condition (l, le.node) (r, re.node) frame s)
      (fun r => r :: rest) fun r t => t.unit.IsWritten r := by
  have hl := h.knows_typeOf l
  have hr := h.knows_typeOf r
  refine .ask (a := s.compilation) rfl (.ask (a := s.unit.typeOf l) rfl
    (.ask (a := s.unit.typeOf r) rfl (.ask (isNull_apply l) (.ask (isNull_apply r) ?_))))
  have htype := knows_outcomeType hl hr (s.unit.isNull l) (s.unit.isNull r)
  have behind (a b c : OperationId) (rest : List OperationId) :
      (a :: b :: c :: rest).Perm (b :: c :: a :: rest) := .trans (.swap ..) (.cons _ (.swap ..))
  refine .bind (ends_convertBoth le.node re.node (h.permute (behind ..)) htype)
    fun a t hlater h _ => ?_
  exact ends_addExpr node (h.permute (behind ..).symm) rfl (hlater.knows htype)

end Bind

end CultureLint
