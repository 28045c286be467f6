import CultureLint.Proofs.Binding.Enclosing
import CultureLint.Proofs.Binding.Joinless
import CultureLint.Proofs.Binding.Operators
import CultureLint.Proofs.Binding.TrackedExpressions

/-! The concatenation in which an operand is replaced. The conversion that was found there says which operator it
is a part of, and that this operator joined strings because its other operand is one; so the operator joins strings
with any operand in the place of the one that is replaced. -/

namespace CultureLint

namespace Bind

variable {u v : BoundUnit} {x y : Operand} {r : OperationId}

/-- The operation is the operand, or a conversion of it. -/
def Turned (x : Operand) (r : OperationId) (u : BoundUnit) : Prop :=
  r = x.1 ∨ ∃ op how, u.get? r = some op ∧ op.kind = .conversion x.1 how ∧ op.origin = x.2.origin

theorem Turned.mono (h : Turned x r u) (hx : u.Extends v) : Turned x r v := by
  refine h.imp_right ?_
  rintro ⟨op, how, hop, hkind, horigin⟩
  obtain ⟨parent, hop⟩ := hx r op hop
  exact ⟨_, how, hop, hkind, horigin⟩

namespace Leads

theorem turned_convert (x : Operand) (target : Option TypeId) : Leads (Bind.convert x.1 x.2 target) u (Turned x) := by
  cases target with
  | none => exact pure (.inl rfl)
  | some target =>
    refine skip .getCompilation fun c => skip (.typeOf x.1) fun type => skip (.isNull x.1) fun null =>
      .ite (pure (.inl rfl)) ?_
    rintro frame s rfl
    exact ⟨.add _ _, .inr ⟨_, _, s.unit.get?_add_nextId _, rfl, rfl⟩⟩

theorem turned_concatOperand (x : Operand) : Leads (Bind.concatOperand x) u (Turned x) :=
  skip (.typeOf x.1) fun _ => skip (.isString _) fun _ => .ite (pure (.inl rfl)) <|
    skip (.isNull x.1) fun _ => .ite (skip (.special _) fun _ => turned_convert x _)
      (skip (.special _) fun _ => turned_convert x _)

/-- The operands of a `+` are taken as they are or converted. -/
theorem turned_binaryOperands (x y : Operand) :
    Leads (Bind.binaryOperands .add x y) u fun r v => Turned x r.1.1 v ∧ Turned y r.1.2 v := by
  refine skip (.typeOf x.1) fun _ => skip (.typeOf y.1) fun _ => skip (.special _) fun _ =>
    skip (.promotionOf _ _) fun numeric => skip (.isString _) fun _ => skip (.isString _) fun _ => .ite ?_ (.ite ?_ ?_)
  · exact (turned_concatOperand x).bind fun _ _ _ hl => (turned_concatOperand y).bind fun _ _ hk hr =>
      skip (.special _) fun _ => pure ⟨hl.mono hk.ext, hr⟩
  · refine skip (.specialType numeric) fun promoted => ?_
    have both : Leads (Bind.convertBoth x y promoted) u fun r v => Turned x r.1 v ∧ Turned y r.2 v :=
      (turned_convert x promoted).bind fun _ _ _ hl => (turned_convert y promoted).bind fun _ _ hk hr =>
        pure ⟨hl.mono hk.ext, hr⟩
    exact both.bind fun _ _ _ h => pure h
  · exact pure ⟨.inl rfl, .inl rfl⟩

end Leads

variable {frame : Frame} {s : BindState}

/-- What `+` does with its operands, by their types. -/
theorem binaryOperands_add_apply : binaryOperands .add x y frame s =
    (if (s.compilation.isStringType (s.unit.typeOf x.1) || s.compilation.isStringType (s.unit.typeOf y.1)) = true
      then do
      let l ← concatOperand x
      let r ← concatOperand y
      return ((l, r), ← special .string)
    else if (promoted s (s.unit.typeOf x.1) (s.unit.typeOf y.1)).isSome = true then do
      let target ← specialType (promoted s (s.unit.typeOf x.1) (s.unit.typeOf y.1))
      return (← convertBoth x y target, target)
    else return ((x.1, y.1), none)) frame s := by
  have htype (op : OperationId) : typeOf op frame s = (s.unit.typeOf op, s) := rfl
  have hspecial (t : SpecialType) : special t frame s = (s.compilation.special? t, s) := rfl
  rw [binaryOperands, bind_of_asks (htype _), bind_of_asks (htype _), bind_of_asks (hspecial _),
    bind_of_asks (promotionOf_apply ..)]
  dsimp only
  rw [bind_of_asks (isString_apply _), bind_of_asks (isString_apply _)]

/-- The value that `+=` adds. -/
def appended (type : Option TypeId) (x : Operand) : Bind OperationId := do
  if ← isString type then concatOperand x
  else convertOperand x (← specialType (← promotionOf type (← typeOf x.1)))

theorem assignment_add_apply (node : Node) (target : OperationId) : assignment node (.compound .add) target x frame s =
    (do addExpr node (.compoundAssignment .add target (← appended (s.unit.typeOf target) x)) (s.unit.typeOf target))
      frame s := by
  have htype (op : OperationId) : typeOf op frame s = (s.unit.typeOf op, s) := rfl
  rw [assignment, bind_of_asks (htype _)]
  dsimp only
  rw [bind_of_asks (isString_apply _), appended, bind_assoc, bind_of_asks (isString_apply _)]
  simp only [decide_true, Bool.true_and]
  split
  · rfl
  · simp only [bind_assoc]

/-- What is added to a string is joined to it. -/
theorem assignment_of_isStringType (node : Node) {target : OperationId}
    (h : s.compilation.isStringType (s.unit.typeOf target) = true) : assignment node (.compound .add) target x frame s =
      (do addExpr node (.compoundAssignment .add target (← concatOperand x)) (s.unit.typeOf target)) frame s := by
  have happended : appended (s.unit.typeOf target) x frame s = concatOperand x frame s := by
    rw [appended, bind_of_asks (isString_apply _), if_pos h]
  rw [assignment_add_apply]
  change addExpr _ (.compoundAssignment .add target (appended _ x frame s).1) _ frame (appended _ x frame s).2 = _
  rw [happended]
  rfl

namespace Leads

theorem appended (type : Option TypeId) (hx : InPlace x u) :
    Leads (Bind.appended type x) u fun r v => InPlace (r, x.2) v ∧ Turned x r v := by
  have both {m : Bind OperationId} (h : Leads m u fun r v => InPlace (r, x.2) v) (h' : Leads m u (Turned x)) :
      Leads m u fun r v => InPlace (r, x.2) v ∧ Turned x r v := fun frame s hs =>
    ⟨(h frame s hs).1, (h frame s hs).2, (h' frame s hs).2⟩
  exact skip (.isString _) fun _ => .ite (both (concatOperand hx) (turned_concatOperand x)) <|
    skip (.typeOf _) fun _ => skip (.promotionOf _ _) fun _ => skip (.specialType _) fun _ =>
      both (convertOperand _ hx) (turned_convert x _)

end Leads

/-- With a string on one side, `+` joins strings. -/
theorem binary_of_isStringType (node : Node)
    (h : (s.compilation.isStringType (s.unit.typeOf x.1) || s.compilation.isStringType (s.unit.typeOf y.1)) = true) :
    binary node .add x y frame s = (do
      let l ← concatOperand x
      let r ← concatOperand y
      let string ← special .string
      addExpr node (.binary .add l r) string) frame s := by
  change addExpr node (.binary .add (binaryOperands .add x y frame s).1.1.1 (binaryOperands .add x y frame s).1.1.2)
    (binaryOperands .add x y frame s).1.2 frame (binaryOperands .add x y frame s).2 = _
  rw [binaryOperands_add_apply, if_pos h]
  rfl

/-- A `+` that gives a string has a string on one side. -/
theorem isStringType_of_binaryOperands (h : s.compilation.Coherent) {string : TypeId}
    (hs : s.compilation.special? .string = some string) (htype : (binaryOperands .add x y frame s).1.2 = some string) :
    (s.compilation.isStringType (s.unit.typeOf x.1) || s.compilation.isStringType (s.unit.typeOf y.1)) = true := by
  by_contra hnot
  rw [binaryOperands_add_apply, if_neg hnot] at htype
  split at htype
  · rw [bind_of_asks (specialType_apply _)] at htype
    exact special?_promoted_ne h _ _ hs htype
  · cases htype

end Bind

/-- Two operands one behind the other. -/
theorem Expr.holds_of_fits {node : Node} {x y : Expr} (h : Fits node.span.start node.span.stop [x, y]) :
    Bind.Holds node x.node y.node := by
  obtain ⟨a, hx, b, hy, hb⟩ := h
  exact ⟨hx.2.orderly.nonempty, hy.2.orderly.nonempty, hx.1.1, Nat.le_trans hx.1.2 hy.1.1, Nat.le_trans hy.1.2 hb⟩

namespace Comparison

open CultureLint.Bind (Leads InPlace Turned Holds Operand Joinless)

variable {C : Comparison} {u u' : BoundUnit}

/-! ### What was found -/

variable (C) in
/-- What is found is a conversion of the operation. -/
def Converts (x : OperationId) : Prop := ∃ op how, C.last.get? C.found = some op ∧ op.kind = .conversion x how

/-- In the old document, what is found at the hole is a conversion of something that is no string and can be
formatted, and a part of an operator that gives a string. -/
structure Finding (C : Comparison) : Prop where
  nonempty : C.hole.span.start < C.hole.span.stop
  forest : C.last.Forest []
  rootsLie : ∃ firm lo hi, C.last.RootsLie firm lo hi C.last.roots
  exists_parent : ∃ op p outer string, C.last.get? C.found = some op ∧ C.last.get? p = some outer ∧
    C.found ∈ outer.kind.children ∧ outer.kind.isInfix = true ∧ C.base.special? .string = some string ∧
    outer.type = some string
  exists_type : ∀ x, C.Converts x → ∃ T, C.last.typeOf x = some T ∧ C.base.special? .string ≠ some T ∧
    C.sought.formats T = true

/-- What stands at the hole as an operand of an operator that goes beyond it is what is found, and the operator
gives a string. -/
theorem Finding.meets (h : C.Finding) (hext : u.Extends C.last) {x : Operand} {r q : OperationId} {op : Operation}
    (hx : x.2 = C.hole) (hsolid : u.IsSolid x.1) (hplace : InPlace (r, x.2) u) (hturned : Turned x r u)
    (hq : u.get? q = some op) (hr : r ∈ op.kind.children)
    (hbeyond : ¬ op.origin.span.FitsIn C.hole.span.start C.hole.span.stop) :
    C.Converts x.1 ∧ ∃ string, C.base.special? .string = some string ∧ op.type = some string := by
  obtain ⟨found, p, outer, string, hfound, hp, hpart, hinfix, hstring, houter⟩ := h.exists_parent
  obtain ⟨himplicit, horigin⟩ := C.of_found _ hfound
  obtain ⟨firm, lo, hi, hroots⟩ := h.rootsLie
  obtain ⟨b, hb, hinside, hne⟩ : ∃ b, u.get? r = some b ∧ b.origin.span.FitsIn C.hole.span.start C.hole.span.stop ∧
      b.origin.span.start < b.origin.span.stop := by
    cases hplace with
    | @cons _ mid _ _ b _ hb hlo hhi _ _ hrest =>
      rw [hx] at hlo hrest
      refine ⟨b, hb, ⟨hlo, Nat.le_trans hhi hrest.le⟩, ?_⟩
      obtain rfl | ⟨op, how, hop, -, horigin⟩ := hturned
      · obtain ⟨op, hop, -, hne⟩ := hsolid
        exact Option.some.inj (hop.symm.trans hb) ▸ hne
      · rw [← Option.some.inj (hop.symm.trans hb), horigin, hx]
        exact h.nonempty
  obtain ⟨parent, hq⟩ := hext q op hq
  obtain ⟨parent', hb'⟩ := hext r b hb
  have hspan : found.origin.span = C.hole.span := congrArg Origin.span horigin
  obtain ⟨rfl, rfl⟩ := h.forest.eq_of_isInfix hroots hp hq hfound hb' hpart hr hinfix (by rwa [hspan]) hne
    (by rwa [hspan])
  cases hp.symm.trans hq
  refine ⟨?_, string, hstring, houter⟩
  obtain hself | ⟨op, how, hop, hkind, -⟩ := hturned
  · obtain ⟨op, hop, hexplicit, -⟩ := hsolid
    obtain ⟨parent, hop⟩ := hext _ _ hop
    rw [← hself, hfound] at hop
    cases hop
    exact absurd himplicit (by simp [hexplicit])
  · obtain ⟨parent, hop⟩ := hext _ _ hop
    exact ⟨_, how, hop, hkind⟩

/-! ### Steps of their own -/

namespace Tracks

variable {α β : Type} {m : Bind α} {m' : Bind β} {R : α → β → BoundUnit → BoundUnit → Prop}

/-- Steps that join no strings need not be alike. -/
theorem of_joinless (h : Joinless m) (h' : Joinless m') : C.Tracks m m' u u' Whatever := by
  intro f f' s s' hf hs hs' ha hl hl'
  obtain ⟨unit, hm, hcount⟩ := h f s
  obtain ⟨unit', hm', hcount'⟩ := h' f' s'
  rw [hm, hm']
  exact ⟨⟨ha.compilation, ha.coherent, ha.grows, ha.locals, by rw [hcount, hcount', ha.count]⟩, trivial⟩

/-- Where the old step leads is known besides. -/
theorem and_leads {Q : α → BoundUnit → Prop} (h : C.Tracks m m' u u' R) (hm : Leads m u Q) :
    C.Tracks m m' u u' fun a b v v' => R a b v v' ∧ Q a v := fun f f' s s' hf hs hs' ha hl hl' =>
  (h f f' s s' hf hs hs' ha hl hl').imp_right (⟨·, (hm f s hs).2⟩)

end Tracks

/-! ### The operator -/

variable (C) in
/-- The value of the operand at the hole, and what is put in its place: if the former is what was found to be
converted, the latter is nothing that could be formatted. -/
structure Fills (u u' : BoundUnit) (x x' : OperationId) : Prop where
  solid : u.IsSolid x
  written : u'.IsWritten x'
  plain : C.Converts x → (u'.typeOf x').any C.sought.formats = false

theorem Fills.mono {v v' : BoundUnit} {x x' : OperationId} (h : C.Fills u u' x x') (hv : u.Extends v)
    (hv' : u'.Extends v') : C.Fills v v' x x' where
  solid := h.solid.mono hv
  written := h.written.mono hv'
  plain := by
    rw [hv'.typeOf_eq h.written.mem_ids]
    exact h.plain

variable (C) in
/-- The operand at the hole and what is put in its place. -/
structure Replaced (e e' : Expr) : Prop where
  node : e.node = C.hole
  value (u u' : BoundUnit) : C.Tracks e.bindValue e'.bindValue u u' fun r r' v v' => C.Fills v v' r r'

namespace Finding

variable {x x' y y' : Operand} {node node' : Node}

/-- Of the operand that was found to be converted, and its conversions, none is left in the count. -/
theorem counts_eq_false (h : C.Finding) (hx : C.Converts x.1) (hsolid : u.IsSolid x.1) {r : OperationId}
    (hr : Turned x r u) (hl : u.Extends C.last) : C.counts r = false := by
  obtain rfl | ⟨op, how, hop, hkind, -⟩ := hr
  · exact counts_of_isWritten (isSolid_isWritten hsolid) hl
  · obtain ⟨parent, hop⟩ := hl _ _ hop
    obtain ⟨found, how', hfound, hkind'⟩ := hx
    have hpart : x.1 ∈ C.last.childrenOf r := by simp [BoundUnit.childrenOf, hop, hkind, OperationKind.children]
    have hpart' : x.1 ∈ C.last.childrenOf C.found := by
      simp [BoundUnit.childrenOf, hfound, hkind', OperationKind.children]
    rw [counts, h.forest.eq_of_mem_childrenOf hpart hpart']
    simp

/-- What cannot be formatted does not count, nor does a conversion of it. -/
theorem counts'_eq_false (hwritten : u'.IsWritten x'.1) (hplain : (u'.typeOf x'.1).any C.sought.formats = false)
    {r : OperationId} (hr : Turned x' r u') (hl : u'.Extends C.last') : C.counts' r = false := by
  obtain rfl | ⟨op, how, hop, hkind, -⟩ := hr
  · exact counts'_of_isWritten hwritten hl
  · obtain ⟨parent, hop⟩ := hl _ _ hop
    obtain ⟨kind, type, origin, isImplicit, _⟩ := op
    cases hkind
    cases isImplicit with
    | false => exact BoundUnit.isSought_of_isWritten ⟨_, hop, rfl⟩
    | true =>
      rw [counts', BoundUnit.isSought_of_get? hop, hl.typeOf_eq hwritten.mem_ids, hplain, Bool.and_false,
        Bool.false_and]

/-- At the hole both operands are taken, and neither counts. -/
theorem concatOperand (h : C.Finding) (hx : C.Fills u u' x.1 x'.1) (hconv : C.Converts x.1) :
    C.Tracks (Bind.concatOperand x) (Bind.concatOperand x') u u' fun r r' _ _ => C.Matched r r' := by
  intro f f' s s' hf hs hs' ha hl hl'
  obtain ⟨hkeep, hturned⟩ := Leads.turned_concatOperand (u := u) x f s hs
  obtain ⟨hkeep', hturned'⟩ := Leads.turned_concatOperand (u := u') x' f' s' hs'
  refine ⟨(Tracks.of_joinless (.concatOperand x) (.concatOperand x') f f' s s' hf hs hs' ha hl hl').1, ?_⟩
  subst hs hs'
  have hfills := hx.mono hkeep.ext hkeep'.ext
  rw [Matched, h.counts_eq_false hconv hfills.solid hturned hl,
    counts'_eq_false hfills.written (hfills.plain hconv) hturned' hl']

/-- What is converted is no string. -/
theorem isStringType_eq_false (h : C.Finding) {s : BindState} {x : OperationId} (hc : s.compilation.Coherent)
    (hg : C.base.Grows s.compilation) (hx : C.Converts x) (hmem : x ∈ s.unit.ids) (hext : s.unit.Extends C.last) :
    s.compilation.isStringType (s.unit.typeOf x) = false := by
  obtain ⟨T, htype, hne, -⟩ := h.exists_type x hx
  refine Bool.eq_false_iff.2 fun hstring => hne ?_
  obtain ⟨string, hs, htype'⟩ := (Compilation.isStringType_iff hc _).1 hstring
  rw [← hg.special?_eq, hs, ← htype', ← hext.typeOf_eq hmem, htype]

/-- An operator that joins strings at the hole does so with anything in its place. -/
theorem binary (h : C.Finding) (hn : C.Sees node node') (hx : InPlace x u) (hy : InPlace y u)
    (hholds : Holds node x.2 y.2)
    (hole : (x.2 = C.hole ∧ C.Fills u u' x.1 x'.1) ∧ C.Operands u u' y y' ∨
      C.Operands u u' x x' ∧ y.2 = C.hole ∧ C.Fills u u' y.1 y'.1) :
    C.Tracks (Bind.binary node .add x y) (Bind.binary node' .add x' y') u u' fun r r' v v' => Akin v v' r r' := by
  rintro f f' s s' hf rfl rfl ha hl hl'
  -- the old operator is the one that was found to join strings
  let R := Bind.binaryOperands .add x y f s
  let made : Operation := ⟨.binary .add R.1.1.1 R.1.1.2, R.1.2, node.origin, false, none⟩
  have hlast : (R.2.unit.add made).Extends C.last := hl
  have hadd := R.2.unit.extends_add made
  obtain ⟨hkeep, hxl, hyr⟩ := Leads.binaryOperands .add hx hy f s rfl
  obtain ⟨-, htx, hty⟩ := Leads.turned_binaryOperands x y f s rfl
  have hext : s.unit.Extends (R.2.unit.add made) := hkeep.ext.trans hadd
  have hget := R.2.unit.get?_add_nextId made
  obtain ⟨hleft, hright, hstart, hapart, hstop⟩ := hholds
  have string (htype : ∃ string, C.base.special? .string = some string ∧ made.type = some string) :
      (s.compilation.isStringType (s.unit.typeOf x.1) || s.compilation.isStringType (s.unit.typeOf y.1)) = true := by
    obtain ⟨string, hs, htype⟩ := htype
    exact Bind.isStringType_of_binaryOperands ha.coherent ((ha.grows.special?_eq _).trans hs) htype
  have isFalse {z : OperationId} (hz : C.Converts z) (hsolid : s.unit.IsSolid z) :=
    h.isStringType_eq_false ha.coherent ha.grows hz hsolid.mem_ids (hext.trans hlast)
  have same {z z' : Operand} (hz : C.Operands s.unit s'.unit z z') :
      s'.compilation.isStringType (s'.unit.typeOf z'.1) = s.compilation.isStringType (s.unit.typeOf z.1) := by
    rw [hz.akin.type, ha.compilation]
  have join (hl : C.Tracks (Bind.concatOperand x) (Bind.concatOperand x') s.unit s'.unit fun r r' _ _ => C.Matched r r')
      (hr : ∀ v v', s.unit.Extends v → s'.unit.Extends v' →
        C.Tracks (Bind.concatOperand y) (Bind.concatOperand y') v v' fun r r' _ _ => C.Matched r r') : C.Tracks
      (do
        let l ← Bind.concatOperand x
        let r ← Bind.concatOperand y
        let string ← Bind.special .string
        Bind.addExpr node (.binary .add l r) string)
      (do
        let l ← Bind.concatOperand x'
        let r ← Bind.concatOperand y'
        let string ← Bind.special .string
        Bind.addExpr node' (.binary .add l r) string) s.unit s'.unit fun r r' v v' => Akin v v' r r' :=
    hl.bind fun _ _ v v' hv hv' hl => (hr v v' hv hv').bind fun _ _ _ _ _ _ hr => (Asks.special _).skip fun _ =>
      .addExpr_of hn _ (by simp) fun _ _ => countJoined_binary .add hl hr
  obtain ⟨⟨hhole, hfills⟩, hother⟩ | ⟨hother, hhole, hfills⟩ := hole
  · obtain ⟨hconv, hstring⟩ := h.meets hlast hhole (hfills.solid.mono hext) (BoundUnit.Lies.mono hxl hadd)
      (htx.mono hadd)
      hget (List.mem_cons_self ..) (fun hfits => by
        have := hfits.2
        rw [hhole] at hapart
        dsimp only [made, Node.origin] at this
        omega)
    have hcond : s.compilation.isStringType (s.unit.typeOf y.1) = true := by
      simpa [isFalse hconv hfills.solid] using string hstring
    rw [Bind.binary_of_isStringType node (Bool.or_eq_true_iff.2 (.inr hcond))] at hl ⊢
    rw [Bind.binary_of_isStringType node' (Bool.or_eq_true_iff.2 (.inr ((same hother).trans hcond)))] at hl' ⊢
    exact join (h.concatOperand hfills hconv) (fun v v' hv hv' => .concatOperand (hother.mono hv hv'))
      f f' s s' hf rfl rfl ha hl hl'
  · obtain ⟨hconv, hstring⟩ := h.meets hlast hhole (hfills.solid.mono hext) (BoundUnit.Lies.mono hyr hadd)
      (hty.mono hadd)
      hget (List.mem_cons_of_mem _ (List.mem_cons_self ..)) (fun hfits => by
        have := hfits.1
        rw [hhole] at hapart
        dsimp only [made, Node.origin] at this
        omega)
    have hcond : s.compilation.isStringType (s.unit.typeOf x.1) = true := by
      simpa [isFalse hconv hfills.solid] using string hstring
    rw [Bind.binary_of_isStringType node (Bool.or_eq_true_iff.2 (.inl hcond))] at hl ⊢
    rw [Bind.binary_of_isStringType node' (Bool.or_eq_true_iff.2 (.inl ((same hother).trans hcond)))] at hl' ⊢
    exact join (.concatOperand hother) (fun _ _ hv hv' => h.concatOperand (hfills.mono hv hv') hconv)
      f f' s s' hf rfl rfl ha hl hl'

/-- The same for a value that is added to a string. -/
theorem assignment (h : C.Finding) (hn : C.Sees node node') {target target' : OperationId} {targetNode : Node}
    (ht : Akin u u' target target') (htarget : InPlace (target, targetNode) u) (hx : InPlace x u)
    (hholds : Holds node targetNode x.2) (hole : x.2 = C.hole) (hfills : C.Fills u u' x.1 x'.1) :
    C.Tracks (Bind.assignment node (.compound .add) target x) (Bind.assignment node' (.compound .add) target' x') u u'
      fun r r' v v' => Akin v v' r r' := by
  rintro f f' s s' hf rfl rfl ha hl hl'
  let type := s.unit.typeOf target
  let R := Bind.appended type x f s
  let made : Operation := ⟨.compoundAssignment .add target R.1, type, node.origin, false, none⟩
  have hlast : (R.2.unit.add made).Extends C.last := by
    rw [Bind.assignment_add_apply] at hl
    exact hl
  have hadd := R.2.unit.extends_add made
  obtain ⟨hkeep, hplace, hturned⟩ := Leads.appended type hx f s rfl
  obtain ⟨hleft, hright, hstart, hapart, hstop⟩ := hholds
  obtain ⟨hconv, string, hs, htype⟩ := h.meets hlast hole (hfills.solid.mono (hkeep.ext.trans hadd))
    (BoundUnit.Lies.mono hplace hadd) (hturned.mono hadd) (R.2.unit.get?_add_nextId made)
    (List.mem_cons_of_mem _ (List.mem_cons_self ..)) (fun hfits => by
      have := hfits.1
      rw [hole] at hapart
      dsimp only [made, Node.origin] at this
      omega)
  have hcond : s.compilation.isStringType type = true :=
    (Compilation.isStringType_iff ha.coherent _).2 ⟨string, (ha.grows.special?_eq _).trans hs, htype⟩
  have append : C.Tracks
      (do Bind.addExpr node (.compoundAssignment .add target (← Bind.concatOperand x)) type)
      (do Bind.addExpr node' (.compoundAssignment .add target' (← Bind.concatOperand x')) type) s.unit s'.unit
      fun r r' v v' => Akin v v' r r' :=
    (h.concatOperand hfills hconv).bind fun _ _ _ _ hv hv' hr => .addExpr_of hn _ (by simp) fun hl hl' =>
      countJoined_compoundAssignment .add ((ht.mono hv hv').matched hl hl') hr
  have hcond' : s'.compilation.isStringType (s'.unit.typeOf target') = true := by rwa [ht.type, ha.compilation]
  rw [Bind.assignment_of_isStringType node hcond] at hl ⊢
  rw [Bind.assignment_of_isStringType node' hcond', ht.type] at hl' ⊢
  exact append f f' s s' hf rfl rfl ha hl hl'

/-- A concatenation with a replaced operand is bound like the one with the old operand. -/
theorem tracksExpr (h : C.Finding) {e e' : Expr} (hlike : Expr.Like e e') (htidy : e.Tidy) (hn : C.Sees e.node e'.node)
    (hconcat : ∀ c ∈ e.children, ∀ c', C.Replaced c c' → c ∈ e.concatOperands)
    (hc : List.Forall₂ (fun c c' => C.Replaced c c' ∨ C.TracksPart c c') e.children e'.children)
    (hex : ∃ c ∈ e.children, ∃ c', C.Replaced c c') : C.TracksExpr e e' := by
  obtain ⟨c, hmem, c', hreplaced⟩ := hex
  have hop := hconcat c hmem c' hreplaced
  have replaced {d d' : Expr} (hd : d.node = C.hole) (h : C.Replaced d d' ∨ C.TracksPart d d') : C.Replaced d d' :=
    h.resolve_right fun h => h.shares.ne (congrArg Node.id hd)
  have kept {d d' : Expr} (hd : d.node ≠ C.hole) (h : C.Replaced d d' ∨ C.TracksPart d d') : C.TracksPart d d' :=
    h.resolve_left fun h => hd h.node
  have hnode := hreplaced.node
  cases hlike with
  | @binary n n' op l l' r r' =>
    obtain rfl : op = .add := by
      by_contra hne
      cases op <;> simp_all [Expr.concatOperands]
    obtain ⟨hleft, hc⟩ := List.forall₂_cons.1 hc
    obtain ⟨hright, -⟩ := List.forall₂_cons.1 hc
    have hholds : Holds n l.node r.node := Expr.holds_of_fits htidy.children
    have hne : l.node ≠ r.node := fun heq => by
      have := hholds.right
      have := hholds.apart
      rw [heq] at this
      omega
    have hl (u : BoundUnit) := l.inPlace_bindValue (u := u) (htidy.child (List.mem_cons_self ..))
    have hr (u : BoundUnit) :=
      r.inPlace_bindValue (u := u) (htidy.child (List.mem_cons_of_mem _ (List.mem_cons_self ..)))
    refine .bound_of_value fun u u' => ?_
    rw [Expr.bindValue_binary, Expr.bindValue_binary]
    obtain rfl | rfl : c = l ∨ c = r := by simpa [Expr.concatOperands] using hop
    · have hleft := replaced hnode hleft
      have hright := kept (fun heq => hne (hnode.trans heq.symm)) hright
      refine ((hleft.value u u').and_leads (hl u)).bind fun x x' v v' _ _ hx =>
        ((hright.value v v').and_leads (hr v)).bind fun y y' w w' hv hv' hy => ?_
      exact h.binary hn (BoundUnit.Lies.mono hx.2 hv) hy.2 hholds
        (.inl ⟨⟨hnode, hx.1.mono hv hv'⟩, hy.1, hright.shares⟩)
    · have hright := replaced hnode hright
      have hleft := kept (fun heq => hne (heq.trans hnode.symm)) hleft
      refine ((hleft.value u u').and_leads (hl u)).bind fun x x' v v' _ _ hx =>
        ((hright.value v v').and_leads (hr v)).bind fun y y' w w' hv hv' hy => ?_
      exact h.binary hn (BoundUnit.Lies.mono hx.2 hv) hy.2 hholds
        (.inr ⟨⟨hx.1.mono hv hv', hleft.shares⟩, hnode, hy.1⟩)
  | @assignment n n' op t t' x x' =>
    obtain rfl : op = .compound .add := by
      by_contra hne
      cases op with
      | assign => simp [Expr.concatOperands] at hop
      | compound op => cases op <;> simp_all [Expr.concatOperands]
    obtain ⟨htarget, hc⟩ := List.forall₂_cons.1 hc
    obtain ⟨hvalue, -⟩ := List.forall₂_cons.1 hc
    obtain rfl : c = x := by simpa [Expr.concatOperands] using hop
    have hholds : Holds n t.node c.node := Expr.holds_of_fits htidy.children
    have hvalue := replaced hnode hvalue
    have htarget := kept (fun heq => by
      have := hholds.right
      have := hholds.apart
      rw [heq, ← hnode] at this
      omega) htarget
    have hl (u : BoundUnit) := t.inPlace_bindValue (u := u) (htidy.child (List.mem_cons_self ..))
    have hr (u : BoundUnit) :=
      c.inPlace_bindValue (u := u) (htidy.child (List.mem_cons_of_mem _ (List.mem_cons_self ..)))
    refine .of_foot hn rfl rfl fun u u' => ((htarget.value u u').and_leads (hl u)).bind fun a a' v v' _ _ ha =>
      ((hvalue.value v v').and_leads (hr v)).bind fun b b' w w' hv hv' hb => ?_
    exact (h.assignment hn (ha.1.mono hv hv') (BoundUnit.Lies.mono ha.2 hv) hb.2 hholds hnode hb.1).bind
      fun _ _ _ _ _ _ hr => .pure (.value hr)
  | _ => simp [Expr.concatOperands] at hop

end Finding

end Comparison

end CultureLint
