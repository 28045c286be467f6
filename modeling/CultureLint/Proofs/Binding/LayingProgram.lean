import CultureLint.Binding.Project
import CultureLint.Proofs.Binding.Laying
import CultureLint.Proofs.Binding.ScopeAgreement

/-! The roots of a document: bodies are bound in the order in which they are written, so the operations of a
document lie in the order of the text. Only the initial value of a property is bound behind its accessors
with a span that begins before them, at the name of the property. -/

namespace CultureLint

open CultureLint.Bind (Leads Quiet)

variable {u : BoundUnit} {lo hi : Nat}

/-! ### Statements -/

namespace Bind

variable {α β : Type}

theorem Quiet.declareLocal (name : String) (type : Option TypeId) : Quiet (declareLocal name type) :=
  fun _ _ => rfl

theorem Quiet.returnsNothing : Quiet returnsNothing := fun _ _ => rfl

namespace Leads

theorem inBlock {m : Bind α} {Q : α → BoundUnit → Prop} (h : Leads m u Q) : Leads (inBlock m) u Q :=
  fun frame s hs => h frame { s with locals := [] :: s.locals } hs

/-- Things one behind the other are bound to operations one behind the other. -/
theorem mapM [Located α] {f : α → Bind OperationId}
    (hf : ∀ a lo hi u, Fits lo hi a → Leads (f a) u fun r v => v.Lies lo hi [r]) {as : List α}
    (h : Fits lo hi as) : Leads (as.mapM f) u fun rs v => v.Lies lo hi rs := by
  induction as generalizing lo u with
  | nil => exact pure (.nil h)
  | cons a as ih =>
    obtain ⟨mid, ha, has⟩ := h
    rw [List.mapM_cons]
    refine (hf a lo mid u ha).bind fun r v _ hr => (ih has).bind fun rs w hk hrs => pure ?_
    exact (hr.mono hk.ext).append hrs

theorem optionMapM [Located α] {f : α → Bind OperationId}
    (hf : ∀ a lo hi u, Fits lo hi a → Leads (f a) u fun r v => v.Lies lo hi [r]) {a : Option α}
    (h : Fits lo hi a) : Leads (a.mapM f) u fun r v => v.Lies lo hi r.toList := by
  cases a with
  | none => exact pure (.nil h)
  | some a => exact (hf a lo hi u h).bind fun r v _ hr => pure hr

end Leads

end Bind

namespace Expr

variable {e : Expr}

theorem lies_bindConverted (target : Option TypeId) (h : Fits lo hi e) :
    Leads (e.bindConverted target) u fun r v => v.Lies lo hi [r] :=
  (e.inPlace_bindConverted h.2 target).imp fun _ _ hr => BoundUnit.Lies.widen hr h.1.1 h.1.2

theorem lies_bindValue (h : Fits lo hi e) : Leads e.bindValue u fun r v => v.Lies lo hi [r] :=
  (e.inPlace_bindValue h.2).imp fun _ _ hr => BoundUnit.Lies.widen hr h.1.1 h.1.2

end Expr

/-- A name and a value behind it stand in what covers both. -/
theorem Span.fitsIn_cover {name value : Span} {mid : Nat} (hname : name.FitsIn lo mid)
    (hvalue : value.FitsIn mid hi) : (name.cover value).FitsIn lo hi ∧
      value.FitsIn (name.cover value).start (name.cover value).stop := by
  have := hname.1
  have := hname.2
  have := hvalue.1
  have := hvalue.2
  have := name.start_le_stop
  have := value.start_le_stop
  simp only [FitsIn, start_cover, stop_cover]
  omega

namespace Declarator

variable {d : Declarator}

/-- A variable stands where its name and its value do. -/
theorem fitsIn_span (h : Fits lo hi d) :
    d.span.FitsIn lo hi ∧ Fits d.span.start d.span.stop d.value := by
  obtain ⟨name, value⟩ := d
  obtain ⟨mid, hname, hvalue⟩ := h
  cases value with
  | none => exact ⟨⟨hname.1, Nat.le_trans hname.2 hvalue⟩, name.span.start_le_stop⟩
  | some value =>
    obtain ⟨hcover, hinside⟩ := Span.fitsIn_cover hname hvalue.1
    exact ⟨hcover, hinside, hvalue.2⟩

theorem lies_bindLocal (isImplicit : Bool) (declared : Option TypeId) (h : Fits lo hi d) :
    Leads (d.bindLocal isImplicit declared) u fun r v => v.Lies lo hi [r] := by
  obtain ⟨hspan, hvalue⟩ := fitsIn_span h
  have finish {value : Option OperationId} {type : Option TypeId} {v : BoundUnit}
      (hv : v.Lies d.span.start d.span.stop value.toList) :
      Leads (Bind.declareLocal d.name.name type >>= fun _ => Bind.add
        ⟨.variableDeclaration d.name.name value, type, d.span.origin, false, none⟩) v
        fun r v => v.Lies lo hi [r] :=
    .skip (.declareLocal _ _) fun _ => .imp (.addPlain rfl hv)
      fun _ _ hr => BoundUnit.Lies.widen hr hspan.1 hspan.2
  unfold bindLocal
  cases hd : d.value with
  | none => exact finish (.nil d.span.start_le_stop)
  | some value =>
    rw [hd] at hvalue
    refine .ite ?_ ?_
    · exact (Expr.lies_bindValue hvalue).bind fun op v _ hop => .skip (.typeOf op) fun type => finish hop
    · exact (Expr.lies_bindConverted declared hvalue).bind fun op v _ hop => finish hop

end Declarator

namespace Stmt

theorem lies_bindLocals (type : TypeExpr) {declarators : List Declarator} {span : Span}
    (hspan : span.FitsIn lo hi) (h : Fits span.start span.stop declarators) :
    Leads (bindLocals type declarators span) u fun r v => v.Lies lo hi [r] := by
  refine .skip (.resolveType type) fun declared => ?_
  refine (Leads.mapM (fun d _ _ _ hd => d.lies_bindLocal _ declared hd) h).bind fun ops v _ hops => ?_
  have block : Leads (Bind.add ⟨.block ops, none, span.origin, true, none⟩) v
      fun r w => w.Lies span.start span.stop [r] := .addPlain rfl hops
  have block := block.imp fun _ _ hr => hr.widen hspan.1 hspan.2
  cases ops with
  | nil => exact block
  | cons op ops =>
    cases ops with
    | nil => exact .pure (hops.widen hspan.1 hspan.2)
    | cons => exact block

theorem lies_bindExpression {value : Expr} (h : Fits lo hi value) :
    Leads (bindExpression value) u fun r v => v.Lies lo hi [r] := by
  refine (value.inPlace_bindValue h.2).bind fun r v _ hr => .imp (.addStmt rfl hr) fun _ _ hr => ?_
  exact hr.widen h.1.1 h.1.2

theorem lies_bindCondition {condition : Expr} (h : Fits lo hi condition) :
    Leads (bindCondition condition) u fun r v => v.Lies lo hi [r] :=
  .skip (.special _) fun boolean => condition.lies_bindConverted boolean h

theorem lies_bindStart {start : ForStart} (h : Fits lo hi start) :
    Leads (bindStart start) u fun r v => v.Lies lo hi r.toList := by
  cases start with
  | nothing => exact .pure (.nil h)
  | locals type declarators span => exact (lies_bindLocals type h.1 h.2).map fun _ _ hr => hr
  | expression value => exact (lies_bindExpression h).map fun _ _ hr => hr

/-- A statement around operations that lie in it. -/
theorem lies_addStmt {span : Span} {kind : OperationKind} (hkind : kind.isInfix = false)
    (hspan : span.FitsIn lo hi) (h : u.Lies span.start span.stop kind.children) :
    Leads (Bind.addStmt span kind) u fun r v => v.Lies lo hi [r] :=
  (Leads.addStmt hkind h).imp fun _ _ hr => hr.widen hspan.1 hspan.2

mutual

/-- What a statement is bound to stands where the statement does. -/
theorem lies_bind : (s : Stmt) → (lo hi : Nat) → s.FitsIn lo hi → (u : BoundUnit) →
    Leads s.bind u fun r v => v.Lies lo hi [r]
  | .block statements span, lo, hi, h, u =>
    (Leads.inBlock (lies_bindAll statements _ _ h.2 u)).bind fun _ _ _ hitems => lies_addStmt rfl h.1 hitems
  | .locals type declarators span, lo, hi, h, u => lies_bindLocals type h.1 h.2
  | .expression value, lo, hi, h, u => lies_bindExpression h
  | .ret value span, lo, hi, h, u => by
    have back (target : Option TypeId) : Leads (value.mapM (·.bindConverted target) >>= fun value =>
        Bind.addStmt span (.ret value)) u fun r v => v.Lies lo hi [r] :=
      (Leads.optionMapM (fun e _ _ _ he => e.lies_bindConverted target he) h.2).bind fun _ _ _ hr =>
        lies_addStmt rfl h.1 hr
    exact .skip .returnsNothing fun _ => .ite (back none) (.skip .read fun frame => back frame.returns)
  | .ifThen condition whenTrue span, lo, hi, h, u => by
    obtain ⟨hspan, mid, hcondition, htrue⟩ := h
    refine (lies_bindCondition hcondition).bind fun c v _ hc => ?_
    refine (lies_bind whenTrue _ _ htrue v).bind fun t w hk ht => lies_addStmt rfl hspan ?_
    exact (hc.mono hk.ext).append ht
  | .ifElse condition whenTrue whenFalse span, lo, hi, h, u => by
    obtain ⟨hspan, a, b, hcondition, htrue, hfalse⟩ := h
    refine (lies_bindCondition hcondition).bind fun c v _ hc => ?_
    refine (lies_bind whenTrue _ _ htrue v).bind fun t w hk ht => ?_
    refine (lies_bind whenFalse _ _ hfalse w).bind fun f x hk' hf => lies_addStmt rfl hspan ?_
    exact (hc.mono (hk.trans hk').ext).append ((ht.mono hk'.ext).append hf)
  | .whileLoop condition body span, lo, hi, h, u => by
    obtain ⟨hspan, mid, hcondition, hbody⟩ := h
    refine (lies_bindCondition hcondition).bind fun c v _ hc => ?_
    refine (lies_bind body _ _ hbody v).bind fun b w hk hb => lies_addStmt rfl hspan ?_
    exact (hc.mono hk.ext).append hb
  | .forLoop start condition iterators body span, lo, hi, h, u => by
    obtain ⟨hspan, a, b, c, hstart, hcondition, hiterators, hbody⟩ := h
    have inner : Leads (do
        let start ← bindStart start
        let condition ← condition.mapM bindCondition
        let iterators ← iterators.mapM Expr.bindValue
        let body ← body.bind
        return OperationKind.loop start condition iterators body) u fun kind v =>
          kind.isInfix = false ∧ v.Lies span.start span.stop kind.children := by
      refine (lies_bindStart hstart).bind fun s v _ hs => ?_
      refine (Leads.optionMapM (fun _ _ _ _ he => lies_bindCondition he) hcondition).bind fun c w hk hc => ?_
      refine (Leads.mapM (fun _ _ _ _ he => Expr.lies_bindValue he) hiterators).bind fun is x hk' his => ?_
      refine (lies_bind body _ _ hbody x).bind fun b y hk'' hb => .pure ⟨rfl, ?_⟩
      have hs := hs.mono (hk.trans (hk'.trans hk'')).ext
      have hc := hc.mono (hk'.trans hk'').ext
      exact ((hs.append hc).append (his.mono hk''.ext)).append hb
    exact (Leads.inBlock inner).bind fun kind v _ hkind => lies_addStmt hkind.1 hspan hkind.2
  | .empty span, lo, hi, h, u => lies_addStmt rfl h (.nil span.start_le_stop)

theorem lies_bindAll : (ss : List Stmt) → (lo hi : Nat) → AllFitIn lo hi ss → (u : BoundUnit) →
    Leads (bindAll ss) u fun rs v => v.Lies lo hi rs
  | [], _, _, h, _ => .pure (.nil h)
  | s :: ss, lo, hi, h, u => by
    obtain ⟨mid, hs, hss⟩ := h
    refine (lies_bind s lo mid hs u).bind fun r v _ hr => ?_
    exact (lies_bindAll ss mid hi hss v).bind fun rs w hk hrs => .pure ((hr.mono hk.ext).append hrs)

end

end Stmt

theorem Expr.lies_bindArrow {value : Expr} (h : Fits lo hi value) :
    Leads value.bindArrow u fun r v => v.Lies lo hi [r] := by
  have finish {kind : OperationKind} {v : BoundUnit} (hkind : kind.isInfix = false)
      (hv : v.Lies value.span.start value.span.stop kind.children) :
      Leads (Bind.add ⟨kind, none, value.span.origin, true, none⟩) v fun r w => w.Lies lo hi [r] :=
    .imp (.addPlain hkind hv) fun _ _ hr => BoundUnit.Lies.widen hr h.1.1 h.1.2
  have hstatement : Leads (OperationKind.expressionStatement <$> value.bindValue) u fun kind v =>
      kind.isInfix = false ∧ v.Lies value.span.start value.span.stop kind.children :=
    (value.inPlace_bindValue h.2).map fun _ _ hr => ⟨rfl, hr⟩
  refine .skip .returnsNothing fun _ => .ite ?_ ?_
  · exact hstatement.bind fun kind v _ hkind => finish hkind.1 hkind.2
  · exact .skip .read fun frame => (value.inPlace_bindConverted h.2 _).bind fun _ _ _ hr => finish rfl hr

theorem Body.lies_bind {body : Body} (h : Fits lo hi body) : Leads body.bind u fun r v => v.Lies lo hi [r] := by
  cases body with
  | block statements span => exact (Stmt.block statements span).lies_bind lo hi ⟨h.1, Stmt.allFitIn_iff.2 h.2⟩ u
  | arrow value => exact value.lies_bindArrow h

/-! ### Roots -/

theorem BoundUnit.extends_addRoot (unit : BoundUnit) (root : OperationId) :
    unit.Extends (unit.addRoot root) := .refl unit

/-- One document has all the operations of another and more roots, which stand between two places. -/
structure RootsIn (firm : Prop) (lo hi : Nat) (unit later : BoundUnit) : Prop where
  ext : unit.Extends later
  roots : ∃ added, later.roots = unit.roots ++ added ∧ later.RootsLie firm lo hi added

namespace RootsIn

variable {firm : Prop} {mid : Nat} {unit later last : BoundUnit} {s : BindState} {α : Type}

theorem refl (unit : BoundUnit) (h : lo ≤ hi) : RootsIn firm lo hi unit unit :=
  ⟨.refl _, [], by simp, .nil h⟩

theorem trans (h : RootsIn firm lo mid unit later) (h' : RootsIn firm mid hi later last) :
    RootsIn firm lo hi unit last := by
  obtain ⟨added, hadded, hlie⟩ := h.roots
  obtain ⟨more, hmore, hlie'⟩ := h'.roots
  exact ⟨h.ext.trans h'.ext, added ++ more, by simp [hadded, hmore], (hlie.mono h'.ext).append hlie'⟩

theorem widen {lo' hi' : Nat} (h : RootsIn firm lo hi unit later) (hlo : lo' ≤ lo) (hhi : hi ≤ hi') :
    RootsIn firm lo' hi' unit later := by
  obtain ⟨added, hadded, hlie⟩ := h.roots
  exact ⟨h.ext, added, hadded, hlie.widen hlo hhi⟩

/-- A step that binds nothing changes nothing for the next one. -/
theorem skip {m : StateM BindState α} {f : α → StateM BindState Unit} (hm : (m s).2.unit = s.unit)
    (h : RootsIn firm lo hi (m s).2.unit (f (m s).1 (m s).2).2.unit) :
    RootsIn firm lo hi s.unit ((m >>= f) s).2.unit := by
  rw [← hm]
  exact h

/-- Steps for things that stand one behind the other. -/
theorem forM [Located α] {f : α → StateM BindState Unit}
    {as : List α} (hf : ∀ a ∈ as, ∀ lo hi s, Fits lo hi a → RootsIn firm lo hi s.unit (f a s).2.unit)
    (h : Fits lo hi as) : RootsIn firm lo hi s.unit (as.forM f s).2.unit := by
  induction as generalizing lo s with
  | nil => exact .refl _ h
  | cons a as ih =>
    obtain ⟨mid, ha, has⟩ := h
    obtain ⟨hf, hfs⟩ := List.forall_mem_cons.1 hf
    exact (hf lo mid s ha).trans (ih hfs has)

end RootsIn

namespace DeclaredType

variable {firm : Prop} {s : BindState} {frame : Frame}

theorem rootsIn_bindRoot {body : Bind OperationId}
    (h : ∀ u, Leads body u fun r v => v.RootsLie firm lo hi [r]) :
    RootsIn firm lo hi s.unit (bindRoot frame body s).2.unit := by
  obtain ⟨hkeep, hlies⟩ := h s.unit frame { s with locals := [] } rfl
  refine ⟨hkeep.ext, [(body frame { s with locals := [] }).1], ?_, hlies.mono ?_⟩
  · exact congrArg (· ++ [_]) hkeep.roots
  · exact BoundUnit.extends_addRoot _ _

theorem rootsIn_body {body : Bind OperationId} (h : ∀ u, Leads body u fun r v => v.Lies lo hi [r]) :
    RootsIn firm lo hi s.unit (bindRoot frame body s).2.unit :=
  rootsIn_bindRoot fun u => (h u).imp fun _ _ hr => .body hr (.nil (Nat.le_refl _))

/-- The initial value stands behind its name. -/
theorem rootsIn_bindInitializer {name : Ident} {value : Expr} {mid : Nat} (type : Option TypeId)
    (hname : Fits lo mid name) (hvalue : Fits mid hi value) :
    RootsIn firm lo hi s.unit (bindInitializer frame name value type s).2.unit := by
  refine rootsIn_body fun u => ?_
  obtain ⟨hcover, hinside⟩ := Span.fitsIn_cover hname hvalue.1
  have hvalue : Fits (name.span.cover value.span).start (name.span.cover value.span).stop value :=
    ⟨hinside, hvalue.2⟩
  refine (value.lies_bindConverted type hvalue).bind fun op v _ hop => ?_
  exact .imp (.addPlain rfl hop) fun _ _ hr => BoundUnit.Lies.widen hr hcover.1 hcover.2

/-- Other roots may stand between the name and its initial value. -/
theorem rootsIn_bindInitializer_behind {name : Ident} {value : Expr} (hfirm : ¬firm) (type : Option TypeId)
    (hvalue : Fits lo hi value) : RootsIn firm lo hi s.unit (bindInitializer frame name value type s).2.unit := by
  refine rootsIn_bindRoot fun u => (value.lies_bindConverted type hvalue).bind fun op v _ hop => ?_
  rintro frame s rfl
  refine ⟨.add _ _, .initial (s.unit.get?_add_nextId _) rfl (hop.mono (s.unit.extends_add _))
    (fun h => absurd h hfirm) (.nil (Nat.le_refl _))⟩

theorem rootsIn_bindAccessor {accessor : Accessor} (type : Option TypeId) (h : Fits lo hi accessor) :
    RootsIn firm lo hi s.unit (bindAccessor frame type accessor s).2.unit := by
  obtain ⟨kind, body⟩ := accessor
  cases body with
  | none => exact .refl _ h
  | some body =>
    cases kind with
    | get => exact rootsIn_body fun u => body.lies_bind h
    | set | init => exact rootsIn_body fun u => body.lies_bind h

end DeclaredType

/-- No accessor has a body. -/
def PropertyBody.isAuto : PropertyBody → Bool
  | .accessors items => items.all (·.body.isNone)
  | .arrow _ => false

/-- The member is no property with both a body and an initial value. -/
def MemberDecl.isPlain : MemberDecl → Bool
  | .property d => d.value.isNone || d.body.isAuto
  | _ => true

namespace DeclaredType

variable {firm : Prop} {s : BindState} {frame : Frame} (declared : DeclaredType)

theorem unit_resolveType (type : TypeExpr) : (declared.resolveType type s).2.unit = s.unit := rfl

theorem bindAccessors_of_isAuto {items : List Accessor} (type : Option TypeId)
    (h : items.all (·.body.isNone) = true) : items.forM (bindAccessor frame type) s = ((), s) := by
  induction items with
  | nil => rfl
  | cons a items ih =>
    obtain ⟨kind, body⟩ := a
    rw [List.all_cons, Bool.and_eq_true] at h
    cases body with
    | none => exact ih h.2
    | some body => cases h.1

theorem rootsIn_property {d : PropertyDecl} (h : d.FitsIn lo hi)
    (hfirm : firm → (d.value.isNone || d.body.isAuto) = true) :
    RootsIn firm lo hi s.unit (declared.bindMember (.property d) s).2.unit := by
  obtain ⟨attributes, modifiers, type, name, body, value, span⟩ := d
  obtain ⟨a, b, hname, hbody, hvalue⟩ := h
  refine .skip (declared.unit_resolveType type) ?_
  cases body with
  | arrow result =>
    have hroot {inner : Frame} {s : BindState} : RootsIn firm a b s.unit (bindRoot inner result.bindArrow s).2.unit :=
      rootsIn_body fun u => result.lies_bindArrow hbody
    cases value with
    | none => exact hroot.widen (Located.le hname) hvalue
    | some value =>
      refine (hroot.trans (rootsIn_bindInitializer_behind (fun hf => ?_) _ hvalue)).widen (Located.le hname)
        (Nat.le_refl _)
      cases hfirm hf
  | accessors items =>
    have hroots (type : Option TypeId) {inner : Frame} {s : BindState} :
        RootsIn firm a b s.unit (items.forM (bindAccessor inner type) s).2.unit :=
      .forM (fun _ _ _ _ _ ha => rootsIn_bindAccessor type ha) hbody
    cases value with
    | none => exact (hroots _).widen (Located.le hname) hvalue
    | some value =>
      by_cases hf : firm
      · have hauto : items.all (·.body.isNone) = true := hfirm hf
        refine .skip (congrArg (·.2.unit) (bindAccessors_of_isAuto _ hauto)) ?_
        exact rootsIn_bindInitializer _ (Located.widen hname (Nat.le_refl _) (Located.le hbody)) hvalue
      · exact ((hroots _).trans (rootsIn_bindInitializer_behind hf _ hvalue)).widen (Located.le hname)
          (Nat.le_refl _)

theorem unit_parameters (parameters : List Parameter) : ((parameters.mapM fun p => do
    return (p.name.name, ← declared.resolveType p.type) : StateM BindState Variables) s).2.unit = s.unit := by
  induction parameters generalizing s with
  | nil => rfl
  | cons p ps ih =>
    rw [List.mapM_cons]
    exact ih

theorem rootsIn_method {d : MethodDecl} (h : Fits lo hi d.body) :
    RootsIn firm lo hi s.unit (declared.bindMember (.method d) s).2.unit := by
  obtain ⟨attributes, modifiers, returns, name, parameters, body, span⟩ := d
  cases body with
  | none => exact .refl _ h
  | some body =>
    have inner {returns : Option TypeId} {s : BindState} : RootsIn firm lo hi s.unit ((do
        let parameters ← parameters.mapM fun p => do
          return (p.name.name, ← declared.resolveType p.type)
        bindRoot { declared.frame modifiers with returns, parameters } body.bind : StateM BindState Unit) s).2.unit :=
      .skip (declared.unit_parameters parameters) (rootsIn_body fun u => body.lies_bind h)
    cases returns with
    | some type => exact .skip (declared.unit_resolveType type) inner
    | none => exact inner

theorem rootsIn_bindMember {member : MemberDecl} (h : Fits lo hi member)
    (hfirm : firm → member.isPlain = true) : RootsIn firm lo hi s.unit (declared.bindMember member s).2.unit := by
  cases member with
  | field decl =>
    refine .skip (declared.unit_resolveType decl.type) (.forM (fun d _ lo hi s hd => ?_) h)
    obtain ⟨name, value⟩ := d
    cases value with
    | none => exact .refl _ (Located.le hd)
    | some value =>
      obtain ⟨mid, hname, hvalue⟩ := hd
      exact rootsIn_bindInitializer _ hname hvalue
  | property decl => exact declared.rootsIn_property h hfirm
  | method decl => exact declared.rootsIn_method h

end DeclaredType

/-! ### Programs -/

namespace NamespaceMember

mutual

theorem fits_types {lo hi : Nat} : (m : NamespaceMember) → m.FitsIn lo hi → Located.Fits lo hi m.types
  | .namespaceDecl _ _ _ members _, h => fits_typesAll members h
  | .typeDecl _, h => ⟨hi, h, Nat.le_refl _⟩

theorem fits_typesAll {lo hi : Nat} : (ms : List NamespaceMember) → AllFitIn lo hi ms →
    Located.Fits lo hi (typesAll ms)
  | [], h => h
  | m :: ms, h => by
    obtain ⟨mid, hm, hms⟩ := h
    exact FitsAll.append (fits_types m hm) (fits_typesAll ms hms)

end

end NamespaceMember

/-- The types that a document declares. -/
def CompilationUnit.types (unit : CompilationUnit) : List TypeDecl := NamespaceMember.typesAll unit.members

/-- The document and the declaration of a declared type. -/
def DeclaredType.place (d : DeclaredType) : Nat × TypeDecl := (d.document, d.decl)

namespace Compilation

mutual

theorem map_place_declareMember (document : Nat) (scope : Scope) : (m : NamespaceMember) → (c : Compilation) →
    (declareMember document scope m c).1.map DeclaredType.place = m.types.map (document, ·)
  | .namespaceDecl name _ usings members _, c =>
    map_place_declareMembers document ((scope.enter name).addUsings usings) members c
  | .typeDecl _, _ => rfl

theorem map_place_declareMembers (document : Nat) (scope : Scope) : (ms : List NamespaceMember) →
    (c : Compilation) → (declareMembers document scope ms c).1.map DeclaredType.place =
      (NamespaceMember.typesAll ms).map (document, ·)
  | [], _ => rfl
  | m :: ms, c => by
    have hm := map_place_declareMember document scope m c
    have hms := map_place_declareMembers document scope ms (declareMember document scope m c).2
    rw [NamespaceMember.typesAll, List.map_append, ← hm, ← hms, ← List.map_append]
    rfl

end

theorem map_place_declareUnits (units rest : List CompilationUnit) (first : Nat) (c : Compilation) :
    (((rest.zipIdx first).mapM fun x =>
      declareMembers x.2 (documentScope units x.1) x.1.members : StateM Compilation _) c).1.flatten.map
        DeclaredType.place = (rest.zipIdx first).flatMap fun x => x.1.types.map (x.2, ·) := by
  induction rest generalizing first c with
  | nil => rfl
  | cons unit rest ih =>
    have hunit := map_place_declareMembers first (documentScope units unit) unit.members c
    have hrest := ih (first + 1) (declareMembers first (documentScope units unit) unit.members c).2
    rw [List.zipIdx_cons, List.mapM_cons, List.flatMap_cons, ← hrest]
    dsimp only [CompilationUnit.types]
    rw [← hunit, ← List.map_append]
    rfl

/-- Types are declared in the order in which they are written. -/
theorem map_place_declareTypes (units : List CompilationUnit) (c : Compilation) :
    (declareTypes units c).1.map DeclaredType.place = units.zipIdx.flatMap fun x => x.1.types.map (x.2, ·) :=
  map_place_declareUnits units units 0 c

end Compilation

theorem filter_places {units : List CompilationUnit} {unit : CompilationUnit} {i : Nat} (first : Nat)
    (h : units[i]? = some unit) :
    ((units.zipIdx first).flatMap fun x => x.1.types.map (x.2, ·)).filter (·.1 = first + i) =
      unit.types.map (first + i, ·) := by
  induction units generalizing first i with
  | nil => simp at h
  | cons head units ih =>
    rw [List.zipIdx_cons, List.flatMap_cons, List.filter_append]
    cases i with
    | zero =>
      obtain rfl : head = unit := by simpa using h
      have hrest : ((units.zipIdx (first + 1)).flatMap fun x => x.1.types.map (x.2, ·)).filter
          (·.1 = first + 0) = [] := by
        refine List.filter_eq_nil_iff.2 fun p hp => ?_
        obtain ⟨x, hx, hp⟩ := List.mem_flatMap.1 hp
        obtain ⟨type, -, rfl⟩ := List.mem_map.1 hp
        have := List.le_snd_of_mem_zipIdx hx
        simp only [decide_eq_true_eq]
        omega
      rw [hrest, List.append_nil]
      exact List.filter_eq_self.2 (by simp)
    | succ i =>
      have hhead : (head.types.map (first, ·)).filter (·.1 = first + (i + 1)) = [] :=
        List.filter_eq_nil_iff.2 (by simp)
      have h := ih (first + 1) (by simpa using h)
      rw [Nat.add_right_comm] at h
      rw [hhead, List.nil_append]
      exact h

namespace BoundProgram

variable {firm : Prop} {program : BoundProgram} {unit : BoundUnit} {i : Nat}

theorem rootsIn_bindDeclared {d : DeclaredType} (hu : program.units[d.document]? = some unit)
    (h : Fits lo hi d.decl) (hfirm : firm → d.decl.members.all (·.isPlain) = true) :
    ∃ later, (program.bindDeclared d).units[d.document]? = some later ∧ RootsIn firm lo hi unit later := by
  have hmembers (s : BindState) : RootsIn firm lo hi s.unit (d.decl.members.forM d.bindMember s).2.unit :=
    .forM (fun m hm _ _ _ hfits => d.rootsIn_bindMember hfits fun hf => List.all_eq_true.1 (hfirm hf) m hm) h
  have hd := (Array.getElem?_eq_some_iff.1 hu).1
  refine ⟨_, Array.getElem?_setIfInBounds_self_of_lt hd, ?_⟩
  have hstart := hmembers ⟨program.compilation, program.units[d.document]?.getD {}, []⟩
  rw [hu] at hstart ⊢
  exact hstart

theorem units_bindDeclared_of_ne {d : DeclaredType} (hd : d.document ≠ i) :
    (program.bindDeclared d).units[i]? = program.units[i]? :=
  Array.getElem?_setIfInBounds_ne hd

/-- The types of a document are bound in the order in which they stand. -/
theorem rootsIn_foldl_bindDeclared {ds : List DeclaredType} (hu : program.units[i]? = some unit)
    (h : Fits lo hi ((ds.filter (·.document = i)).map (·.decl)))
    (hfirm : firm → ∀ d ∈ ds, d.document = i → d.decl.members.all (·.isPlain) = true) :
    ∃ later, (ds.foldl bindDeclared program).units[i]? = some later ∧ RootsIn firm lo hi unit later := by
  induction ds generalizing program unit lo with
  | nil => exact ⟨unit, hu, .refl _ h⟩
  | cons d ds ih =>
    have hrest : firm → ∀ d ∈ ds, d.document = i → d.decl.members.all (·.isPlain) = true :=
      fun hf d hd => hfirm hf d (List.mem_cons_of_mem _ hd)
    by_cases hd : d.document = i
    · rw [List.filter_cons_of_pos (by simpa using hd)] at h
      obtain ⟨mid, hfits, h⟩ := h
      subst hd
      obtain ⟨next, hnext, hin⟩ := rootsIn_bindDeclared hu hfits fun hf => hfirm hf d List.mem_cons_self rfl
      obtain ⟨later, hlater, hin'⟩ := ih hnext h hrest
      exact ⟨later, hlater, hin.trans hin'⟩
    · rw [List.filter_cons_of_neg (by simpa using hd)] at h
      exact ih ((units_bindDeclared_of_ne hd).trans hu) h hrest

/-- The types that are declared for a document are those that stand in it. -/
theorem decls_declareTypes {units : List CompilationUnit} {unit : CompilationUnit} (hu : units[i]? = some unit)
    (c : Compilation) :
    ((Compilation.declareTypes units c).1.filter (·.document = i)).map (·.decl) = unit.types := by
  have hplaces : ((Compilation.declareTypes units c).1.map DeclaredType.place).filter (·.1 = i) =
      unit.types.map (i, ·) := by
    rw [Compilation.map_place_declareTypes]
    simpa using filter_places 0 hu
  have h := congrArg (List.map Prod.snd) hplaces
  rw [List.filter_map, List.map_map, List.map_map] at h
  exact h.trans (List.map_id _)

/-- The roots of a document stand in it in the order of the text. -/
theorem rootsLie_ofUnits (references : List Reference) {units : List CompilationUnit} {unit : CompilationUnit}
    (hu : units[i]? = some unit) (h : Fits lo hi unit.members)
    (hfirm : firm → ∀ type ∈ unit.types, type.members.all (·.isPlain) = true) :
    ∃ bound, (ofUnits references units).units[i]? = some bound ∧ bound.RootsLie firm lo hi bound.roots := by
  let declared := (Compilation.declareTypes units (Compilation.ofReferences references)).1
  have htypes : (declared.filter (·.document = i)).map (·.decl) = unit.types := decls_declareTypes hu _
  have hstart : (Array.replicate units.length ({} : BoundUnit))[i]? = some {} := by
    rw [Array.getElem?_replicate, if_pos (List.getElem?_eq_some_iff.1 hu).1]
  have hfits : Fits lo hi unit.types := NamespaceMember.fits_typesAll _ (NamespaceMember.allFitIn_iff.2 h)
  have hplain (hf : firm) (d : DeclaredType) (hd : d ∈ declared) (hi : d.document = i) :
      d.decl.members.all (·.isPlain) = true :=
    hfirm hf d.decl (htypes ▸ List.mem_map.2 ⟨d, List.mem_filter.2 ⟨hd, by simpa using hi⟩, rfl⟩)
  let start : BoundProgram := ⟨(Compilation.declareTypes units (Compilation.ofReferences references)).2,
    Array.replicate units.length {}⟩
  obtain ⟨bound, hbound, -, added, hroots, hlie⟩ :=
    rootsIn_foldl_bindDeclared (show start.units[i]? = some {} from hstart) (htypes ▸ hfits) hplain
  rw [List.nil_append] at hroots
  exact ⟨bound, hbound, hroots ▸ hlie⟩

end BoundProgram

end CultureLint
