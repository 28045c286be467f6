import CultureLint.Binding.Project
import CultureLint.Document.Basic
import CultureLint.Proofs.Binding.Declarations
import CultureLint.Proofs.Binding.Statements

/-! The operations of every document of a program: once all bodies are bound they form a finished forest,
and what joins strings joins operands of expressions of the same document. -/

namespace CultureLint

/-! ### Members -/

/-- What surrounds a body has known types. -/
structure Frame.Known (frame : Frame) (c : Compilation) : Prop where
  containing : c.Has frame.containing
  returns : c.Knows frame.returns
  parameters : ∀ v ∈ frame.parameters, c.Knows v.2

/-- Between two bodies no operation is free. -/
structure Rooted (operand : Expr → Prop) (s t : BindState) : Prop where
  grows : s.compilation.Grows t.compilation
  inv : UnitInv operand t.compilation t.unit []

namespace Rooted

variable {operand : Expr → Prop} {s t u : BindState} {α : Type}

theorem trans (h : Rooted operand s t) (h' : Rooted operand t u) : Rooted operand s u :=
  ⟨h.grows.trans h'.grows, h'.inv⟩

theorem same (h : UnitInv operand s.compilation s.unit []) : Rooted operand s s := ⟨.refl _, h⟩

theorem bind {m : StateM BindState α} {f : α → StateM BindState Unit} (hm : Rooted operand s (m s).2)
    (hf : Rooted operand (m s).2 (f (m s).1 (m s).2).2) : Rooted operand s ((m >>= f) s).2 :=
  hm.trans hf

theorem forM {f : α → StateM BindState Unit} {xs : List α} {P : Compilation → Prop}
    (h : UnitInv operand s.compilation s.unit []) (hs : P s.compilation)
    (hP : ∀ c d : Compilation, c.Grows d → P c → P d)
    (hf : ∀ x ∈ xs, ∀ s, UnitInv operand s.compilation s.unit [] → P s.compilation →
      Rooted operand s (f x s).2) : Rooted operand s (xs.forM f s).2 := by
  induction xs generalizing s with
  | nil => exact .same h
  | cons x xs ih =>
    obtain ⟨hx, hxs⟩ := List.forall_mem_cons.1 hf
    have hx := hx s h hs
    exact hx.trans (ih hx.inv (hP _ _ hx.grows hs) hxs)

end Rooted

namespace DeclaredType

variable {operand : Expr → Prop} {s : BindState} {frame : Frame}

theorem rooted_bindRoot {body : Bind OperationId} (h : UnitInv operand s.compilation s.unit [])
    (hframe : frame.Known s.compilation)
    (hbody : ∀ t, BodyInv operand frame t [] → s.compilation.Grows t.compilation →
      Bind.Ends operand frame t (body frame t) (fun r => [r]) fun _ _ => True) :
    Rooted operand s (bindRoot frame body s).2 := by
  have start : BodyInv operand frame { s with locals := [] } [] :=
    ⟨h, by simp, hframe.containing, hframe.returns, hframe.parameters⟩
  have done := hbody _ start (.refl _)
  exact ⟨done.later.grows, done.inv.toUnitInv.addRoot⟩

theorem rooted_bindInitializer {value : Expr} {type : Option TypeId} (name : Ident)
    (hv : Covers operand (value.walk 0)) (h : UnitInv operand s.compilation s.unit [])
    (hframe : frame.Known s.compilation) (ht : s.compilation.Knows type) :
    Rooted operand s (bindInitializer frame name value type s).2 := by
  refine rooted_bindRoot h hframe fun t h hg => ?_
  refine .bind (Expr.ends_bindConverted hv (hg.within.knows ht) h) fun op u hl h _ => ?_
  exact (Bind.ends_add h rfl (.of_isPlain rfl ((hg.trans hl.grows).within.knows ht))).mono
    fun _ _ _ _ _ => trivial

theorem rooted_body {body : Body} (hb : Covers operand body.walk)
    (h : UnitInv operand s.compilation s.unit []) (hframe : frame.Known s.compilation) :
    Rooted operand s (bindRoot frame body.bind s).2 :=
  rooted_bindRoot h hframe fun _ h _ => Body.ends_bind hb h

theorem rooted_bindAccessor {type : Option TypeId} {accessor : Accessor}
    (ha : Covers operand accessor.walk) (h : UnitInv operand s.compilation s.unit [])
    (hframe : frame.Known s.compilation) (ht : s.compilation.Knows type) :
    Rooted operand s (bindAccessor frame type accessor s).2 := by
  obtain ⟨kind, body⟩ := accessor
  cases body with
  | none => exact .same h
  | some body =>
    have hset : Rooted operand s (bindRoot { frame with
        returns := s.compilation.special? .void, parameters := [("value", type)] } body.bind s).2 :=
      rooted_body ha h ⟨hframe.containing, h.coherent.knows_special? _, by simpa using ht⟩
    cases kind with
    | get => exact rooted_body ha h ⟨hframe.containing, ht, hframe.parameters⟩
    | set | init => exact hset

variable (declared : DeclaredType)

theorem rooted_resolveType (h : UnitInv operand s.compilation s.unit []) (type : TypeExpr) :
    Rooted operand s (declared.resolveType type s).2 ∧
      (declared.resolveType type s).2.compilation.Knows (declared.resolveType type s).1 := by
  obtain ⟨hg, hc, hk⟩ := Scope.makes_resolveType declared.scope h.coherent type
  exact ⟨⟨hg, h.grow hc hg⟩, hk⟩

theorem known_frame (hd : s.compilation.Has declared.type) (modifiers : List String) :
    (declared.frame modifiers).Known s.compilation :=
  ⟨hd, Compilation.knows_none _, by simp [frame]⟩

theorem exists_rooted_parameters (parameters : List Parameter)
    (h : UnitInv operand s.compilation s.unit []) :
    ∃ types t, (parameters.mapM fun p => do
      return (p.name.name, ← declared.resolveType p.type) : StateM BindState Variables) s = (types, t) ∧
      Rooted operand s t ∧ ∀ v ∈ types, t.compilation.Knows v.2 := by
  induction parameters generalizing s with
  | nil => exact ⟨[], s, rfl, .same h, by simp⟩
  | cons p ps ih =>
    obtain ⟨hr, hk⟩ := declared.rooted_resolveType h p.type
    obtain ⟨types, t, ht, hrs, hks⟩ := ih hr.inv
    refine ⟨(p.name.name, (declared.resolveType p.type s).1) :: types, t, ?_, hr.trans hrs,
      List.forall_mem_cons.2 ⟨hrs.grows.within.knows hk, hks⟩⟩
    rw [List.mapM_cons]
    exact congrArg (Prod.map (fun types =>
      (p.name.name, (declared.resolveType p.type s).1) :: types) id) ht

theorem rooted_bindMember {member : MemberDecl} (hm : Covers operand member.walk)
    (h : UnitInv operand s.compilation s.unit []) (hd : s.compilation.Has declared.type) :
    Rooted operand s (declared.bindMember member s).2 := by
  cases member with
  | field decl =>
    obtain ⟨hr, hk⟩ := declared.rooted_resolveType h decl.type
    refine .bind hr (.forM hr.inv (P := fun c => c.Has declared.type ∧
      c.Knows (declared.resolveType decl.type s).1) ⟨hr.grows.within.has hd, hk⟩
      (fun c d hg hp => ⟨hg.within.has hp.1, hg.within.knows hp.2⟩) fun d hdecl s h hp => ?_)
    have hd' : Covers operand d.walk := covers_flatMap.1 hm d hdecl
    cases hv : d.value with
    | none => exact .same h
    | some value =>
      exact rooted_bindInitializer d.name (by simpa [Declarator.walk, hv] using hd') h
        (declared.known_frame hp.1 _) hp.2
  | property decl =>
    rw [MemberDecl.walk, covers_append] at hm
    obtain ⟨hr, hk⟩ := declared.rooted_resolveType h decl.type
    have hframe := declared.known_frame (hr.grows.within.has hd) decl.modifiers
    -- Behind the body comes the initial value, if there is one.
    have initial {t : BindState} {value : Expr} (hv : decl.value = some value)
        (ht : Rooted operand (declared.resolveType decl.type s).2 t) :
        Rooted operand (declared.resolveType decl.type s).2 (bindInitializer (declared.frame decl.modifiers)
          decl.name value (declared.resolveType decl.type s).1 t).2 :=
      ht.trans (rooted_bindInitializer decl.name (covers_getD hm.2 hv) ht.inv
        (declared.known_frame ((hr.grows.trans ht.grows).within.has hd) _) (ht.grows.within.knows hk))
    refine .bind hr ?_
    cases hb : decl.body with
    | arrow value =>
      rw [hb] at hm
      let inner : Frame := { declared.frame decl.modifiers with
        returns := (declared.resolveType decl.type s).1 }
      have hinner : inner.Known (declared.resolveType decl.type s).2.compilation :=
        ⟨hframe.containing, hk, hframe.parameters⟩
      have root : Rooted operand (declared.resolveType decl.type s).2
          (bindRoot inner value.bindArrow (declared.resolveType decl.type s).2).2 :=
        rooted_bindRoot hr.inv hinner fun _ h _ => Expr.ends_bindArrow hm.1 h
      cases hv : decl.value with
      | none => exact root
      | some value => exact initial hv root
    | accessors items =>
      rw [hb] at hm
      have all : Rooted operand (declared.resolveType decl.type s).2
          (items.forM (bindAccessor (declared.frame decl.modifiers) (declared.resolveType decl.type s).1)
            (declared.resolveType decl.type s).2).2 := by
        refine .forM hr.inv (P := fun c => (declared.frame decl.modifiers).Known c ∧
          c.Knows (declared.resolveType decl.type s).1) ⟨hframe, hk⟩ ?_ fun a ha t h ht =>
            rooted_bindAccessor (covers_flatMap.1 hm.1 a ha) h ht.1 ht.2
        exact fun c d hg hp => ⟨⟨hg.within.has hp.1.containing, hg.within.knows hp.1.returns,
          fun v hv => hg.within.knows (hp.1.parameters v hv)⟩, hg.within.knows hp.2⟩
      cases hv : decl.value with
      | none => exact all
      | some value => exact initial hv all
  | method decl =>
    unfold bindMember
    dsimp only
    cases hb : decl.body with
    | none => exact .same h
    | some body =>
      have hb' : Covers operand body.walk := covers_getD hm hb
      have inner {t : BindState} {returns : Option TypeId} (ht : UnitInv operand t.compilation t.unit [])
          (hd : t.compilation.Has declared.type) (hreturns : t.compilation.Knows returns) :
          Rooted operand t ((do
            let parameters ← decl.parameters.mapM fun p => do
              return (p.name.name, ← declared.resolveType p.type)
            bindRoot { declared.frame decl.modifiers with returns, parameters } body.bind :
              StateM BindState Unit) t).2 := by
        obtain ⟨parameters, u, hu, hr, hk⟩ :=
          declared.exists_rooted_parameters decl.parameters ht
        refine .bind (hu ▸ hr) ?_
        rw [hu]
        exact rooted_body hb' hr.inv ⟨hr.grows.within.has hd, hr.grows.within.knows hreturns, hk⟩
      cases decl.returns with
      | some type =>
        obtain ⟨hr, hk⟩ := declared.rooted_resolveType h type
        exact .bind hr (inner hr.inv (hr.grows.within.has hd) hk)
      | none => exact inner h hd (h.coherent.knows_special? _)

end DeclaredType

/-! ### Programs -/

theorem UnitInv.empty {operand : Expr → Prop} {c : Compilation} (h : c.Coherent) :
    UnitInv operand c {} [] := ⟨h, .empty, fun id op hop => by simp [BoundUnit.get?] at hop⟩

namespace BoundProgram

/-- What holds of a program while its documents are bound: the operations of each document make a forest
in which none is free. -/
structure Bound (operand : Nat → Expr → Prop) (program : BoundProgram) : Prop where
  coherent : program.compilation.Coherent
  unit : ∀ i unit, program.units[i]? = some unit → UnitInv (operand i) program.compilation unit []

variable {operand : Nat → Expr → Prop} {program : BoundProgram}

theorem bound_bindDeclared {declared : DeclaredType} (h : Bound operand program)
    (hd : program.compilation.Has declared.type)
    (hc : Covers (operand declared.document) (declared.decl.members.flatMap MemberDecl.walk)) :
    Bound operand (program.bindDeclared declared) ∧
      program.compilation.Grows (program.bindDeclared declared).compilation := by
  have start : UnitInv (operand declared.document) program.compilation
      (program.units[declared.document]?.getD {}) [] := by
    cases hu : program.units[declared.document]? with
    | none => exact UnitInv.empty h.coherent
    | some unit => exact h.unit _ _ hu
  have done : Rooted (operand declared.document)
      ⟨program.compilation, program.units[declared.document]?.getD {}, []⟩
      ((declared.decl.members.forM declared.bindMember)
        ⟨program.compilation, program.units[declared.document]?.getD {}, []⟩).2 :=
    .forM start (P := fun c => c.Has declared.type) hd (fun _ _ hg => hg.within.has)
      fun m hm s hs hd => declared.rooted_bindMember (covers_flatMap.1 hc m hm) hs hd
  refine ⟨⟨done.inv.coherent, fun i unit hu => ?_⟩, done.grows⟩
  change (program.units.setIfInBounds declared.document _)[i]? = some unit at hu
  rw [Array.getElem?_setIfInBounds] at hu
  split at hu
  case isTrue hi =>
    subst hi
    split at hu
    · cases hu
      exact done.inv
    · cases hu
  case isFalse => exact (h.unit i unit hu).grow done.inv.coherent done.grows

/-- The expressions that are operands of a concatenation in a document. -/
def operandsOf (units : List CompilationUnit) (document : Nat) (e : Expr) : Prop :=
  ∃ unit, units[document]? = some unit ∧ ∃ p ∈ unit.walk, e ∈ p.1.concatOperands

theorem bound_foldl_bindDeclared {ds : List DeclaredType} (h : Bound operand program)
    (hd : ∀ x ∈ ds, program.compilation.Has x.type)
    (hc : ∀ x ∈ ds, Covers (operand x.document) (x.decl.members.flatMap MemberDecl.walk)) :
    Bound operand (ds.foldl bindDeclared program) := by
  induction ds generalizing program with
  | nil => exact h
  | cons x ds ih =>
    obtain ⟨hx, hd⟩ := List.forall_mem_cons.1 hd
    obtain ⟨hxc, hc⟩ := List.forall_mem_cons.1 hc
    obtain ⟨hb, hg⟩ := bound_bindDeclared h hx hxc
    exact ih hb (fun y hy => hg.within.has (hd y hy)) hc

/-- A program is bound as it should be, whatever its documents are. -/
theorem bound_ofUnits (references : List Reference) (units : List CompilationUnit) :
    Bound (operandsOf units) (ofUnits references units) := by
  obtain ⟨_, hc, hdeclared⟩ :=
    Compilation.declares_declareTypes units (Compilation.coherent_ofReferences references)
  refine bound_foldl_bindDeclared ⟨hc, fun i unit hu => ?_⟩ (fun x hx => ?_) fun x hx p hp e he => ?_
  · rw [Array.getElem?_replicate] at hu
    split at hu
    · cases hu
      exact UnitInv.empty hc
    · cases hu
  · obtain ⟨_, _, hd⟩ := hdeclared x hx
    exact hd.type
  · obtain ⟨unit, hu, hd⟩ := hdeclared x hx
    exact ⟨unit, hu, p, hd.visited hp, he⟩

end BoundProgram

/-- The expressions that are operands of a concatenation in a document. -/
def Document.IsOperand (d : Document) (e : Expr) : Prop := ∃ p ∈ d.tree.unit.walk, e ∈ p.1.concatOperands

/-- The operations of a document that is bound in a project are as they should be. -/
theorem Project.unitInv_of_mem_snapshots {p : Project} {s : Snapshot} (hs : s ∈ p.snapshots) :
    UnitInv s.document.IsOperand s.compilation s.unit [] := by
  obtain ⟨⟨document, index⟩, hi, rfl⟩ := List.mem_map.1 hs
  have hbound := BoundProgram.bound_ofUnits p.references (p.documents.map (·.tree.unit))
  have hoperand : BoundProgram.operandsOf (p.documents.map (·.tree.unit)) index =
      document.IsOperand := by
    funext e
    have := List.mem_zipIdx_iff_getElem?.1 hi
    simp [BoundProgram.operandsOf, this, Document.IsOperand]
  cases hu : p.bind.units[index]? with
  | none =>
    simp only [hu, Option.getD_none]
    exact UnitInv.empty hbound.coherent
  | some unit =>
    simp only [hu, Option.getD_some]
    exact hoperand ▸ hbound.unit index unit hu

end CultureLint
