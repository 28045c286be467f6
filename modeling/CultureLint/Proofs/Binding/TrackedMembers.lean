import CultureLint.Proofs.Binding.AlikeDeclarations
import CultureLint.Proofs.Binding.TrackedStatements

/-! Members in which the same is written but for some expressions are bound alike, if these expressions are. Outside of
bodies, steps are compared from alike states to alike states. -/

namespace CultureLint

open CultureLint.Part (exprs)

/-! ### Steps outside of bodies -/

namespace BindState

variable {α β : Type}

/-- The step keeps all operations that there are, whatever it starts from. -/
class Adds (m : StateM BindState α) : Prop where
  ext : ∀ s : BindState, s.unit.Extends (m s).2.unit

namespace Adds

variable {m : StateM BindState α} {k : α → StateM BindState β}

instance pure (a : α) : Adds (Pure.pure a : StateM BindState α) := ⟨fun s => .refl s.unit⟩

instance bind [Adds m] [∀ a, Adds (k a)] : Adds (m >>= k) :=
  ⟨fun s => (ext (m := m) s).trans (ext (m := k (m s).1) _)⟩

instance get {k : BindState → StateM BindState β} [∀ s, Adds (k s)] : Adds (MonadState.get >>= k) :=
  ⟨fun s => ext (m := k s) s⟩

instance forM {k : α → StateM BindState Unit} [∀ a, Adds (k a)] (as : List α) : Adds (as.forM k) := by
  induction as with
  | nil => exact .pure ()
  | cons a as ih => exact inferInstanceAs (Adds (k a >>= fun _ => as.forM k))

instance mapM {k : α → StateM BindState β} [∀ a, Adds (k a)] (as : List α) : Adds (as.mapM k) := by
  induction as with
  | nil => exact .pure []
  | cons a as ih =>
    rw [List.mapM_cons]
    infer_instance

end Adds

end BindState

namespace DeclaredType

open CultureLint.BindState (Adds)

variable (declared : DeclaredType)

instance (type : TypeExpr) : Adds (declared.resolveType type) := ⟨fun s => .refl s.unit⟩

instance (frame : Frame) (body : Bind OperationId) [h : Bind.Adds body] : Adds (bindRoot frame body) :=
  ⟨fun s => h.ext frame { s with locals := [] }⟩

instance (frame : Frame) (name : Ident) (value : Expr) (type : Option TypeId) :
    Adds (bindInitializer frame name value type) := by
  unfold bindInitializer
  infer_instance

instance (frame : Frame) (type : Option TypeId) (accessor : Accessor) : Adds (bindAccessor frame type accessor) := by
  unfold bindAccessor
  cases accessor.body with
  | none => infer_instance
  | some body => cases accessor.kind <;> infer_instance

instance (member : MemberDecl) : Adds (declared.bindMember member) := by
  cases member with
  | field d =>
    have (frame : Frame) (type : Option TypeId) (d : Declarator) : Adds (match d.value with
        | some value => bindInitializer frame d.name value type
        | none => return) := by
      cases d.value <;> infer_instance
    unfold bindMember
    infer_instance
  | property d =>
    obtain ⟨attributes, modifiers, type, name, body, value, span⟩ := d
    cases body <;> cases value <;> (unfold bindMember; dsimp only; infer_instance)
  | method d =>
    obtain ⟨attributes, modifiers, returns, name, parameters, body, span⟩ := d
    cases body with
    | none => exact .pure ()
    | some body => cases returns <;> (unfold bindMember; dsimp only; infer_instance)

end DeclaredType

/-! ### Bodies -/

variable {f : Expr → Expr} {g : List Using → List Using}

namespace Comparison

variable {C : Comparison} {α β A B : Type}

theorem Tracks.bindArrow {e e' : Expr} (h : C.TracksPart e e') (u u' : BoundUnit) :
    C.Tracks e.bindArrow e'.bindArrow u u' Whatever := by
  have finish (kind kind' : OperationKind) (u u' : BoundUnit) : C.Tracks
      (Bind.add ⟨kind, none, e.span.origin, true, none⟩) (Bind.add ⟨kind', none, e'.span.origin, true, none⟩) u u'
      Whatever := .addUnnamed (WellKnownTypes.joinsStrings_untyped ..) (WellKnownTypes.joinsStrings_untyped ..)
  unfold Expr.bindArrow
  refine Asks.returnsNothing.skip fun nothing => ?_
  cases nothing with
  | true =>
    have hvalue : C.Tracks (OperationKind.expressionStatement <$> e.bindValue)
        (OperationKind.expressionStatement <$> e'.bindValue) u u' Whatever :=
      (h.value u u').map fun _ _ _ _ _ => trivial
    exact hvalue.bind fun _ _ _ _ _ _ _ => finish _ _ _ _
  | false =>
    refine .read fun frame frame' hframe => ?_
    rw [hframe.returns]
    exact (Tracks.bindConverted h frame.returns).bind fun _ _ _ _ _ _ _ => finish _ _ _ _

end Comparison

open Comparison (Tracks Whatever)

theorem Body.paired {body body' : Body} (h : bare body' = bare (Outline.map f g body)) :
    Paired f body.words (exprs (parts body)) (exprs (parts body')) fun C => ∀ u u',
      C.Tracks body.bind body'.bind u u' Whatever := by
  cases body with
  | block ss span =>
    cases body' with
    | block ss' span' =>
      have hss : bare ss' = bare (Outline.map f g ss) := by injection h
      rw [← Stmt.bareAll_eq, ← Stmt.bareAll_eq, ← Stmt.mapPartsAll_eq] at hss
      have hpairs := Stmt.paired (.block ss span) (.block ss' span') (congrArg (Stmt.block · _) hss)
      have hparts (ss : List Stmt) (span : Span) : parts (Body.block ss span) = (Stmt.block ss span).parts :=
        (Stmt.partsAll_eq ss).symm
      rw [hparts, hparts]
      exact hpairs
    | arrow => cases h
  | arrow value =>
    cases body' with
    | block => cases h
    | arrow value' =>
      have hvalue : bare value' = bare (Outline.map f g value) := by injection h
      exact (Expr.paired hvalue).imp fun C hC u u' => .bindArrow hC u u'

namespace Comparison

variable {C : Comparison} {α β A B : Type}

/-! ### Members -/

open CultureLint.BindState (Adds)

variable (C) in
/-- From alike states both steps come to alike states with the same result. -/
def Follows (m m' : StateM BindState α) : Prop :=
  ∀ s s', C.Alike s s' → (m s).2.unit.Extends C.last → (m' s').2.unit.Extends C.last' →
    C.Alike (m s).2 (m' s').2 ∧ (m' s').1 = (m s).1

namespace Follows

variable {m m' : StateM BindState α} {k k' : α → StateM BindState β}

theorem pure (a : α) : C.Follows (Pure.pure a) (Pure.pure a) := fun _ _ ha _ _ => ⟨ha, rfl⟩

theorem bind [∀ a, Adds (k a)] [∀ a, Adds (k' a)] (h : C.Follows m m') (hk : ∀ a, C.Follows (k a) (k' a)) :
    C.Follows (m >>= k) (m' >>= k') := by
  intro s s' ha hl hl'
  obtain ⟨ha, hr⟩ := h s s' ha ((Adds.ext (m := k _) _).trans hl) ((Adds.ext (m := k' _) _).trans hl')
  change (k' (m' s').1 (m' s').2).2.unit.Extends C.last' at hl'
  change C.Alike _ (k' (m' s').1 (m' s').2).2 ∧ (k' (m' s').1 (m' s').2).1 = _
  rw [hr] at hl' ⊢
  exact hk _ _ _ ha hl hl'

theorem forM {k : A → StateM BindState Unit} {k' : B → StateM BindState Unit} [∀ a, Adds (k a)] [∀ b, Adds (k' b)]
    {as : List A} {bs : List B} (h : List.Forall₂ (fun a b => C.Follows (k a) (k' b)) as bs) :
    C.Follows (as.forM k) (bs.forM k') := by
  induction h with
  | nil => exact .pure ()
  | cons h _ ih => exact h.bind fun _ => ih

theorem mapM {k : A → StateM BindState β} {k' : B → StateM BindState β} [∀ a, Adds (k a)] [∀ b, Adds (k' b)]
    {as : List A} {bs : List B} (h : List.Forall₂ (fun a b => C.Follows (k a) (k' b)) as bs) :
    C.Follows (as.mapM k) (bs.mapM k') := by
  induction h with
  | nil => exact .pure []
  | cons h _ ih =>
    rw [List.mapM_cons, List.mapM_cons]
    exact h.bind fun _ => ih.bind fun _ => .pure _

/-- The type that stands for nothing. -/
theorem void : C.Follows (do return (← MonadState.get).compilation.special? .void)
    (do return (← MonadState.get).compilation.special? .void) := fun _ _ ha _ _ =>
  ⟨ha, congrArg (Compilation.special? · .void) ha.compilation⟩

theorem bindRoot {frame frame' : Frame} (hf : C.Frames frame frame') {body body' : Bind OperationId}
    (h : ∀ u u', C.Tracks body body' u u' Whatever) :
    C.Follows (DeclaredType.bindRoot frame body) (DeclaredType.bindRoot frame' body') := by
  intro s s' ha hl hl'
  have hopen : C.Alike { s with locals := [] } { s' with locals := [] } :=
    ⟨ha.compilation, ha.coherent, ha.grows, rfl, ha.count⟩
  obtain ⟨ha, -⟩ := h _ _ frame frame' { s with locals := [] } { s' with locals := [] } hf rfl rfl hopen hl hl'
  exact ⟨⟨ha.compilation, ha.coherent, ha.grows, ha.locals, ha.count⟩, rfl⟩

end Follows

variable (C) in
/-- Two declarations of one type whose scopes agree about the words that are known. -/
structure Surrounds (d d' : DeclaredType) : Prop where
  type : d'.type = d.type
  scope : ∀ c, C.base.Grows c → ∀ word, C.knows word → d'.scope.resolveName c word = d.scope.resolveName c word

namespace Surrounds

variable {d d' : DeclaredType}

theorem frames (h : C.Surrounds d d') (modifiers : List String) (returns : Option TypeId) (parameters : Variables) :
    C.Frames { d.frame modifiers with returns, parameters } { d'.frame modifiers with returns, parameters } :=
  ⟨h.type, rfl, rfl, rfl, h.scope⟩

theorem follows_resolveType (h : C.Surrounds d d') {type type' : TypeExpr} (ht : type'.bare = type.bare)
    (hw : ∀ word ∈ type.words, C.knows word) : C.Follows (d.resolveType type) (d'.resolveType type') := by
  intro s s' ha hl hl'
  obtain ⟨ha, hr, -⟩ := Tracks.resolveType ht hw (d.frame []) (d'.frame []) s s' (h.frames [] none []) rfl rfl ha
    hl hl'
  exact ⟨ha, hr⟩

end Surrounds

namespace Follows

variable {d d' : DeclaredType}

/-- The parameters of a method. -/
theorem parameters (h : C.Surrounds d d') {ps ps' : List Parameter} (hps : bare ps' = bare ps)
    (hw : ∀ word ∈ ps.flatMap (·.type.words), C.knows word) :
    C.Follows (ps.mapM fun p => do return (p.name.name, ← d.resolveType p.type))
      (ps'.mapM fun p => do return (p.name.name, ← d'.resolveType p.type)) := by
  refine .mapM (((List.forall₂_and_left _ _).2 ⟨fun _ hp => hp, forall₂_bare hps⟩).imp fun p p' hp => ?_)
  have hname : p'.name.name = p.name.name := (congrArg (fun p : Parameter => p.name.name) hp.2 :)
  have htype : p'.type.bare = p.type.bare := (congrArg Parameter.type hp.2 :)
  rw [hname]
  exact (h.follows_resolveType htype fun word hword => hw word (List.mem_flatMap.2 ⟨p, hp.1, hword⟩)).bind
    fun _ => .pure _

theorem bindInitializer (h : C.Surrounds d d') (modifiers : List String) {name name' : Ident}
    (hname : name'.name = name.name) {value value' : Expr} (hvalue : C.TracksPart value value') (type : Option TypeId) :
    C.Follows (DeclaredType.bindInitializer (d.frame modifiers) name value type)
      (DeclaredType.bindInitializer (d'.frame modifiers) name' value' type) := by
  refine bindRoot (h.frames modifiers none []) fun u u' => ?_
  rw [hname]
  exact (Tracks.bindConverted hvalue type).bind fun _ _ _ _ _ _ _ => .addUnnamed rfl rfl

theorem bindAccessor (h : C.Surrounds d d') (modifiers : List String) {a a' : Accessor}
    (hkind : a'.kind = a.kind)
    (hbody : Option.Rel (fun b b' => ∀ u u', C.Tracks b.bind b'.bind u u' Whatever) a.body a'.body)
    (type : Option TypeId) : C.Follows (DeclaredType.bindAccessor (d.frame modifiers) type a)
      (DeclaredType.bindAccessor (d'.frame modifiers) type a') := by
  obtain ⟨kind, body⟩ := a
  obtain ⟨kind', body'⟩ := a'
  dsimp only at hkind hbody
  obtain rfl := hkind
  cases hbody with
  | none => exact .pure ()
  | some hbody =>
    cases kind' with
    | get => exact bindRoot (h.frames modifiers type []) hbody
    | set | init =>
      exact fun s s' => (void.bind fun returns => bindRoot (h.frames modifiers returns [("value", type)]) hbody) s s'

end Follows

end Comparison

open Comparison (Surrounds Follows)

theorem Accessor.paired {a a' : Accessor} (h : bare a' = bare (Outline.map f g a)) :
    Paired f a.words (exprs (parts a)) (exprs (parts a')) fun C => a'.kind = a.kind ∧
      Option.Rel (fun b b' => ∀ u u', C.Tracks (Body.bind b) b'.bind u u' Whatever) a.body a'.body := by
  have hkind : a'.kind = a.kind := (congrArg Accessor.kind h :)
  have hbody : bare a'.body = bare (Outline.map f g a.body) := (congrArg Accessor.body h :)
  exact (Paired.option (fun _ _ h => Body.paired h) hbody).imp fun C hC => ⟨hkind, hC⟩

/-- The value of a declared variable or member, of which the declaration has one or none. -/
theorem Declarator.paired_value {d d' : Declarator} (h : bare d' = bare (Outline.map f g d)) :
    Paired f [] (exprs (parts d)) (exprs (parts d')) fun C => d'.name.name = d.name.name ∧
      Option.Rel C.TracksPart d.value d'.value := by
  have hname : d'.name.name = d.name.name := (congrArg (fun d : Declarator => d.name.name) h :)
  have hvalue : bare d'.value = bare (Outline.map f g d.value) := (congrArg Declarator.value h :)
  exact (Expr.paired_option hvalue).imp fun C hC => ⟨hname, hC⟩

theorem MemberDecl.paired {m m' : MemberDecl} (h : bare m' = bare (Outline.map f g m)) :
    Paired f m.words (exprs (parts m)) (exprs (parts m')) fun C => ∀ d d', C.Surrounds d d' →
      C.Follows (d.bindMember m) (d'.bindMember m') := by
  cases m with
  | field decl =>
    cases m' with
    | field decl' =>
      have h := MemberDecl.field.inj h
      obtain ⟨attributes, modifiers, type, declarators, span⟩ := decl
      obtain ⟨attributes', modifiers', type', declarators', span'⟩ := decl'
      obtain rfl : modifiers' = modifiers := (congrArg FieldDecl.modifiers h :)
      have htype : type'.bare = type.bare := (congrArg FieldDecl.type h :)
      have hds : bare declarators' = bare (Outline.map f g declarators) := (congrArg FieldDecl.declarators h :)
      have hpairs := (Paired.list (fun _ _ h => Declarator.paired_value h) hds).knowing type.words
      refine (hpairs.mono (by simp [List.subset_def, words, headWords])).imp fun C hC d d' hd => ?_
      obtain ⟨hwords, hvalues⟩ := hC
      have step (frame : Frame) (type : Option TypeId) (d : Declarator) : BindState.Adds (match d.value with
          | some value => DeclaredType.bindInitializer frame d.name value type
          | none => return) := by
        cases d.value <;> infer_instance
      refine (hd.follows_resolveType htype hwords).bind fun t => .forM (hvalues.imp fun a a' ha => ?_)
      obtain ⟨hname, hvalue⟩ := ha
      obtain ⟨name, value⟩ := a
      obtain ⟨name', value'⟩ := a'
      cases hvalue with
      | none => exact .pure ()
      | some hvalue => exact .bindInitializer hd modifiers' hname hvalue t
    | _ => cases h
  | property decl =>
    cases m' with
    | property decl' =>
      have h := MemberDecl.property.inj h
      obtain ⟨attributes, modifiers, type, name, body, value, span⟩ := decl
      obtain ⟨attributes', modifiers', type', name', body', value', span'⟩ := decl'
      obtain rfl : modifiers' = modifiers := (congrArg PropertyDecl.modifiers h :)
      have htype : type'.bare = type.bare := (congrArg PropertyDecl.type h :)
      have hname : name'.name = name.name := (congrArg (fun d : PropertyDecl => d.name.name) h :)
      have hbody : bare body' = bare (Outline.map f g body) := (congrArg PropertyDecl.body h :)
      have hfirst : bare value' = bare (Outline.map f g value) := (congrArg PropertyDecl.value h :)
      cases body with
      | arrow result =>
        cases body' with
        | accessors => cases hbody
        | arrow result' =>
          have hresult : bare result' = bare (Outline.map f g result) := by injection hbody
          have hpairs := ((Expr.paired hresult).append (Expr.paired_option hfirst)).knowing type.words
          refine Paired.imp (hpairs.mono (by simp [words, headWords])) fun C hC d d' hd => ?_
          obtain ⟨hwords, hresult, hvalue⟩ := hC
          have hroot (t : Option TypeId) := Follows.bindRoot (hd.frames modifiers' t []) (Tracks.bindArrow hresult)
          have htype := hd.follows_resolveType htype hwords
          unfold DeclaredType.bindMember
          cases hvalue with
          | none => exact htype.bind fun t => (hroot t).bind fun _ => .pure ()
          | some hvalue =>
            exact htype.bind fun t => (hroot t).bind fun _ => .bindInitializer hd modifiers' hname hvalue t
      | accessors items =>
        cases body' with
        | arrow => cases hbody
        | accessors items' =>
          have hitems : bare items' = bare (Outline.map f g items) := by injection hbody
          have hpairs := ((Paired.list (fun _ _ h => Accessor.paired h) hitems).append
            (Expr.paired_option hfirst)).knowing type.words
          have hparts (items : List Accessor) (value : Option Expr) :
              exprs (parts items) ++ exprs (parts value) = exprs (parts items ++ parts value) :=
            (Part.exprs_append _ _).symm
          rw [hparts, hparts] at hpairs
          refine Paired.imp (hpairs.mono (by simp [words, headWords, PropertyBody.words])) fun C hC d d' hd => ?_
          obtain ⟨hwords, hitems, hvalue⟩ := hC
          have hall (t : Option TypeId) : C.Follows (items.forM (DeclaredType.bindAccessor (d.frame modifiers') t))
              (items'.forM (DeclaredType.bindAccessor (d'.frame modifiers') t)) :=
            .forM (hitems.imp fun a a' ha => .bindAccessor hd modifiers' ha.1 ha.2 t)
          have htype := hd.follows_resolveType htype hwords
          unfold DeclaredType.bindMember
          cases hvalue with
          | none => exact htype.bind fun t => (hall t).bind fun _ => .pure ()
          | some hvalue =>
            exact htype.bind fun t => (hall t).bind fun _ => .bindInitializer hd modifiers' hname hvalue t
    | _ => cases h
  | method decl =>
    cases m' with
    | method decl' =>
      have h := MemberDecl.method.inj h
      obtain ⟨attributes, modifiers, returns, name, parameters, body, span⟩ := decl
      obtain ⟨attributes', modifiers', returns', name', parameters', body', span'⟩ := decl'
      obtain rfl : modifiers' = modifiers := (congrArg MethodDecl.modifiers h :)
      have hreturns : bare returns' = bare returns := (congrArg MethodDecl.returns h :)
      have hparameters : bare parameters' = bare parameters := (congrArg MethodDecl.parameters h :)
      have hbody : bare body' = bare (Outline.map f g body) := (congrArg MethodDecl.body h :)
      have hpairs := (Paired.option (fun _ _ h => Body.paired h) hbody).knowing
        (headWords (.method ⟨attributes, modifiers', returns, name, parameters, body, span⟩))
      refine Paired.imp (hpairs.mono (by simp [words])) fun C hC d d' hd => ?_
      obtain ⟨hwords, hbodies⟩ := hC
      simp only [headWords, List.mem_append, or_imp, forall_and] at hwords
      cases hbodies with
      | none => exact .pure ()
      | some htracks =>
        have hall := Follows.parameters hd hparameters hwords.2
        have hroot (returns : Option TypeId) (ps : Variables) :=
          Follows.bindRoot (hd.frames modifiers' returns ps) htracks
        unfold DeclaredType.bindMember
        cases returns with
        | none =>
          obtain rfl : returns' = none := Option.map_eq_none_iff.1 hreturns
          exact Follows.void.bind fun t => hall.bind (hroot t)
        | some type =>
          obtain ⟨type', rfl, htype⟩ := Option.map_eq_some_iff.1 hreturns
          exact (hd.follows_resolveType htype hwords.1.2).bind fun t => hall.bind (hroot t)
    | _ => cases h

end CultureLint
