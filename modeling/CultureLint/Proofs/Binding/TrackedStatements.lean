import CultureLint.Proofs.Binding.TrackedExpressions
import CultureLint.Proofs.Tree.Outline

/-! Statements in which the same is written but for some expressions are bound alike, if these expressions are. The
outermost expressions of two such statements pair up; `Paired` says so, and that some fact follows for every
comparison that tracks the pairs. -/

namespace CultureLint

open CultureLint.Part (exprs)

/-! ### Trees one by one -/

section

variable {α : Type} [Bare α] [Outline α] {as as' : List α}

omit [Outline α] in
theorem forall₂_bare (h : bare as' = bare as) :
    List.Forall₂ (fun a a' => bare a' = bare a) as as' := by
  induction as generalizing as' with
  | nil =>
    obtain rfl : as' = [] := List.map_eq_nil_iff.1 h
    exact .nil
  | cons a as ih =>
    cases as' with
    | nil => cases h
    | cons a' as' =>
      rw [bare_cons, bare_cons, List.cons.injEq] at h
      exact .cons h.1 (ih h.2)

/-- Trees in which the same is written but for expressions, one by one. -/
theorem forall₂_map {f : Expr → Expr} {g : List Using → List Using}
    (h : bare as' = bare (Outline.map f g as)) :
    List.Forall₂ (fun a a' => bare a' = bare (Outline.map f g a)) as as' :=
  List.forall₂_map_left_iff.1 (forall₂_bare h)

omit [Bare α] in
theorem exprs_parts_list (as : List α) : exprs (parts as) = as.flatMap fun a => exprs (parts a) := by
  induction as with
  | nil => rfl
  | cons a as ih => rw [parts_cons, Part.exprs_append, ih, List.flatMap_cons]

end

/-! ### Pairs of expressions -/

/-- The outermost expressions of two trees pair up, each new one written as `f` makes it of the old one. If a
comparison tracks the pairs and knows the words, the fact holds of it. -/
def Paired (f : Expr → Expr) (words : List String) (es es' : List Expr) (Q : Comparison → Prop) : Prop :=
  ∃ pairs : List (Expr × Expr), pairs.map Prod.fst = es ∧ pairs.map Prod.snd = es' ∧
    (∀ p ∈ pairs, p.2.bare = (f p.1).bare) ∧
    ∀ C : Comparison, (∀ p ∈ pairs, C.TracksPart p.1 p.2) → (∀ word ∈ words, C.knows word) → Q C

namespace Paired

variable {f : Expr → Expr} {words words' : List String} {es es' ds ds' : List Expr} {Q Q' : Comparison → Prop}

theorem nil (h : ∀ C, (∀ word ∈ words, C.knows word) → Q C) : Paired f words [] [] Q :=
  ⟨[], rfl, rfl, by simp, fun C _ => h C⟩

theorem one {e e' : Expr} (h : e'.bare = (f e).bare) : Paired f [] [e] [e'] fun C => C.TracksPart e e' :=
  ⟨[(e, e')], rfl, rfl, by simpa using h, fun C hC _ => hC _ (List.mem_singleton_self _)⟩

theorem append (h : Paired f words es es' Q) (h' : Paired f words' ds ds' Q') :
    Paired f (words ++ words') (es ++ ds) (es' ++ ds') fun C => Q C ∧ Q' C := by
  obtain ⟨pairs, rfl, rfl, hbare, hQ⟩ := h
  obtain ⟨pairs', rfl, rfl, hbare', hQ'⟩ := h'
  refine ⟨pairs ++ pairs', List.map_append, List.map_append, ?_, fun C hC hw => ⟨?_, ?_⟩⟩
  · exact fun p hp => (List.mem_append.1 hp).elim (hbare p) (hbare' p)
  · exact hQ C (fun p hp => hC p (List.mem_append_left _ hp)) fun w hw' => hw w (List.mem_append_left _ hw')
  · exact hQ' C (fun p hp => hC p (List.mem_append_right _ hp)) fun w hw' => hw w (List.mem_append_right _ hw')

theorem imp (h : Paired f words es es' Q) (hq : ∀ C, Q C → Q' C) : Paired f words es es' Q' := by
  obtain ⟨pairs, hes, hes', hbare, hQ⟩ := h
  exact ⟨pairs, hes, hes', hbare, fun C hC hw => hq C (hQ C hC hw)⟩

theorem mono (h : Paired f words es es' Q) (hsub : words ⊆ words') : Paired f words' es es' Q := by
  obtain ⟨pairs, hes, hes', hbare, hQ⟩ := h
  exact ⟨pairs, hes, hes', hbare, fun C hC hw => hQ C hC fun w hw' => hw w (hsub hw')⟩

/-- The new expressions are written as they are made of the old ones. -/
theorem bare_eq (h : Paired f words es es' Q) : bare es' = bare (es.map f) := by
  obtain ⟨pairs, rfl, rfl, hbare, -⟩ := h
  change (pairs.map Prod.snd).map bare = ((pairs.map Prod.fst).map f).map bare
  rw [List.map_map, List.map_map, List.map_map]
  exact List.map_congr_left hbare

/-- More words may be known. -/
theorem knowing (h : Paired f words es es' Q) (more : List String) :
    Paired f (more ++ words) es es' fun C => (∀ word ∈ more, C.knows word) ∧ Q C := by
  obtain ⟨pairs, hes, hes', hbare, hQ⟩ := h
  exact ⟨pairs, hes, hes', hbare, fun C hC hw =>
    ⟨fun w hw' => hw w (List.mem_append_left _ hw'), hQ C hC fun w hw' => hw w (List.mem_append_right _ hw')⟩⟩

variable {α : Type} [Outline α] [Bare α] {g : List Using → List Using} {named : α → List String}
  {R : Comparison → α → α → Prop}

/-- Of anything one by one. -/
theorem forall₂ {A B : Type} {G : A → B → Prop} {es : A → List Expr} {es' : B → List Expr} {named : A → List String}
    {R : Comparison → A → B → Prop} (h : ∀ a b, G a b → Paired f (named a) (es a) (es' b) (R · a b)) {as : List A}
    {bs : List B} (hs : List.Forall₂ G as bs) :
    Paired f (as.flatMap named) (as.flatMap es) (bs.flatMap es') fun C => List.Forall₂ (R C) as bs := by
  induction hs with
  | nil => exact nil fun _ _ => .nil
  | cons hab _ ih => exact ((h _ _ hab).append ih).imp fun _ hC => .cons hC.1 hC.2

/-- Of trees one by one. -/
theorem list (h : ∀ a a', bare a' = bare (Outline.map f g a) →
      Paired f (named a) (exprs (parts a)) (exprs (parts a')) (R · a a')) {as as' : List α}
    (has : bare as' = bare (Outline.map f g as)) : Paired f (as.flatMap named) (exprs (parts as)) (exprs (parts as'))
      fun C => List.Forall₂ (R C) as as' := by
  rw [exprs_parts_list, exprs_parts_list]
  exact forall₂ h (forall₂_map has)

theorem option (h : ∀ a a', bare a' = bare (Outline.map f g a) →
      Paired f (named a) (exprs (parts a)) (exprs (parts a')) (R · a a')) {a a' : Option α}
    (ha : bare a' = bare (Outline.map f g a)) : Paired f ((a.map named).getD []) (exprs (parts a)) (exprs (parts a'))
      fun C => Option.Rel (R C) a a' := by
  cases a with
  | none =>
    obtain rfl : a' = none := Option.map_eq_none_iff.1 ha
    exact nil fun _ _ => .none
  | some a =>
    cases a' with
    | none => cases ha
    | some a' => exact (h a a' (Option.some.inj ha)).imp fun _ => .some

end Paired

/-! ### Steps -/

namespace Comparison

open CultureLint.Bind (Adds)

variable {C : Comparison} {u u' : BoundUnit}

namespace Tracks

variable {α β A B : Type}

theorem mapM {f : A → Bind α} {f' : B → Bind β} [∀ a, Adds (f a)] [∀ b, Adds (f' b)] {as : List A} {bs : List B}
    (h : List.Forall₂ (fun a b => ∀ u u', C.Tracks (f a) (f' b) u u' Whatever) as bs) :
    C.Tracks (as.mapM f) (bs.mapM f') u u' fun rs rs' _ _ => rs'.length = rs.length := by
  induction h generalizing u u' with
  | nil => exact pure rfl
  | cons h _ ih =>
    rw [List.mapM_cons, List.mapM_cons]
    exact (h _ _).bind fun _ _ _ _ _ _ _ => ih.bind fun _ _ _ _ _ _ hl => pure (congrArg (· + 1) hl)

theorem optionMapM {f : A → Bind α} {f' : B → Bind β} {R : A → B → Prop} {a : Option A} {b : Option B}
    (h : Option.Rel R a b) (hf : ∀ a b, R a b → C.Tracks (f a) (f' b) u u' Whatever) :
    C.Tracks (a.mapM f) (b.mapM f') u u' Whatever := by
  cases h with
  | none => exact pure trivial
  | some h => exact (hf _ _ h).map fun _ _ _ _ _ => trivial

theorem inBlock {m : Bind α} {m' : Bind β} {R : α → β → BoundUnit → BoundUnit → Prop} (h : C.Tracks m m' u u' R) :
    C.Tracks (Bind.inBlock m) (Bind.inBlock m') u u' R := by
  intro f f' s s' hf hs hs' ha hl hl'
  have hopen : C.Alike { s with locals := [] :: s.locals } { s' with locals := [] :: s'.locals } :=
    ⟨ha.compilation, ha.coherent, ha.grows, congrArg (List.cons []) ha.locals, ha.count⟩
  obtain ⟨hdone, hr⟩ := h f f' { s with locals := [] :: s.locals } { s' with locals := [] :: s'.locals } hf hs hs'
    hopen hl hl'
  exact ⟨⟨hdone.compilation, hdone.coherent, hdone.grows, congrArg List.tail hdone.locals, hdone.count⟩, hr⟩

/-- A local is known from its declaration on. -/
theorem declare (name : String) (type : Option TypeId) (value value' : Option OperationId) (span span' : Span) :
    C.Tracks
      (do
        Bind.declareLocal name type
        Bind.add ⟨.variableDeclaration name value, type, span.origin, false, none⟩)
      (do
        Bind.declareLocal name type
        Bind.add ⟨.variableDeclaration name value', type, span'.origin, false, none⟩) u u' Whatever := by
  rintro f f' s s' hf rfl rfl ha hl hl'
  let declared (s : BindState) : BindState := (Bind.declareLocal name type f s).2
  -- what is declared depends on nothing but the locals
  have hlocals : (declared s').locals = (declared s).locals :=
    congrArg (fun locals => (declared { s with locals }).locals) ha.locals
  have ha' : C.Alike (declared s) (declared s') := ⟨ha.compilation, ha.coherent, ha.grows, hlocals, ha.count⟩
  have hadds : C.Tracks (Bind.add ⟨.variableDeclaration name value, type, span.origin, false, none⟩)
      (Bind.add ⟨.variableDeclaration name value', type, span'.origin, false, none⟩) s.unit s'.unit Whatever :=
    addUnnamed rfl rfl
  exact hadds f f' (declared s) (declared s') hf rfl rfl ha' hl hl'

theorem bindConverted {e e' : Expr} (h : C.TracksPart e e') (target : Option TypeId) :
    C.Tracks (e.bindConverted target) (e'.bindConverted target) u u' Whatever :=
  (h.value u u').bind fun _ _ _ _ _ _ hr => (convert hr h.shares target).imp fun _ _ _ _ _ => trivial

theorem bindCondition {e e' : Expr} (h : C.TracksPart e e') :
    C.Tracks (Stmt.bindCondition e) (Stmt.bindCondition e') u u' Whatever :=
  (Asks.special _).skip fun _ => bindConverted h _

theorem bindExpression {e e' : Expr} (h : C.TracksPart e e') :
    C.Tracks (Stmt.bindExpression e) (Stmt.bindExpression e') u u' Whatever :=
  (h.value u u').bind fun _ _ _ _ _ _ _ => addStmt _ _ _ _

theorem bindLocal {d d' : Declarator} (hname : d'.name.name = d.name.name)
    (h : Option.Rel C.TracksPart d.value d'.value)
    (isImplicit : Bool) (declared : Option TypeId) :
    C.Tracks (d.bindLocal isImplicit declared) (d'.bindLocal isImplicit declared) u u' Whatever := by
  obtain ⟨name, value⟩ := d
  obtain ⟨name', value'⟩ := d'
  dsimp only at hname h
  unfold Declarator.bindLocal
  rw [hname]
  cases h with
  | none => exact declare _ _ _ _ _ _
  | some h =>
    refine ite (fun _ => ?_) fun _ => ?_
    · exact (h.value u u').bind fun _ _ _ _ _ _ hr => (Asks.typeOf hr).skip fun _ => declare _ _ _ _ _ _
    · exact (bindConverted h declared).bind fun _ _ _ _ _ _ _ => declare _ _ _ _ _ _

/-- How declared locals become one operation: one is taken as it is, and any other number of them is a block. -/
structure Gathers (span : Span) (k : List OperationId → Bind OperationId) : Prop where
  none : k [] = Bind.add ⟨.block [], Option.none, span.origin, true, Option.none⟩
  one : ∀ op, k [op] = Pure.pure op
  more : ∀ a b ops, k (a :: b :: ops) = Bind.add ⟨.block (a :: b :: ops), Option.none, span.origin, true, Option.none⟩

section Gathers

variable {span span' : Span} {k k' : List OperationId → Bind OperationId}

theorem Gathers.adds (hk : Gathers span k) (ops : List OperationId) : Adds (k ops) := by
  cases ops with
  | nil => exact hk.none ▸ inferInstance
  | cons a ops =>
    cases ops with
    | nil => exact hk.one a ▸ inferInstance
    | cons b ops => exact hk.more a b ops ▸ inferInstance

theorem of_gathers (hk : Gathers span k) (hk' : Gathers span' k') {ops ops' : List OperationId}
    (hl : ops'.length = ops.length) : C.Tracks (k ops) (k' ops') u u' Whatever := by
  cases ops with
  | nil =>
    rw [List.eq_nil_of_length_eq_zero hl, hk.none, hk'.none]
    exact addUnnamed rfl rfl
  | cons a ops =>
    cases ops with
    | nil =>
      obtain ⟨a', rfl⟩ := List.length_eq_one_iff.1 hl
      rw [hk.one, hk'.one]
      exact pure trivial
    | cons b ops =>
      obtain ⟨a', b', ops', rfl⟩ : ∃ a' b' rest, ops' = a' :: b' :: rest := by
        obtain ⟨a', rest, rfl⟩ := List.exists_cons_of_length_eq_add_one hl
        obtain ⟨b', rest, rfl⟩ := List.exists_cons_of_length_eq_add_one (Nat.succ.inj hl)
        exact ⟨a', b', rest, rfl⟩
      rw [hk.more, hk'.more]
      exact addUnnamed rfl rfl

end Gathers

theorem bindLocals {type type' : TypeExpr} (ht : type'.bare = type.bare) (hw : ∀ word ∈ type.words, C.knows word)
    {ds ds' : List Declarator} (h : List.Forall₂ (fun d d' => ∀ isImplicit declared u u',
      C.Tracks (d.bindLocal isImplicit declared) (d'.bindLocal isImplicit declared) u u' Whatever) ds ds')
    (span span' : Span) : C.Tracks (Stmt.bindLocals type ds span) (Stmt.bindLocals type' ds' span') u u' Whatever := by
  have adds {span : Span} {k : List OperationId → Bind OperationId} (hk : Gathers span k) (ds : List Declarator)
      (implicit : Bool) (t : Option TypeId) : Adds (ds.mapM (fun d => d.bindLocal implicit t) >>= k) :=
    have := hk.adds
    inferInstance
  have rest {k k' : List OperationId → Bind OperationId} (hk : Gathers span k) (hk' : Gathers span' k')
      (implicit : Bool) (t : Option TypeId) (v v' : BoundUnit) :
      C.Tracks (ds.mapM (fun d => d.bindLocal implicit t) >>= k) (ds'.mapM (fun d => d.bindLocal implicit t) >>= k')
        v v' Whatever :=
    bind_of_adds hk.adds hk'.adds (mapM (h.imp fun _ _ hd => hd _ _)) fun _ _ _ _ _ _ hl => of_gathers hk hk' hl
  refine bind_of_adds (fun t => ?_) (fun t => ?_) (resolveType ht hw) fun t t' v v' _ _ hr => ?_
  · exact adds ⟨rfl, fun _ => rfl, fun _ _ _ => rfl⟩ ds _ t
  · exact adds ⟨rfl, fun _ => rfl, fun _ _ _ => rfl⟩ ds' _ t
  · obtain ⟨rfl, -, -⟩ := hr
    -- only `var` is treated in its own way
    cases type with
    | implicit =>
      cases type' with
      | implicit => exact rest ⟨rfl, fun _ => rfl, fun _ _ _ => rfl⟩ ⟨rfl, fun _ => rfl, fun _ _ _ => rfl⟩ true _ _ _
      | _ => cases ht
    | _ =>
      cases type' with
      | implicit => cases ht
      | _ => exact rest ⟨rfl, fun _ => rfl, fun _ _ _ => rfl⟩ ⟨rfl, fun _ => rfl, fun _ _ _ => rfl⟩ false _ _ _

end Tracks

end Comparison

/-! ### Statements -/

open Comparison (Tracks Whatever)

variable {f : Expr → Expr} {g : List Using → List Using}

theorem Expr.paired {e e' : Expr} (h : bare e' = bare (Outline.map f g e)) :
    Paired f [] (exprs (parts e)) (exprs (parts e')) fun C => C.TracksPart e e' := .one h

theorem Expr.paired_option {e e' : Option Expr} (h : Bare.bare e' = Bare.bare (Outline.map f g e)) :
    Paired f [] (exprs (parts e)) (exprs (parts e')) fun C => Option.Rel C.TracksPart e e' :=
  (Paired.option (fun _ _ h => Expr.paired h) h).mono (by cases e <;> simp)

theorem Expr.paired_list {es es' : List Expr} (h : Bare.bare es' = Bare.bare (Outline.map f g es)) :
    Paired f [] (exprs (parts es)) (exprs (parts es')) fun C => List.Forall₂ C.TracksPart es es' :=
  (Paired.list (fun _ _ h => Expr.paired h) h).mono (by simp [List.subset_def])

theorem Declarator.paired {d d' : Declarator} (h : bare d' = bare (Outline.map f g d)) :
    Paired f [] (exprs (parts d)) (exprs (parts d')) fun C => ∀ isImplicit declared u u',
      C.Tracks (d.bindLocal isImplicit declared) (d'.bindLocal isImplicit declared) u u' Whatever := by
  obtain ⟨name, value⟩ := d
  obtain ⟨name', value'⟩ := d'
  have hname : name'.name = name.name := congrArg (fun d : Declarator => d.name.name) h
  have hvalue : bare value' = bare (Outline.map f g value) := congrArg Declarator.value h
  exact (Expr.paired_option hvalue).imp fun C hC _ _ _ _ => .bindLocal hname hC _ _

theorem Stmt.paired_locals {type type' : TypeExpr} {ds ds' : List Declarator} (htype : type'.bare = type.bare)
    (hds : Bare.bare ds' = Bare.bare (Outline.map f g ds)) (span span' : Span) :
    Paired f type.words (exprs (Outline.parts ds)) (exprs (Outline.parts ds')) fun C => ∀ u u',
      C.Tracks (bindLocals type ds span) (bindLocals type' ds' span') u u' Whatever := by
  have hpairs := (Paired.list (fun _ _ h => Declarator.paired h) hds).knowing type.words
  refine (hpairs.mono ?_).imp fun C hC _ _ => .bindLocals htype hC.1 hC.2 span span'
  simp [List.subset_def]

theorem ForStart.paired {s s' : ForStart} (h : bare s' = bare (Outline.map f g s)) :
    Paired f s.words (exprs (parts s)) (exprs (parts s')) fun C => ∀ u u',
      C.Tracks (Stmt.bindStart s) (Stmt.bindStart s') u u' Whatever := by
  cases s with
  | nothing =>
    cases s' with
    | nothing => exact .nil fun _ _ _ _ => .pure trivial
    | _ => cases h
  | locals type ds span =>
    cases s' with
    | locals type' ds' span' =>
      have htype : type'.bare = type.bare := by injection h
      have hds : bare ds' = bare (Outline.map f g ds) := by injection h
      exact (Stmt.paired_locals htype hds span span').imp fun C hC u u' => (hC u u').map fun _ _ _ _ h => h
    | _ => cases h
  | expression value =>
    cases s' with
    | expression value' =>
      have hvalue : bare value' = bare (Outline.map f g value) := by injection h
      exact (Expr.paired hvalue).imp fun C hC _ _ => (Tracks.bindExpression hC).map fun _ _ _ _ h => h
    | _ => cases h

namespace Stmt

mutual

theorem paired : (s s' : Stmt) → s'.bare = (s.mapParts f g).bare →
    Paired f s.words (exprs s.parts) (exprs s'.parts) fun C => ∀ u u', C.Tracks s.bind s'.bind u u' Whatever
  | .block ss span, s', h => by
    cases s' with
    | block ss' span' =>
      simp only [bare, mapParts, block.injEq, and_true] at h
      exact (pairedAll ss ss' h).imp fun C hC u u' => (Tracks.inBlock (hC u u')).bind fun _ _ _ _ _ _ _ =>
        Tracks.addStmt _ _ _ _
    | _ => cases h
  | .locals type ds span, s', h => by
    cases s' with
    | locals type' ds' span' =>
      simp only [bare, mapParts, locals.injEq, and_true] at h
      exact paired_locals h.1 h.2 span span'
    | _ => cases h
  | .expression value, s', h => by
    cases s' with
    | expression value' =>
      simp only [bare, mapParts, expression.injEq] at h
      exact (Expr.paired h).imp fun C hC _ _ => Tracks.bindExpression hC
    | _ => cases h
  | .ret value span, s', h => by
    cases s' with
    | ret value' span' =>
      simp only [bare, mapParts, ret.injEq, and_true] at h
      refine (Expr.paired_option h).imp fun C hC u u' => ?_
      have rest (target : Option TypeId) (u u' : BoundUnit) : C.Tracks
          (do Bind.addStmt span (.ret (← value.mapM (·.bindConverted target))))
          (do Bind.addStmt span' (.ret (← value'.mapM (·.bindConverted target)))) u u' Whatever :=
        (Tracks.optionMapM hC fun _ _ h => .bindConverted h target).bind fun _ _ _ _ _ _ _ =>
          Tracks.addStmt _ _ _ _
      refine Comparison.Asks.returnsNothing.skip fun _ => Tracks.ite (fun _ => rest none u u') fun _ => ?_
      refine Tracks.read fun frame frame' hframe => ?_
      rw [hframe.returns]
      exact rest frame.returns u u'
    | _ => cases h
  | .ifThen condition whenTrue span, s', h => by
    cases s' with
    | ifThen condition' whenTrue' span' =>
      simp only [bare, mapParts, ifThen.injEq, and_true] at h
      refine ((Expr.paired h.1).append (paired whenTrue whenTrue' h.2)).imp fun C hC u u' => ?_
      exact (Tracks.bindCondition hC.1).bind fun _ _ _ _ _ _ _ => (hC.2 _ _).bind fun _ _ _ _ _ _ _ =>
        Tracks.addStmt _ _ _ _
    | _ => cases h
  | .ifElse condition whenTrue whenFalse span, s', h => by
    cases s' with
    | ifElse condition' whenTrue' whenFalse' span' =>
      simp only [bare, mapParts, ifElse.injEq, and_true] at h
      have hpairs := ((Expr.paired h.1).append (paired whenTrue whenTrue' h.2.1)).append
        (paired whenFalse whenFalse' h.2.2)
      simp only [parts, Part.exprs_append]
      refine hpairs.imp fun C hC u u' => (Tracks.bindCondition hC.1.1).bind fun _ _ _ _ _ _ _ => ?_
      exact (hC.1.2 _ _).bind fun _ _ _ _ _ _ _ => (hC.2 _ _).bind fun _ _ _ _ _ _ _ => Tracks.addStmt _ _ _ _
    | _ => cases h
  | .whileLoop condition body span, s', h => by
    cases s' with
    | whileLoop condition' body' span' =>
      simp only [bare, mapParts, whileLoop.injEq, and_true] at h
      refine ((Expr.paired h.1).append (paired body body' h.2)).imp fun C hC u u' => ?_
      exact (Tracks.bindCondition hC.1).bind fun _ _ _ _ _ _ _ => (hC.2 _ _).bind fun _ _ _ _ _ _ _ =>
        Tracks.addStmt _ _ _ _
    | _ => cases h
  | .forLoop start condition iterators body span, s', h => by
    cases s' with
    | forLoop start' condition' iterators' body' span' =>
      simp only [bare, mapParts, forLoop.injEq, and_true] at h
      have hpairs :=
        (((ForStart.paired h.1).append (Expr.paired_option h.2.1)).append (Expr.paired_list h.2.2.1)).append
        (paired body body' h.2.2.2)
      simp only [parts, Part.exprs_append]
      refine (hpairs.mono (by simp [words])).imp fun C hC u u' => ?_
      obtain ⟨⟨⟨hstart, hcondition⟩, hiterators⟩, hbody⟩ := hC
      refine Tracks.bind (R := Whatever) (.inBlock ?_) fun _ _ _ _ _ _ _ => Tracks.addStmt _ _ _ _
      refine (hstart _ _).bind fun _ _ _ _ _ _ _ => ?_
      refine (Tracks.optionMapM hcondition fun _ _ h => .bindCondition h).bind fun _ _ _ _ _ _ _ => ?_
      refine (Tracks.mapM (hiterators.imp fun _ _ h _ _ => (h.value _ _).imp fun _ _ _ _ _ => trivial)).bind
        fun _ _ _ _ _ _ _ => ?_
      exact (hbody _ _).bind fun _ _ _ _ _ _ _ => .pure trivial
    | _ => cases h
  | .empty span, s', h => by
    cases s' with
    | empty span' => exact .nil fun _ _ _ _ => Tracks.addStmt _ _ _ _
    | _ => cases h

theorem pairedAll : (ss ss' : List Stmt) → bareAll ss' = bareAll (mapPartsAll f g ss) →
    Paired f (wordsAll ss) (exprs (partsAll ss)) (exprs (partsAll ss')) fun C => ∀ u u',
      C.Tracks (bindAll ss) (bindAll ss') u u' Whatever
  | [], ss', h => by
    cases ss' with
    | nil => exact .nil fun _ _ _ _ => .pure trivial
    | cons => cases h
  | s :: ss, ss', h => by
    cases ss' with
    | nil => cases h
    | cons s' ss' =>
      simp only [bareAll, mapPartsAll, List.cons.injEq] at h
      simp only [partsAll, Part.exprs_append]
      refine ((paired s s' h.1).append (pairedAll ss ss' h.2)).imp fun C hC u u' => ?_
      exact (hC.1 _ _).bind fun _ _ _ _ _ _ _ => (hC.2 _ _).bind fun _ _ _ _ _ _ _ => .pure trivial

end

end Stmt

end CultureLint
