import CultureLint.Proofs.Binding.Tracking
import CultureLint.Proofs.Tree.Facing

/-! Expressions that face each other are bound alike. What is replaced is left to a hypothesis about the
concatenations that have it as an operand; everything else follows from what an expression is made of. -/

namespace CultureLint

namespace Comparison

variable {C : Comparison} {u u' : BoundUnit} {e e' : Expr} {es es' : List Expr}

variable (C) in
/-- Two expressions are bound alike, as values and as whatever they turn out to be. -/
structure TracksExpr (e e' : Expr) : Prop where
  value (u u' : BoundUnit) : C.Tracks e.bindValue e'.bindValue u u' fun r r' v v' => Akin v v' r r'
  bound (u u' : BoundUnit) : C.Tracks e.plan.bound e'.plan.bound u u' fun b b' v v' => Bounds v v' b b'

variable (C) in
/-- Two parts of an expression are bound alike, and the old one is not the hole. -/
structure TracksPart (e e' : Expr) : Prop extends C.TracksExpr e e' where
  shares : C.Shares e.node e'.node

namespace TracksExpr

/-- An expression without operators is bound by its foot. -/
theorem of_foot {node node' : Node} {foot foot' : Bind Bound} (hn : C.Sees e.node e'.node)
    (hplan : e.plan = { foot, footNode := node }) (hplan' : e'.plan = { foot := foot', footNode := node' })
    (h : ∀ u u', C.Tracks foot foot' u u' fun b b' v v' => Bounds v v' b b') : C.TracksExpr e e' := by
  have hbound (u u' : BoundUnit) : C.Tracks e.plan.bound e'.plan.bound u u' fun b b' v v' => Bounds v v' b b' := by
    rw [hplan, hplan']
    exact h u u'
  refine ⟨fun u u' => ?_, hbound⟩
  rw [Expr.bindValue_eq, Expr.bindValue_eq]
  exact (hbound u u').bind fun _ _ _ _ _ _ hb => .asValue hn hb

theorem bound_of_value {n n' : Node} {op op' : BinaryOp} {l r l' r' : Expr}
    (h : ∀ u u', C.Tracks (Expr.binary n op l r).bindValue (Expr.binary n' op' l' r').bindValue u u'
      fun r r' v v' => Akin v v' r r') : C.TracksExpr (.binary n op l r) (.binary n' op' l' r') :=
  ⟨h, fun u u' => (h u u').map fun _ _ _ _ hr => .value hr⟩

end TracksExpr

/-- Arguments are bound alike one after the other. -/
theorem Tracks.values (h : List.Forall₂ C.TracksPart es es') :
    C.Tracks (Expr.values es) (Expr.values es') u u' fun xs xs' v v' => List.Forall₂ (C.Operands v v') xs xs' := by
  induction h generalizing u u' with
  | nil => exact .pure .nil
  | @cons e e' es es' he hes ih =>
    have hbind (e : Expr) (es : List Expr) : Expr.values (e :: es) = e.bindValue >>= fun op =>
        Expr.values es >>= fun ops => Pure.pure ((op, e.node) :: ops) := by
      rw [Expr.values]
      rfl
    rw [hbind, hbind]
    refine (he.value u u').bind fun r r' v v' _ _ hr => ih.bind fun ops ops' w w' hw hw' hops => .pure ?_
    exact .cons ⟨hr.mono hw hw', he.shares⟩ hops

open Tracks in
/-- Expressions are bound alike if their parts are. -/
theorem TracksExpr.of_like (hlike : Expr.Like e e') (hn : C.Sees e.node e'.node)
    (hw : ∀ word ∈ e.ownWords, C.knows word) (hc : List.Forall₂ C.TracksPart e.children e'.children) :
    C.TracksExpr e e' := by
  have hvalue {m m' : Bind OperationId} {u u' : BoundUnit} [Bind.Adds m] [Bind.Adds m']
      (h : C.Tracks m m' u u' fun r r' v v' => Akin v v' r r') :
      C.Tracks (m >>= fun op => Pure.pure (Bound.value op)) (m' >>= fun op => Pure.pure (Bound.value op)) u u'
        fun b b' v v' => Bounds v v' b b' := h.bind fun _ _ _ _ _ _ hr => .pure (.value hr)
  cases hlike with
  | literal kind text =>
    exact .of_foot hn rfl rfl fun u u' => (Asks.specialType _).skip fun _ =>
      hvalue (addExpr hn _ (by simp) rfl rfl)
  | name word => exact .of_foot hn rfl rfl fun u u' => Tracks.name hn (hw word (List.mem_singleton_self word))
  | primitive type =>
    refine .of_foot hn rfl rfl fun u u' => (Asks.special _).skip fun found => ?_
    cases found with
    | some id => exact .pure (.type id)
    | none => exact hvalue (addInvalid hn)
  | this =>
    refine .of_foot hn rfl rfl fun u u' => read fun f f' hf => ?_
    rw [hf.containing]
    exact hvalue (addExpr hn _ (by simp) rfl rfl)
  | parenthesized inner inner' =>
    obtain ⟨hinner, -⟩ := List.forall₂_cons.1 hc
    exact .of_foot hn rfl rfl fun u u' => hinner.bound u u'
  | memberAccess receiver receiver' hname =>
    obtain ⟨hreceiver, -⟩ := List.forall₂_cons.1 hc
    refine .of_foot hn rfl rfl fun u u' => (hreceiver.bound u u').bind fun b b' v v' _ _ hb => ?_
    rw [hname]
    exact Tracks.memberAccess hn hb _
  | invocation callee callee' arguments arguments' =>
    obtain ⟨hcallee, hargs⟩ := List.forall₂_cons.1 hc
    exact .of_foot hn rfl rfl fun u u' => (hcallee.bound u u').bind fun b b' v v' _ _ hb =>
      (Tracks.values hargs).bind fun xs xs' w w' hv hv' hxs => hvalue (Tracks.invocation hn (hb.mono hv hv') hxs)
  | elementAccess receiver receiver' arguments arguments' =>
    obtain ⟨hreceiver, hargs⟩ := List.forall₂_cons.1 hc
    exact .of_foot hn rfl rfl fun u u' => (hreceiver.value u u').bind fun r r' v v' _ _ hr =>
      (Tracks.values hargs).bind fun xs xs' w w' hv hv' hxs =>
        hvalue (Tracks.elementAccess hn (hr.mono hv hv') _ _)
  | objectCreation arguments arguments' htype =>
    refine .of_foot hn rfl rfl fun u u' => (resolveType htype hw).bind fun t t' v v' _ _ ht => ?_
    obtain ⟨rfl, -, -⟩ := ht
    exact (Tracks.values hc).bind fun xs xs' _ _ _ _ _ => hvalue (addExpr hn _ (by simp) rfl rfl)
  | unary op operand operand' =>
    obtain ⟨ho, -⟩ := List.forall₂_cons.1 hc
    exact .of_foot hn rfl rfl fun u u' => (ho.value u u').bind fun r r' v v' _ _ hr =>
      hvalue (Tracks.unary hn op ⟨hr, ho.shares⟩)
  | step increment operand operand' =>
    obtain ⟨ho, -⟩ := List.forall₂_cons.1 hc
    exact .of_foot hn rfl rfl fun u u' => (ho.value u u').bind fun r r' v v' _ _ hr =>
      hvalue (Tracks.step hn increment hr)
  | cast operand operand' htype =>
    obtain ⟨ho, -⟩ := List.forall₂_cons.1 hc
    refine .of_foot hn rfl rfl fun u u' => (resolveType htype hw).bind fun t t' v v' _ _ ht => ?_
    obtain ⟨rfl, -, -⟩ := ht
    exact (ho.value v v').bind fun r r' _ _ _ _ hr => hvalue (Tracks.cast hn t' hr)
  | binary op left left' right right' =>
    obtain ⟨hl, hc⟩ := List.forall₂_cons.1 hc
    obtain ⟨hr, -⟩ := List.forall₂_cons.1 hc
    refine .bound_of_value fun u u' => ?_
    rw [Expr.bindValue_binary, Expr.bindValue_binary]
    exact (hl.value u u').bind fun l l' v v' _ _ hleft => (hr.value v v').bind fun r r' w w' hv hv' hright =>
      Tracks.binary hn op ⟨hleft.mono hv hv', hl.shares⟩ ⟨hright, hr.shares⟩
  | assignment op target target' value value' =>
    obtain ⟨ht, hc⟩ := List.forall₂_cons.1 hc
    obtain ⟨hx, -⟩ := List.forall₂_cons.1 hc
    exact .of_foot hn rfl rfl fun u u' => (ht.value u u').bind fun t t' v v' _ _ htarget =>
      (hx.value v v').bind fun x x' w w' hv hv' hvalue' =>
        hvalue (Tracks.assignment hn op (htarget.mono hv hv') ⟨hvalue', hx.shares⟩)
  | conditional condition condition' whenTrue whenTrue' whenFalse whenFalse' =>
    obtain ⟨hcond, hc⟩ := List.forall₂_cons.1 hc
    obtain ⟨ha, hc⟩ := List.forall₂_cons.1 hc
    obtain ⟨hb, -⟩ := List.forall₂_cons.1 hc
    refine .of_foot hn rfl rfl fun u u' => (Asks.special _).skip fun boolean => ?_
    refine (hcond.value u u').bind fun r r' v v' _ _ hr => (Tracks.convert hr hcond.shares _).bind
      fun op op' v v' _ _ _ => (ha.value v v').bind fun a a' v v' _ _ hleft => (hb.value v v').bind
        fun b b' w w' hv hv' hright => ?_
    exact hvalue (Tracks.conditional hn op op' ⟨hleft.mono hv hv', ha.shares⟩ ⟨hright, hb.shares⟩)

variable (C) in
/-- What is asked of the expressions that are kept: their places count alike, the scopes agree about their words,
and the hole is not a part of any of them. -/
structure Keeps (K : List Counterpart) : Prop where
  sees : ∀ e e', .kept e e' ∈ K → C.Sees e.node e'.node
  words : ∀ e e', .kept e e' ∈ K → ∀ word ∈ e.ownWords, C.knows word
  ne : ∀ e e', .kept e e' ∈ K → ∀ c ∈ e.children, ∀ c', .kept c c' ∈ K → c.id ≠ C.hole.id

theorem Keeps.mono {K H : List Counterpart} (h : C.Keeps K) (hsub : H ⊆ K) : C.Keeps H :=
  ⟨fun e e' he => h.sees e e' (hsub he), fun e e' he => h.words e e' (hsub he),
    fun e e' he c hc c' hcc => h.ne e e' (hsub he) c hc c' (hsub hcc)⟩

/-- Expressions that face each other are bound alike, if concatenations are in which an operand is replaced. -/
theorem tracks_of_faces {P : Expr → Expr → Prop} {K : List Counterpart} (h : Expr.Faces P K es es')
    (hK : C.Keeps K) (htidy : ∀ e ∈ es, e.Tidy)
    (hjoin : ∀ e e', Expr.Like e e' → e.Tidy → C.Sees e.node e'.node →
      (∀ c ∈ e.children, ∀ c', P c c' → c ∈ e.concatOperands) →
      List.Forall₂ (fun c c' => P c c' ∨ C.TracksPart c c') e.children e'.children →
      (∃ c ∈ e.children, ∃ c', P c c') → C.TracksExpr e e') :
    List.Forall₂ (fun e e' => P e e' ∨ .kept e e' ∈ K ∧ C.TracksExpr e e') es es' := by
  induction h with
  | nil => exact .nil
  | @kept K H e e' es es' hlike hconcat hparts hrest ihparts ihrest =>
    obtain ⟨htidy, hrestTidy⟩ := List.forall_mem_cons.1 htidy
    have hself : Counterpart.kept e e' ∈ .kept e e' :: K ++ H := List.mem_cons_self
    have hsub : K ⊆ .kept e e' :: K ++ H := fun x hx => List.mem_cons_of_mem _ (List.mem_append_left _ hx)
    have hsub' : H ⊆ .kept e e' :: K ++ H := fun x hx => List.mem_cons_of_mem _ (List.mem_append_right _ hx)
    have hparts' := ihparts (hK.mono hsub) fun c hc => htidy.child hc
    have hrest' := ihrest (hK.mono hsub') hrestTidy
    refine .cons (.inr ⟨hself, ?_⟩) (hrest'.imp fun a b hab => hab.imp_right (And.imp_left (hsub' ·)))
    have hpart {c c' : Expr} (hc : c ∈ e.children)
        (h : .kept c c' ∈ K ∧ C.TracksExpr c c') : C.TracksPart c c' :=
      ⟨h.2, hK.sees c c' (hsub h.1), hK.ne e e' hself c hc c' (hsub h.1)⟩
    have hmem := (List.forall₂_and_left _ _).2 ⟨fun _ hc => hc, hparts'⟩
    by_cases hex : ∃ c ∈ e.children, ∃ c', P c c'
    · exact hjoin e e' hlike htidy (hK.sees e e' hself) hconcat
        (hmem.imp fun c c' hcc => hcc.2.imp_right (hpart hcc.1)) hex
    · refine .of_like hlike (hK.sees e e' hself) (hK.words e e' hself) (hmem.imp fun c c' hcc => ?_)
      exact hpart hcc.1 (hcc.2.resolve_left fun hP => hex ⟨c, hcc.1, c', hP⟩)
  | replaced h _ ih =>
    obtain ⟨-, hrestTidy⟩ := List.forall_mem_cons.1 htidy
    have hrest' := ih (hK.mono (List.subset_cons_self _ _)) hrestTidy
    exact .cons (.inl h) (hrest'.imp fun a b hab => hab.imp_right (And.imp_left (List.mem_cons_of_mem _)))

end Comparison

end CultureLint
