import CultureLint.Binding.Stmt
import CultureLint.Proofs.Binding.Expressions
import CultureLint.Tree.Walk

/-! Binding a statement or a body makes one operation of it, as binding an expression does. -/

namespace CultureLint

open CultureLint.Bind

variable {α : Type} {operand : Expr → Prop} {frame : Frame} {s : BindState} {rest : List OperationId}

/-- The operands of all concatenations among some visited expressions. -/
def Covers (operand : Expr → Prop) (visited : List (Expr × Nat)) : Prop :=
  ∀ p ∈ visited, ∀ x ∈ p.1.concatOperands, operand x

theorem covers_append {v w : List (Expr × Nat)} :
    Covers operand (v ++ w) ↔ Covers operand v ∧ Covers operand w := List.forall_mem_append

theorem covers_flatMap {xs : List α} {f : α → List (Expr × Nat)} :
    Covers operand (xs.flatMap f) ↔ ∀ x ∈ xs, Covers operand (f x) := by
  simp only [Covers, List.mem_flatMap]
  exact ⟨fun h x hx p hp => h p ⟨x, hx, hp⟩, fun h p ⟨x, hx, hp⟩ => h x hx p hp⟩

theorem covers_getD {f : α → List (Expr × Nat)} {x : Option α} {a : α}
    (h : Covers operand ((x.map f).getD [])) (ha : x = some a) : Covers operand (f a) := by
  subst ha
  exact h

namespace Bind

/-- Steps that make one operation each make as many operations. -/
theorem ends_mapM {f : α → Bind OperationId} {xs : List α} {P : BindState → Prop}
    (hP : ∀ s t, Later s t → P s → P t)
    (hf : ∀ x ∈ xs, ∀ s rest, P s → BodyInv operand frame s rest →
      Ends operand frame s (f x frame s) (fun r => r :: rest) fun _ _ => True)
    (hs : P s) (h : BodyInv operand frame s rest) :
    Ends operand frame s (xs.mapM f frame s) (fun rs => rs ++ rest) fun _ _ => True := by
  induction xs generalizing s rest with
  | nil => exact .pure h trivial
  | cons x xs ih =>
    obtain ⟨hx, hxs⟩ := List.forall_mem_cons.1 hf
    rw [List.mapM_cons]
    refine .bind (hx s rest hs h) fun r t hl ht _ => ?_
    refine .bind (ih hxs (hP s t hl hs) ht) fun rs u _ hu _ => ?_
    exact .pure (hu.permute List.perm_middle) trivial

/-- A step that makes one operation, or none where there is nothing to do. -/
theorem ends_optionMapM {f : α → Bind OperationId} {x : Option α}
    (hf : ∀ a, x = some a → Ends operand frame s (f a frame s) (fun r => r :: rest) fun _ _ => True)
    (h : BodyInv operand frame s rest) :
    Ends operand frame s (x.mapM f frame s) (fun r => r.toList ++ rest) fun _ _ => True := by
  cases x with
  | none => exact .pure h trivial
  | some a => exact .bind (hf a rfl) fun _ _ _ ht _ => .pure ht trivial

end Bind

namespace Expr

theorem bindsWell_of_covers {e : Expr} {depth : Nat} (he : Covers operand (e.walk depth)) :
    BindsWell operand frame e := by
  refine bindsWell e fun p hp x hx => ?_
  rw [← walk_map_fst depth e] at hp
  obtain ⟨q, hq, rfl⟩ := List.mem_map.1 hp
  exact he q hq x hx

theorem ends_bindValue {e : Expr} (he : Covers operand (e.walk 0)) (h : BodyInv operand frame s rest) :
    Bind.Ends operand frame s (e.bindValue frame s) (fun r => r :: rest) fun _ _ => True :=
  ((bindsWell_of_covers he).value h).mono fun _ _ _ _ _ => trivial

theorem ends_bindConverted {e : Expr} (he : Covers operand (e.walk 0)) {target : Option TypeId}
    (ht : s.compilation.Knows target) (h : BodyInv operand frame s rest) :
    Bind.Ends operand frame s (e.bindConverted target frame s) (fun r => r :: rest) fun _ _ => True :=
  .bind (ends_bindValue he h) fun _ _ hl h _ =>
    (ends_convert e.node h (hl.knows ht)).mono fun _ _ _ _ _ => trivial

end Expr

theorem Declarator.ends_bindLocal {d : Declarator} (hd : Covers operand d.walk) (isImplicit : Bool)
    {declared : Option TypeId} (ht : s.compilation.Knows declared) (h : BodyInv operand frame s rest) :
    Bind.Ends operand frame s (d.bindLocal isImplicit declared frame s) (fun r => r :: rest)
      fun _ _ => True := by
  have finish {value : Option OperationId} {type : Option TypeId} {t : BindState}
      (h : BodyInv operand frame t (value.toList ++ rest)) (ht : t.compilation.Knows type) :
      Bind.Ends operand frame t ((do
        declareLocal d.name.name type
        add ⟨.variableDeclaration d.name.name value, type, d.span.origin, false, none⟩ :
          Bind OperationId) frame t) (fun r => r :: rest) fun _ _ => True := by
    refine .bind (ends_declareLocal h _ ht) fun _ u hl hu _ => ?_
    exact (ends_add hu rfl (.of_isPlain rfl (hl.knows ht))).mono fun _ _ _ _ _ => trivial
  unfold bindLocal
  cases hv : d.value with
  | none => exact finish h ht
  | some value =>
    have hd : Covers operand (value.walk 0) := by simpa [Declarator.walk, hv] using hd
    refine .ite (fun _ => ?_) fun _ => ?_
    · refine .bind (Expr.ends_bindValue hd h) fun op t _ h _ => ?_
      exact .ask (a := t.unit.typeOf op) rfl (finish h (h.knows_typeOf op))
    · exact .bind (Expr.ends_bindConverted hd ht h) fun op t hl h _ => finish h (hl.knows ht)

namespace Stmt

theorem ends_bindLocals (type : TypeExpr) {declarators : List Declarator} (span : Span)
    (hd : Covers operand (declarators.flatMap Declarator.walk)) (h : BodyInv operand frame s rest) :
    Bind.Ends operand frame s (bindLocals type declarators span frame s) (fun r => r :: rest)
      fun _ _ => True := by
  refine .bind (ends_resolveType h type) fun declared t _ ht hknown => ?_
  refine .bind (ends_mapM (fun _ _ hl hs => hl.knows hs) (fun d hd' s rest hs h =>
    Declarator.ends_bindLocal (covers_flatMap.1 hd d hd') _ hs h) hknown ht) fun ops u _ hu _ => ?_
  have block (hu : BodyInv operand frame u (ops ++ rest)) :
      Bind.Ends operand frame u (add ⟨.block ops, none, span.origin, true, none⟩ frame u)
        (fun r => r :: rest) fun _ _ => True :=
    (ends_add hu rfl (.of_isPlain rfl (Compilation.knows_none _))).mono fun _ _ _ _ _ => trivial
  match ops with
  | [op] => exact .pure hu trivial
  | [] | _ :: _ :: _ => exact block hu

theorem ends_bindExpression {value : Expr} (hv : Covers operand (value.walk 0))
    (h : BodyInv operand frame s rest) :
    Bind.Ends operand frame s (bindExpression value frame s) (fun r => r :: rest) fun _ _ => True :=
  .bind (Expr.ends_bindValue hv h) fun _ _ _ h _ => ends_addStmt _ h rfl

theorem ends_bindCondition {condition : Expr} (hc : Covers operand (condition.walk 0))
    (h : BodyInv operand frame s rest) :
    Bind.Ends operand frame s (bindCondition condition frame s) (fun r => r :: rest) fun _ _ => True :=
  .ask (a := s.compilation.special? .boolean) rfl
    (Expr.ends_bindConverted hc (h.coherent.knows_special? _) h)

theorem ends_bindStart {start : ForStart} (hs : Covers operand start.walk)
    (h : BodyInv operand frame s rest) :
    Bind.Ends operand frame s (bindStart start frame s) (fun r => r.toList ++ rest) fun _ _ => True := by
  have made {m : Bind OperationId}
      (hm : Bind.Ends operand frame s (m frame s) (fun r => r :: rest) fun _ _ => True) :
      Bind.Ends operand frame s ((some <$> m) frame s) (fun r => r.toList ++ rest) fun _ _ => True :=
    .map (F := fun r : Option OperationId => r.toList ++ rest) (R := fun _ _ => True) hm
  cases start with
  | nothing => exact .pure h trivial
  | locals type declarators span => exact made (ends_bindLocals type span hs h)
  | expression value => exact made (ends_bindExpression hs h)

mutual

theorem ends_bind (st : Stmt) (hst : Covers operand st.walk) (s : BindState) (rest : List OperationId)
    (h : BodyInv operand frame s rest) :
    Bind.Ends operand frame s (st.bind frame s) (fun r => r :: rest) fun _ _ => True := by
  match st with
  | .block statements span =>
    rw [walk] at hst
    rw [Stmt.bind]
    refine .bind (ends_inBlock (Q := fun _ => True) h fun t _ ht =>
      ends_bindAll statements hst t rest ht) fun _ _ _ h _ => ?_
    exact ends_addStmt span h rfl
  | .locals type declarators span =>
    rw [walk] at hst
    rw [Stmt.bind]
    exact ends_bindLocals type span hst h
  | .expression value =>
    rw [walk] at hst
    rw [Stmt.bind]
    exact ends_bindExpression hst h
  | .ret value span =>
    rw [walk] at hst
    rw [Stmt.bind]
    have finish {target : Option TypeId} (ht : s.compilation.Knows target) :
        Bind.Ends operand frame s ((do
          let value ← value.mapM (·.bindConverted target)
          addStmt span (.ret value) : Bind OperationId) frame s) (fun r => r :: rest)
          fun _ _ => True := by
      refine .bind (ends_optionMapM (fun e he => ?_) h) fun _ _ _ h _ => ends_addStmt span h rfl
      exact Expr.ends_bindConverted (covers_getD hst he) ht h
    refine .ask (a := frame.returns.all fun id => s.compilation.isSpecial id .void) rfl
      (.ite (fun _ => finish (Compilation.knows_none _)) fun _ => finish h.returns)
  | .ifThen condition whenTrue span =>
    rw [walk, covers_append] at hst
    rw [Stmt.bind]
    refine .bind (ends_bindCondition hst.1 h) fun _ t _ h _ => ?_
    refine .bind (ends_bind whenTrue hst.2 t _ h) fun _ t _ h _ => ?_
    exact ends_addStmt span (h.permute (.swap ..)) rfl
  | .ifElse condition whenTrue whenFalse span =>
    rw [walk, covers_append, covers_append] at hst
    rw [Stmt.bind]
    refine .bind (ends_bindCondition hst.1.1 h) fun _ t _ h _ => ?_
    refine .bind (ends_bind whenTrue hst.1.2 t _ h) fun _ t _ h _ => ?_
    refine .bind (ends_bind whenFalse hst.2 t _ h) fun _ t _ h _ => ?_
    exact ends_addStmt span (h.permute (.trans (.swap ..) (.trans (.cons _ (.swap ..)) (.swap ..)))) rfl
  | .whileLoop condition body span =>
    rw [walk, covers_append] at hst
    rw [Stmt.bind]
    refine .bind (ends_bindCondition hst.1 h) fun _ t _ h _ => ?_
    refine .bind (ends_bind body hst.2 t _ h) fun _ t _ h _ => ?_
    exact ends_addStmt span (h.permute (.swap ..)) rfl
  | .forLoop start condition iterators body span =>
    rw [walk, covers_append, covers_append, covers_append] at hst
    rw [Stmt.bind]
    obtain ⟨⟨⟨hstart, hcondition⟩, hiterators⟩, hbody⟩ := hst
    refine .bind (ends_inBlock (F := fun kind => kind.children ++ rest)
      (Q := fun kind => kind.isPlain = true) h fun t _ h => ?_) fun _ _ _ h hk => ends_addStmt span h hk
    refine .bind (ends_bindStart hstart h) fun start t _ h _ => ?_
    refine .bind (ends_optionMapM (fun e he => ends_bindCondition (covers_getD hcondition he) h) h)
      fun condition t _ h _ => ?_
    refine .bind (ends_mapM (P := fun _ => True) (fun _ _ _ => id) (fun e he s rest _ h =>
      Expr.ends_bindValue (covers_flatMap.1 hiterators e he) h) trivial h) fun iterators t _ h _ => ?_
    refine .bind (ends_bind body hbody t _ h) fun body t _ h _ => .pure (h.permute ?_) rfl
    refine List.perm_iff_count.2 fun x => ?_
    simp only [OperationKind.children, List.count_cons, List.count_append, List.count_nil]
    omega
  | .empty span =>
    rw [Stmt.bind]
    exact ends_addStmt span h rfl

theorem ends_bindAll (sts : List Stmt) (hsts : Covers operand (walkAll sts)) (s : BindState)
    (rest : List OperationId) (h : BodyInv operand frame s rest) :
    Bind.Ends operand frame s (bindAll sts frame s) (fun rs => rs ++ rest) fun _ _ => True := by
  match sts with
  | [] => exact .pure h trivial
  | st :: sts =>
    rw [walkAll, covers_append] at hsts
    rw [bindAll]
    refine .bind (ends_bind st hsts.1 s rest h) fun _ t _ h _ => ?_
    refine .bind (ends_bindAll sts hsts.2 t _ h) fun _ t _ h _ => ?_
    exact .pure (h.permute List.perm_middle) trivial

end

end Stmt

/-! ### Bodies -/

theorem Expr.ends_bindArrow {value : Expr} (hv : Covers operand (value.walk 0))
    (h : BodyInv operand frame s rest) :
    Bind.Ends operand frame s (value.bindArrow frame s) (fun r => r :: rest) fun _ _ => True := by
  have finish {kind : OperationKind} {t : BindState} (h : BodyInv operand frame t (kind.children ++ rest))
      (hk : kind.isPlain = true) :
      Bind.Ends operand frame t (add ⟨kind, none, value.span.origin, true, none⟩ frame t)
        (fun r => r :: rest) fun _ _ => True :=
    (ends_add h rfl (.of_isPlain hk (Compilation.knows_none _))).mono fun _ _ _ _ _ => trivial
  refine .ask (a := frame.returns.all fun id => s.compilation.isSpecial id .void) rfl
    (.ite (fun _ => ?_) fun _ => ?_)
  · refine .bind (.map (F := fun kind => kind.children ++ rest) (R := fun kind _ => kind.isPlain = true)
      ((ends_bindValue hv h).mono fun _ _ _ _ _ => rfl)) fun kind t _ h hk => finish h hk
  · exact .ask (a := frame) rfl (.bind (ends_bindConverted hv h.returns h) fun _ _ _ h _ =>
      finish h rfl)

theorem Body.ends_bind {body : Body} (hb : Covers operand body.walk)
    (h : BodyInv operand frame s rest) :
    Bind.Ends operand frame s (body.bind frame s) (fun r => r :: rest) fun _ _ => True := by
  cases body with
  | block statements span =>
    exact Stmt.ends_bind (.block statements span) (by rwa [Stmt.walk]) s rest h
  | arrow value => exact Expr.ends_bindArrow hb h

end CultureLint
