import CultureLint.Binding.Expr
import CultureLint.Proofs.Binding.Members
import CultureLint.Proofs.Binding.Operators

/-! Binding an expression makes one operation of it, and what joins strings anywhere inside it joins
converted operands of the expression. -/

namespace CultureLint

open CultureLint.Bind

/-! ### Plans -/

namespace Plan

/-- Binds the expression as a value, with the node that it is written as. -/
def operand (plan : Plan) : Bind Operand := do
  let foot ← Bind.asValue plan.footNode (← plan.foot)
  plan.links.reverse.foldlM applyLink (foot, plan.footNode)

theorem value_eq (plan : Plan) : plan.value = Prod.fst <$> plan.operand := by
  rw [value, operand, map_eq_pure_bind]
  simp only [bind_assoc]

theorem operand_extend (plan : Plan) (link : ChainLink) :
    (plan.extend link).operand = plan.operand >>= fun left => applyLink left link := by
  simp [operand, extend, List.foldlM_append]

theorem operand_of_foot {plan : Plan} (h : plan.links = []) :
    plan.operand = do
      let foot ← Bind.asValue plan.footNode (← plan.foot)
      return (foot, plan.footNode) := by
  simp [operand, h]

theorem bound_of_foot {plan : Plan} (h : plan.links = []) : plan.bound = plan.foot := by
  rw [bound, h]

end Plan

namespace Expr

variable {operand : Expr → Prop} {frame : Frame} {s : BindState} {rest : List OperationId}

/-- The operations that a plan makes, whatever the state it starts in. -/
structure BindsWell (operand : Expr → Prop) (frame : Frame) (e : Expr) : Prop where
  asOperand : ∀ s rest, BodyInv operand frame s rest →
    Ends operand frame s (e.plan.operand frame s) (fun o => o.1 :: rest)
      fun o t => o.2 = e.node ∧ t.unit.IsWritten o.1
  bound : ∀ s rest, BodyInv operand frame s rest →
    Ends operand frame s (e.plan.bound frame s) (fun b => b.value?.toList ++ rest) Spelt

namespace BindsWell

theorem value {e : Expr} (he : BindsWell operand frame e) (h : BodyInv operand frame s rest) :
    Ends operand frame s (e.plan.value frame s) (fun r => r :: rest)
      fun r t => t.unit.IsWritten r := by
  rw [Plan.value_eq]
  exact .map ((he.asOperand s rest h).mono fun _ _ _ _ ho => ho.2)

/-- An expression that is no binary operation is bound by its foot. -/
theorem of_foot {e : Expr} (hl : e.plan.links = []) (hn : e.plan.footNode = e.node)
    (hf : ∀ s rest, BodyInv operand frame s rest →
      Ends operand frame s (e.plan.foot frame s) (fun b => b.value?.toList ++ rest) Spelt) :
    BindsWell operand frame e where
  asOperand s rest h := by
    rw [Plan.operand_of_foot hl]
    refine .bind (hf s rest h) fun b t _ ht hb => ?_
    exact .bind (ends_asValue _ ht hb) fun r u _ hu hr => .pure hu ⟨hn, hr⟩
  bound s rest h := by
    rw [Plan.bound_of_foot hl]
    exact hf s rest h

end BindsWell

theorem ends_values {es : List Expr} (hes : ∀ e ∈ es, BindsWell operand frame e)
    (h : BodyInv operand frame s rest) :
    Ends operand frame s (values es frame s) (fun os => os.map (·.1) ++ rest) fun _ _ => True := by
  induction es generalizing s rest with
  | nil => exact .pure h trivial
  | cons e es ih =>
    obtain ⟨he, hes⟩ := List.forall_mem_cons.1 hes
    refine .bind (he.value h) fun r t _ ht _ => .bind (ih hes ht) fun os u _ hu _ => ?_
    exact .pure (hu.permute List.perm_middle) trivial

/-- Every expression is bound well whose concatenations have operands of the document. -/
theorem bindsWell (e : Expr) (he : ∀ p ∈ e.within, ∀ x ∈ p.concatOperands, operand x) :
    BindsWell operand frame e := by
  induction e using induction_on_parts with
  | h e ih =>
    have ih : ∀ c ∈ e.children, BindsWell operand frame c := fun c hc =>
      ih c hc fun p hp => he p (mem_within_trans hp (mem_within_of_mem_children hc))
    have he := he e e.mem_within_self
    cases e with
    | binary node op left right =>
      obtain ⟨hleft, hright⟩ : BindsWell operand frame left ∧ BindsWell operand frame right :=
        ⟨ih _ (by simp [children]), ih _ (by simp [children])⟩
      have hoperand (s : BindState) (rest : List OperationId) (h : BodyInv operand frame s rest) :
          Ends operand frame s ((binary node op left right).plan.operand frame s)
            (fun o => o.1 :: rest) fun o t => o.2 = node ∧ t.unit.IsWritten o.1 := by
        rw [plan, Plan.operand_extend]
        refine .bind (hleft.asOperand s rest h) fun o t _ ht ho => ?_
        obtain ⟨l, leftNode⟩ := o
        obtain ⟨hnode, hl⟩ := ho
        obtain rfl : leftNode = left.node := hnode
        refine .bind (hright.value ht) fun r u hu hr hr' => ?_
        refine .bind (ends_binary node (fun hop => ?_) (hr.permute (.swap ..)) (hl.mono hu.ext) hr')
          fun b v _ hb hb' => .pure hb ⟨rfl, hb'⟩
        have hop : op = .add := hop
        exact ⟨he left (by simp [hop, concatOperands]), he right (by simp [hop, concatOperands])⟩
      refine ⟨hoperand, fun s rest h => ?_⟩
      have hbound : (binary node op left right).plan.bound =
          Bound.value <$> (binary node op left right).plan.value := by rw [plan]; rfl
      rw [hbound, Plan.value_eq]
      refine .map (.map ((hoperand s rest h).mono fun o t _ _ ho => ?_))
      exact spelt_of_isWritten ho.2
    | literal node kind text =>
      refine .of_foot (by rw [plan]) (by rw [plan]; rfl) fun s rest h => ?_
      rw [plan]
      refine .ask (specialType_apply _) (ends_value ?_)
      refine (ends_addLiteral node kind h (knows_bind_special? h.coherent _) ?_)
      rintro rfl
      rfl
    | name node word =>
      refine .of_foot (by rw [plan]) (by rw [plan]; rfl) fun s rest h => ?_
      rw [plan]
      exact ends_name node word h
    | primitive node type =>
      refine .of_foot (by rw [plan]) (by rw [plan]; rfl) fun s rest h => ?_
      rw [plan]
      refine .ask (a := s.compilation.special? type.special) rfl ?_
      cases s.compilation.special? type.special with
      | some id => exact .pure h fun op hop => by cases hop
      | none => exact ends_value (ends_addInvalid node h)
    | this node =>
      refine .of_foot (by rw [plan]) (by rw [plan]; rfl) fun s rest h => ?_
      rw [plan]
      exact .ask (a := frame) rfl
        (ends_value (ends_addExpr node h rfl (Compilation.knows_some.2 h.containing)))
    | parenthesized node inner =>
      refine .of_foot (by rw [plan]) (by rw [plan]; rfl) fun s rest h => ?_
      rw [plan]
      exact (ih inner (by simp [children])).bound s rest h
    | memberAccess node receiver ident =>
      refine .of_foot (by rw [plan]) (by rw [plan]; rfl) fun s rest h => ?_
      rw [plan]
      exact .bind ((ih receiver (by simp [children])).bound s rest h) fun b t _ ht _ =>
        ends_memberAccess node ident.name ht
    | invocation node callee arguments =>
      refine .of_foot (by rw [plan]) (by rw [plan]; rfl) fun s rest h => ?_
      rw [plan]
      refine .bind ((ih callee (by simp [children])).bound s rest h) fun b t _ ht _ => ?_
      refine .bind (ends_values (fun a ha => ih a (by simp [children, ha])) ht) fun os u _ hu _ => ?_
      refine ends_value (ends_invocation node (hu.permute ?_))
      rw [← List.append_assoc, ← List.append_assoc]
      exact List.perm_append_comm.append_right rest
    | elementAccess node receiver arguments =>
      refine .of_foot (by rw [plan]) (by rw [plan]; rfl) fun s rest h => ?_
      rw [plan]
      refine .bind ((ih receiver (by simp [children])).value h) fun r t _ ht _ => ?_
      refine .bind (ends_values (fun a ha => ih a (by simp [children, ha])) ht) fun os u _ hu _ => ?_
      exact ends_value (ends_elementAccess node (hu.permute List.perm_middle))
    | objectCreation node type arguments =>
      refine .of_foot (by rw [plan]) (by rw [plan]; rfl) fun s rest h => ?_
      rw [plan]
      refine .bind (ends_resolveType h type) fun target t _ ht htarget => ?_
      refine .bind (ends_values (fun a ha => ih a (by simpa [children] using ha)) ht)
        fun os u hl hu _ => ?_
      exact ends_value (ends_addExpr node hu rfl (hl.knows htarget))
    | unary node op value =>
      refine .of_foot (by rw [plan]) (by rw [plan]; rfl) fun s rest h => ?_
      rw [plan]
      exact .bind ((ih value (by simp [children])).value h) fun r t _ ht _ =>
        ends_value (ends_unary node op value ht)
    | step node increment value =>
      refine .of_foot (by rw [plan]) (by rw [plan]; rfl) fun s rest h => ?_
      rw [plan]
      exact .bind ((ih value (by simp [children])).value h) fun r t _ ht _ =>
        ends_value (ends_step node increment ht)
    | cast node type value =>
      refine .of_foot (by rw [plan]) (by rw [plan]; rfl) fun s rest h => ?_
      rw [plan]
      refine .bind (ends_resolveType h type) fun target t _ ht htarget => ?_
      exact .bind ((ih value (by simp [children])).value ht) fun r u hl hu _ =>
        ends_value (ends_cast node hu (hl.knows htarget))
    | assignment node op target value =>
      refine .of_foot (by rw [plan]) (by rw [plan]; rfl) fun s rest h => ?_
      rw [plan]
      refine .bind ((ih target (by simp [children])).value h) fun r t _ ht hr => ?_
      refine .bind ((ih value (by simp [children])).value ht) fun v u hl hu hv => ?_
      refine ends_value (ends_assignment node (fun hop => ?_) (hu.permute (.swap ..))
        (hr.mono hl.ext) hv)
      exact he value (by simp [hop, concatOperands])
    | conditional node condition whenTrue whenFalse =>
      refine .of_foot (by rw [plan]) (by rw [plan]; rfl) fun s rest h => ?_
      rw [plan]
      have hboolean := h.coherent.knows_special? .boolean
      refine .ask (a := s.compilation.special? .boolean) rfl ?_
      refine .bind ((ih condition (by simp [children])).value h) fun c t hl ht _ => ?_
      refine .bind (ends_convert condition.node ht (hl.knows hboolean)) fun c t _ ht _ => ?_
      refine .bind ((ih whenTrue (by simp [children])).value ht) fun a t _ ht _ => ?_
      refine .bind ((ih whenFalse (by simp [children])).value ht) fun b t _ ht _ => ?_
      have reversed : (b :: a :: c :: rest).Perm (c :: a :: b :: rest) :=
        .trans (.swap ..) (.trans (.cons _ (.swap ..)) (.swap ..))
      exact ends_value (ends_conditional node whenTrue whenFalse (ht.permute reversed))

end Expr

end CultureLint
