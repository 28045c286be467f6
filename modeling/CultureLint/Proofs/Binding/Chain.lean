import CultureLint.Proofs.Binding.Expressions

/-! A chain of binary operators is bound from its foot up, without a call for each of its operators. Main
statement: that is the same as to bind the left operand, then the right one, and then the operation on the
two, with left operands that are operations bound the same way. -/

namespace CultureLint

namespace Expr

/-- An expression is bound as an operand that is written as the expression itself. -/
theorem operand_plan (e : Expr) : e.plan.operand = (fun op => (op, e.node)) <$> e.plan.value := by
  cases e with
  | binary node op left right =>
    rw [Plan.value_eq, plan, Plan.operand_extend]
    simp only [Plan.applyLink, map_bind, map_pure]
    rfl
  | _ =>
    rw [Plan.value_eq, Plan.operand_of_foot (by rw [plan]), plan]
    simp only [map_bind, map_pure]
    rfl

/-- The last operator of a chain is applied to its left operand, bound as a value, and to its right one. -/
theorem bindValue_binary (node : Node) (op : BinaryOp) (left right : Expr) :
    (binary node op left right).bindValue = (do
      let l ← left.bindValue
      let r ← right.bindValue
      Bind.binary node op (l, left.node) (r, right.node)) := by
  have hlast : (binary node op left right).plan.operand =
      left.plan.operand >>= fun l => Plan.applyLink l ⟨node, op, right.plan.value, right.node⟩ := by
    rw [plan, Plan.operand_extend]
  rw [bindValue, Plan.value_eq, hlast, operand_plan]
  simp only [Plan.applyLink, bindValue, map_bind, map_pure, bind_map_left, bind_pure]

/-- Binds an expression as a value, and a binary operation by binding its operands one after the other. -/
def bindRecursively : Expr → Bind OperationId
  | .binary node op left right => do
    let l ← left.bindRecursively
    let r ← right.bindRecursively
    Bind.binary node op (l, left.node) (r, right.node)
  | e => e.bindValue

theorem bindValue_eq_bindRecursively (e : Expr) : e.bindValue = e.bindRecursively := by
  fun_induction bindRecursively e with
  | case1 node op left right ihl ihr => rw [bindValue_binary, ihl, ihr]
  | case2 => rfl

/-- Binding a binary operation from the foot of its chain gives, in every state, the operation and the state
that binding its operands one after the other and combining them gives, however long the chain is. -/
theorem bindValue_binary_apply (node : Node) (op : BinaryOp) (left right : Expr) (frame : Frame)
    (s : BindState) :
    (binary node op left right).bindValue frame s = (do
      let l ← left.bindValue
      let r ← right.bindValue
      Bind.binary node op (l, left.node) (r, right.node) : Bind OperationId) frame s ∧
    (binary node op left right).bindValue frame s = (binary node op left right).bindRecursively frame s := by
  rw [← bindValue_eq_bindRecursively, bindValue_binary]
  exact ⟨rfl, rfl⟩

end Expr

end CultureLint
