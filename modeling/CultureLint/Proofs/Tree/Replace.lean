import CultureLint.Proofs.Tree.Parts

/-! Changing one expression inside another. The place is named by a node: its number and its span. -/

namespace CultureLint

namespace Expr

mutual

/-- The expression with another one made of the one at the node. -/
def changeAt (target : Node) (f : Expr → Expr) : Expr → Expr
  | e@(.literal node ..) | e@(.name node _) | e@(.primitive node _) | e@(.this node) =>
    if node = target then f e else e
  | e@(.parenthesized node inner) =>
    if node = target then f e else .parenthesized node (changeAt target f inner)
  | e@(.memberAccess node receiver ident) =>
    if node = target then f e else .memberAccess node (changeAt target f receiver) ident
  | e@(.invocation node callee arguments) =>
    if node = target then f e
    else .invocation node (changeAt target f callee) (changeAllAt target f arguments)
  | e@(.elementAccess node receiver arguments) =>
    if node = target then f e
    else .elementAccess node (changeAt target f receiver) (changeAllAt target f arguments)
  | e@(.objectCreation node type arguments) =>
    if node = target then f e else .objectCreation node type (changeAllAt target f arguments)
  | e@(.unary node op operand) =>
    if node = target then f e else .unary node op (changeAt target f operand)
  | e@(.step node increment operand) =>
    if node = target then f e else .step node increment (changeAt target f operand)
  | e@(.cast node type operand) =>
    if node = target then f e else .cast node type (changeAt target f operand)
  | e@(.binary node op left right) =>
    if node = target then f e else .binary node op (changeAt target f left) (changeAt target f right)
  | e@(.assignment node op left value) =>
    if node = target then f e
    else .assignment node op (changeAt target f left) (changeAt target f value)
  | e@(.conditional node condition whenTrue whenFalse) =>
    if node = target then f e
    else .conditional node (changeAt target f condition) (changeAt target f whenTrue)
      (changeAt target f whenFalse)

/-- The expressions with another one made of the one at the node. -/
def changeAllAt (target : Node) (f : Expr → Expr) : List Expr → List Expr
  | [] => []
  | e :: es => changeAt target f e :: changeAllAt target f es

end

variable {target : Node} {f : Expr → Expr} {e : Expr}

theorem changeAllAt_eq_map (es : List Expr) : changeAllAt target f es = es.map (changeAt target f) := by
  induction es with
  | nil => rfl
  | cons e es ih => rw [changeAllAt, ih, List.map_cons]

theorem changeAt_of_node_eq (h : e.node = target) : changeAt target f e = f e := by
  cases e <;> simp only [node] at h <;> simp [changeAt, h]

/-- An expression without the node stays as it is. -/
theorem changeAt_of_forall_ne (h : ∀ c ∈ e.within, c.node ≠ target) : changeAt target f e = e := by
  induction e using induction_on_parts with
  | h e ih =>
    have hne : e.node ≠ target := h e e.mem_within_self
    have part {c : Expr} (hc : c ∈ e.children) : changeAt target f c = c :=
      ih c hc fun d hd => h d (mem_within_iff.2 (.inr ⟨c, hc, hd⟩))
    have parts {es : List Expr} (hes : ∀ c ∈ es, c ∈ e.children) : changeAllAt target f es = es := by
      rw [changeAllAt_eq_map]
      exact (List.map_congr_left fun c hc => part (hes c hc)).trans (List.map_id _)
    clear ih h
    cases e <;> simp only [node] at hne <;> simp only [changeAt, hne, if_false]
    case parenthesized | memberAccess | unary | step | cast => rw [part (by simp [children])]
    case invocation | elementAccess =>
      rw [part (by simp [children]), parts (by simp +contextual [children])]
    case objectCreation => rw [parts (by simp [children])]
    case binary | assignment => rw [part (by simp [children]), part (by simp [children])]
    case conditional =>
      rw [part (by simp [children]), part (by simp [children]), part (by simp [children])]

end Expr

end CultureLint
