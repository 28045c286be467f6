import Mathlib.Data.List.Nodup
import CultureLint.Proofs.Tree.Bare

/-! The expressions inside an expression. -/

namespace CultureLint

namespace Expr

theorem sizeOf_lt_of_mem_children {c e : Expr} (h : c ∈ e.children) : sizeOf c < sizeOf e := by
  cases e <;> simp only [children, List.mem_cons, List.not_mem_nil, or_false] at h
  case parenthesized | memberAccess | unary | step | cast =>
    subst h
    simp only [parenthesized.sizeOf_spec, memberAccess.sizeOf_spec, unary.sizeOf_spec, step.sizeOf_spec,
      cast.sizeOf_spec]
    omega
  case binary | assignment =>
    obtain rfl | rfl := h <;> simp only [binary.sizeOf_spec, assignment.sizeOf_spec] <;> omega
  case conditional =>
    obtain rfl | rfl | rfl := h <;> simp only [conditional.sizeOf_spec] <;> omega
  case invocation | elementAccess =>
    obtain rfl | h := h
    · simp; omega
    · have := List.sizeOf_lt_of_mem h
      simp; omega
  case objectCreation =>
    have := List.sizeOf_lt_of_mem h
    simp; omega

/-- What holds of an expression whenever it holds of its parts holds of all expressions. -/
theorem induction_on_parts {motive : Expr → Prop} (h : ∀ e, (∀ c ∈ e.children, motive c) → motive e)
    (e : Expr) : motive e :=
  h e fun c hc =>
    have := sizeOf_lt_of_mem_children hc
    induction_on_parts h c
termination_by sizeOf e

/-- An expression and all expressions inside it. -/
def within (e : Expr) : List Expr := (e.walk 0).map Prod.fst

theorem walk_map_fst (depth : Nat) (e : Expr) : (e.walk depth).map Prod.fst = e.within := by
  induction e using induction_on_parts generalizing depth with
  | h e ih =>
    have step (d : Nat) : (e.walk d).map Prod.fst = e :: e.children.flatMap within := by
      rw [walk_eq, List.map_cons, List.map_flatMap]
      refine congrArg _ (List.flatMap_congr fun c hc => ?_)
      exact ih c hc _
    rw [within, step, step]

theorem within_eq (e : Expr) : e.within = e :: e.children.flatMap within := by
  rw [within, walk_eq, List.map_cons, List.map_flatMap]
  exact congrArg _ (List.flatMap_congr fun c _ => walk_map_fst 1 c)

theorem mem_within_self (e : Expr) : e ∈ e.within := by
  rw [within_eq]
  exact List.mem_cons_self ..

theorem mem_within_iff {c e : Expr} : c ∈ e.within ↔ c = e ∨ ∃ d ∈ e.children, c ∈ d.within := by
  rw [within_eq, List.mem_cons, List.mem_flatMap]

theorem mem_within_of_mem_children {c e : Expr} (h : c ∈ e.children) : c ∈ e.within :=
  mem_within_iff.2 (.inr ⟨c, h, c.mem_within_self⟩)

theorem mem_within_trans {c d e : Expr} (hc : c ∈ d.within) (hd : d ∈ e.within) : c ∈ e.within := by
  induction e using induction_on_parts with
  | h e ih =>
    obtain rfl | ⟨b, hb, hd⟩ := mem_within_iff.1 hd
    · exact hc
    · exact mem_within_iff.2 (.inr ⟨b, hb, ih b hb hd⟩)

/-! ### Operands of a concatenation -/

/-- The operands of `+`, and the value that `+=` adds. -/
def concatOperands : Expr → List Expr
  | .binary _ .add left right => [left, right]
  | .assignment _ (.compound .add) _ value => [value]
  | _ => []

theorem mem_children_of_mem_concatOperands {e p : Expr} (h : e ∈ p.concatOperands) :
    e ∈ p.children := by
  unfold concatOperands at h
  split at h <;> simp_all [children]

end Expr

/-! ### Numbers -/

/-- The numbers of the expressions in a list and inside them are all different and lie in a range. -/
structure Numbered (lo hi : Nat) (es : List Expr) : Prop where
  nodup : ((es.flatMap Expr.within).map Expr.id).Nodup
  range : ∀ e ∈ es.flatMap Expr.within, lo ≤ e.id ∧ e.id < hi

namespace Numbered

variable {lo mid hi : Nat} {es fs : List Expr}

theorem nil : Numbered lo hi [] := ⟨by simp, by simp⟩

theorem widen {lo' hi' : Nat} (h : Numbered lo hi es) (hl : lo' ≤ lo) (hh : hi ≤ hi') :
    Numbered lo' hi' es :=
  ⟨h.nodup, fun e he => ⟨Nat.le_trans hl (h.range e he).1, Nat.lt_of_lt_of_le (h.range e he).2 hh⟩⟩

theorem append (h : Numbered lo mid es) (h' : Numbered mid hi fs) (hl : lo ≤ mid) (hh : mid ≤ hi) :
    Numbered lo hi (es ++ fs) := by
  have hw := h.widen (Nat.le_refl _) hh
  have hw' := h'.widen hl (Nat.le_refl _)
  constructor
  · rw [List.flatMap_append, List.map_append, List.nodup_append]
    refine ⟨h.nodup, h'.nodup, ?_⟩
    simp only [List.mem_map]
    rintro _ ⟨a, ha, rfl⟩ _ ⟨b, hb, rfl⟩ hab
    have := (h.range a ha).2
    have := (h'.range b hb).1
    omega
  · intro e he
    rw [List.flatMap_append, List.mem_append] at he
    exact he.elim (hw.range e) (hw'.range e)

/-- The number tells which expression it is. -/
theorem eq_of_id_eq (h : Numbered lo hi es) {c d : Expr} (hc : c ∈ es.flatMap Expr.within)
    (hd : d ∈ es.flatMap Expr.within) (hid : c.id = d.id) : c = d :=
  List.inj_on_of_nodup_map h.nodup hc hd hid

/-- The expression whose parts are numbered, and which has the next number itself. -/
theorem close {e : Expr} (h : Numbered lo hi e.children) (he : e.id = hi) (hl : lo ≤ hi) :
    Numbered lo (hi + 1) [e] := by
  constructor
  · rw [List.flatMap_singleton, Expr.within_eq, List.map_cons, List.nodup_cons]
    refine ⟨fun hm => ?_, h.nodup⟩
    obtain ⟨c, hc, hce⟩ := List.mem_map.1 hm
    have := (h.range c hc).2
    omega
  · intro c hc
    rw [List.flatMap_singleton, Expr.within_eq, List.mem_cons] at hc
    obtain rfl | hc := hc
    · omega
    · have := h.range c hc
      omega

end Numbered

end CultureLint
