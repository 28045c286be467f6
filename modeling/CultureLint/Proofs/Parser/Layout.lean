import CultureLint.Proofs.Parser.Sound
import CultureLint.Proofs.Tree.Outline

/-! Where the parts of an expression stand: each at a stretch of the expression's tokens that leaves out
at least one of them, so that no two expressions inside one another have the same span. -/

namespace CultureLint

namespace Spelled

variable {P : List Token → Node → Prop} {w : List Token} {n : Option Token} {e c : Expr}

/-- The expression is spelled by a stretch of the tokens. -/
def Inside (P : List Token → Node → Prop) (c : Expr) (w : List Token) : Prop :=
  ∃ a v b n, w = a ++ v ++ b ∧ Spelled P v n (.expr c)

theorem Inside.append_left {w : List Token} (h : Inside P c w) (u : List Token) :
    Inside P c (u ++ w) := by
  obtain ⟨a, v, b, n, rfl, hv⟩ := h
  exact ⟨u ++ a, v, b, n, by simp, hv⟩

theorem Inside.append_right {w : List Token} (h : Inside P c w) (u : List Token) :
    Inside P c (w ++ u) := by
  obtain ⟨a, v, b, n, rfl, hv⟩ := h
  exact ⟨a, v, b ++ u, n, by simp, hv⟩

theorem Inside.cons {w : List Token} (h : Inside P c w) (t : Token) : Inside P c (t :: w) :=
  h.append_left [t]

theorem inside (h : Spelled P w n (.expr e)) : Inside P e w := ⟨[], w, [], n, by simp, h⟩

theorem arg_inside {ph : Phrase} (h : Spelled P w n ph) {es : List Expr} (hes : ph = .args es)
    (hc : c ∈ es) : Inside P c w := by
  induction h generalizing es with
  | noArgs => cases hes; simp at hc
  | lastArg _ he =>
    cases hes
    obtain rfl := List.mem_singleton.1 hc
    exact he.inside.append_left _
  | moreArgs _ he _ _ _ _ ih =>
    cases hes
    obtain rfl | hc := List.mem_cons.1 hc
    · exact (he.inside.append_left _).append_right _
    · exact ((ih rfl hc).cons _).append_left _
  | _ => cases hes

/-- The expression is spelled by a stretch of the tokens that is not all of them. -/
def InsideProperly (P : List Token → Node → Prop) (c : Expr) (w : List Token) : Prop :=
  ∃ a v b n, w = a ++ v ++ b ∧ a ++ b ≠ [] ∧ Spelled P v n (.expr c)

theorem Inside.properly {w : List Token} (h : Inside P c w) {u x w' : List Token}
    (hw : w' = u ++ w ++ x) (hne : u ≠ [] ∨ x ≠ []) : InsideProperly P c w' := by
  obtain ⟨a, v, b, n, rfl, hv⟩ := h
  refine ⟨u ++ a, v, b ++ x, n, by simp [hw], fun h => ?_, hv⟩
  simp only [List.append_eq_nil_iff] at h
  exact hne.elim (· h.1.1) (· h.2.2)

/-- A part stands at some of the tokens of its expression. -/
theorem child (h : Spelled P w n (.expr e)) (hc : c ∈ e.children) : InsideProperly P c w := by
  cases h with
  | atom ht => simp [(isAtom_of_atom? ht).children] at hc
  | @paren o t v _ _ _ _ _ he =>
    obtain rfl := List.mem_singleton.1 hc
    exact he.inside.properly (u := [o]) (x := [t]) (by simp) (.inl (by simp))
  | @create k o t wt v _ _ _ _ _ _ _ _ hes =>
    exact (hes.arg_inside rfl hc).properly (u := k :: (wt ++ [o])) (x := [t]) (by simp)
      (.inl (by simp))
  | @member d i _ _ _ _ he =>
    obtain rfl := List.mem_singleton.1 hc
    exact he.inside.properly (u := []) (x := [d, i]) (by simp) (.inr (by simp))
  | @call o t v va _ _ _ _ he _ _ _ hes | @index o t v va _ _ _ _ he _ _ _ hes =>
    obtain rfl | hc := List.mem_cons.1 hc
    · exact he.inside.properly (u := []) (x := o :: (va ++ [t])) (by simp) (.inr (by simp))
    · exact (hes.arg_inside rfl hc).properly (u := v ++ [o]) (x := [t]) (by simp) (.inr (by simp))
  | @step t v _ _ _ _ he =>
    obtain rfl := List.mem_singleton.1 hc
    exact he.inside.properly (u := []) (x := [t]) (by simp) (.inr (by simp))
  | @unary t v _ _ _ _ _ he =>
    obtain rfl := List.mem_singleton.1 hc
    exact he.inside.properly (u := [t]) (x := []) (by simp) (.inl (by simp))
  | @cast o t wt v _ _ _ _ _ _ _ _ he =>
    obtain rfl := List.mem_singleton.1 hc
    exact he.inside.properly (u := o :: (wt ++ [t])) (x := []) (by simp) (.inl (by simp))
  | @binary t wl wr _ _ _ _ _ _ hl hr | @assignment t wl wr _ _ _ _ _ _ hl _ hr =>
    simp only [Expr.children, List.mem_cons, List.not_mem_nil, or_false] at hc
    obtain rfl | rfl := hc
    · exact hl.inside.properly (u := []) (x := t :: wr) (by simp) (.inr (by simp))
    · exact hr.inside.properly (u := wl ++ [t]) (x := []) (by simp) (.inl (by simp))
  | @conditional q t wc wt wf _ _ _ _ _ hcond _ _ ha _ hb =>
    simp only [Expr.children, List.mem_cons, List.not_mem_nil, or_false] at hc
    obtain rfl | rfl | rfl := hc
    · exact hcond.inside.properly (u := []) (x := q :: (wt ++ t :: wf)) (by simp) (.inr (by simp))
    · exact ha.inside.properly (u := wc ++ [q]) (x := t :: wf) (by simp) (.inr (by simp))
    · exact hb.inside.properly (u := wc ++ q :: (wt ++ [t])) (x := []) (by simp) (.inl (by simp))

/-- Every expression inside another one stands at some of its tokens. -/
theorem inner (h : Spelled P w n (.expr e)) (hc : c ∈ e.within) : Inside P c w := by
  induction e using Expr.induction_on_parts generalizing w n with
  | h e ih =>
    obtain rfl | ⟨d, hd, hc⟩ := Expr.mem_within_iff.1 hc
    · exact h.inside
    · obtain ⟨a, v, b, n', rfl, -, hv⟩ := h.child hd
      exact ((ih d hd hv hc).append_left a).append_right b

end Spelled

/-! ### Spans -/

/-- A node at a stretch of tokens has its span inside that of all of them, and a smaller one unless it
is at all of them. -/
theorem Placed.within {a v b : List Token} {node node' : Node} (ho : Ordered (a ++ v ++ b))
    (hv : v ≠ []) (hp : Placed (a ++ v ++ b) node) (hp' : Placed v node') :
    node.span.start ≤ node'.span.start ∧ node'.span.stop ≤ node.span.stop ∧
      (a ++ b ≠ [] → node.span.start < node'.span.start ∨ node'.span.stop < node.span.stop) := by
  obtain ⟨f, hf⟩ : ∃ f, v.head? = some f := Option.ne_none_iff_exists'.1 (by simpa using hv)
  obtain ⟨l, hl⟩ : ∃ l, v.getLast? = some l := Option.ne_none_iff_exists'.1 (by simpa using hv)
  obtain ⟨x, hx⟩ : ∃ x, (a ++ v ++ b).head? = some x := Option.ne_none_iff_exists'.1 (by simp [hv])
  obtain ⟨y, hy⟩ : ∃ y, (a ++ v ++ b).getLast? = some y := Option.ne_none_iff_exists'.1 (by simp [hv])
  have hfm : f ∈ v := List.mem_of_mem_head? hf
  have hlm : l ∈ v := List.mem_of_mem_getLast? hl
  have h₁ := ho.bounds hx hy (t := f) (by simp [hfm])
  have h₂ := ho.bounds hx hy (t := l) (by simp [hlm])
  have hs := hp.start x hx
  have he := hp.stop y hy
  have hs' := hp'.start f hf
  have he' := hp'.stop l hl
  refine ⟨by omega, by omega, fun hne => ?_⟩
  obtain ⟨hav, -, hb⟩ := Ordered.append_iff.1 ho
  obtain ⟨hoa, -, ha⟩ := Ordered.append_iff.1 hav
  cases a with
  | cons t a =>
    left
    obtain rfl : t = x := by simpa using hx
    have := ha t (List.mem_cons_self ..) f hfm
    have := hoa.nonempty t (List.mem_cons_self ..)
    omega
  | nil =>
    right
    have hyb : y ∈ b := by
      cases hb' : b.getLast? with
      | none => simp_all
      | some z =>
        obtain rfl : z = y := by simpa [hb'] using hy
        exact List.mem_of_mem_getLast? hb'
    have := hb l (by simp [hlm]) y hyb
    have := ho.nonempty y (by simp [hyb])
    omega

/-- No expression inside another one has the same span. -/
theorem Spelled.span_ne {w : List Token} {n : Option Token} {e c d : Expr}
    (h : Spelled Placed w n (.expr e)) (ho : Ordered w) (hc : c ∈ e.children) (hd : d ∈ c.within) :
    d.span ≠ e.span := by
  obtain ⟨a, v, b, n', rfl, hne, hv⟩ := h.child hc
  obtain ⟨a', v', b', n'', rfl, hv'⟩ := hv.inner hd
  have ho' : Ordered ((a ++ a') ++ v' ++ (b' ++ b)) := by simpa using ho
  have hp : Placed ((a ++ a') ++ v' ++ (b' ++ b)) e.node := by simpa using h.node
  obtain ⟨-, -, hlt⟩ := hp.within ho' hv'.ne_nil hv'.node
  have := hlt (by simpa using fun ha _ _ hb => hne (by simp [ha, hb]))
  intro heq
  have h₁ : d.node.span.start = e.node.span.start := congrArg Span.start heq
  have h₂ : d.node.span.stop = e.node.span.stop := congrArg Span.stop heq
  omega

/-! ### Parts among the tokens of a document -/

/-- How a `using` line begins and ends. -/
structure LineTokens (u : Using) (v : List Token) : Prop where
  head : u.isGlobal = false → ∃ t r, v = t :: r ∧ t.isKeyword "using" = true
  last : ∃ r t, v = r ++ [t] ∧ t.isPunct ";" = true
  two : 2 ≤ v.length

theorem LineTokens.ne_nil {u : Using} {v : List Token} (h : LineTokens u v) : v ≠ [] := by
  obtain ⟨r, t, rfl, -⟩ := h.last
  simp

/-- The tokens are the `using` lines, one behind the other. -/
inductive Lines : List Token → List Using → Prop
  | nil : Lines [] []
  | cons {v w : List Token} {u : Using} {us : List Using} (hv : LineTokens u v)
      (hp : Placed v ⟨0, u.span⟩) (hs : Lines w us) : Lines (v ++ w) (u :: us)

/-- The tokens are the part. -/
def Part.At (v : List Token) : Part → Prop
  | .expr e => ∃ n, Spelled Placed v n (.expr e)
  | .usings us => Lines v us

/-- The parts stand among the tokens, one behind the other. -/
inductive Laid : List Token → List Part → Prop
  | nil (w : List Token) : Laid w []
  | cons {u v w : List Token} {p : Part} {ps : List Part} (hp : p.At v) (hs : Laid w ps) :
      Laid (u ++ v ++ w) (p :: ps)

namespace Laid

variable {w v : List Token} {p : Part} {ps qs : List Part}

theorem single (h : p.At w) : Laid w [p] := by
  have := Laid.cons (u := []) h (.nil [])
  rwa [List.append_nil, List.nil_append] at this

theorem append_left (h : Laid w ps) (u : List Token) : Laid (u ++ w) ps := by
  cases h with
  | nil => exact .nil _
  | @cons a v x _ _ hp hs =>
    have := Laid.cons (u := u ++ a) hp hs
    rwa [List.append_assoc, List.append_assoc, ← List.append_assoc a] at this

theorem append (h : Laid w ps) (h' : Laid v qs) : Laid (w ++ v) (ps ++ qs) := by
  induction h with
  | nil => exact h'.append_left _
  | cons hp _ ih =>
    rw [List.append_assoc]
    exact .cons hp ih

theorem append_right (h : Laid w ps) (u : List Token) : Laid (w ++ u) ps := by
  have := h.append (.nil u)
  rwa [List.append_nil] at this

theorem mem (h : Laid w ps) (hp : p ∈ ps) : ∃ u v x, w = u ++ v ++ x ∧ p.At v := by
  induction h with
  | nil => simp at hp
  | @cons u v x _ _ hq _ ih =>
    obtain rfl | hp := List.mem_cons.1 hp
    · exact ⟨u, v, x, rfl, hq⟩
    · obtain ⟨u', v', x', rfl, hv⟩ := ih hp
      exact ⟨u ++ v ++ u', v', x', by simp, hv⟩

end Laid

/-- The outermost expressions of a phrase. -/
def Phrase.parts : Phrase → List Part
  | .expr e => [.expr e]
  | .args es => es.map .expr

namespace Spelled

variable {w : List Token} {n : Option Token}

theorem laid_expr {e : Expr} (h : Spelled Placed w n (.expr e)) : Laid w [.expr e] :=
  .single (p := .expr e) ⟨n, h⟩

theorem laid_args {ph : Phrase} (h : Spelled Placed w n ph) {es : List Expr} (hes : ph = .args es) :
    Laid w (es.map .expr) := by
  induction h generalizing es with
  | noArgs =>
    cases hes
    exact .nil _
  | lastArg _ he =>
    cases hes
    exact he.laid_expr.append_left _
  | moreArgs _ he _ _ _ _ ih =>
    cases hes
    exact (he.laid_expr.append_left _).append ((ih rfl).append_left [_])
  | _ => cases hes

theorem laid {ph : Phrase} (h : Spelled Placed w n ph) : Laid w ph.parts := by
  cases ph with
  | expr e => exact h.laid_expr
  | args es => exact h.laid_args rfl

end Spelled

end CultureLint
