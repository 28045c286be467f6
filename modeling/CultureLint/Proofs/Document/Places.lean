import CultureLint.Proofs.Document.Reread
import CultureLint.Proofs.Token.Tiling
import Mathlib.Data.List.Induction
import Mathlib.Data.List.Pairwise

/-! Where the expressions of a document stand: the parts of an expression lie inside it, one behind the
other, and so do the outermost expressions in the document. So the place of an expression tells which one
it is, and is where it is looked up. -/

namespace CultureLint

/-! ### Places in an expression -/

/-- One expression ends before another one starts. -/
def Expr.Before (a b : Expr) : Prop := a.span.stop ≤ b.span.start

/-- The expression takes up some text, and its parts lie inside, one behind the other. -/
structure Expr.Orderly (e : Expr) : Prop where
  nonempty : e.span.start < e.span.stop
  inside : ∀ c ∈ e.children, e.span.start ≤ c.span.start ∧ c.span.stop ≤ e.span.stop ∧ c.span ≠ e.span
  apart : e.children.Pairwise Expr.Before

namespace Expr

variable {e c d : Expr}

/-- Whatever stands in an expression lies inside it, and has a smaller span. -/
theorem inside_of_mem_within (h : ∀ d ∈ e.within, d.Orderly) (hc : c ∈ e.within) :
    e.span.start ≤ c.span.start ∧ c.span.stop ≤ e.span.stop ∧ (c.span = e.span → c = e) := by
  induction e using induction_on_parts with
  | h e ih =>
    obtain rfl | ⟨d, hd, hc⟩ := mem_within_iff.1 hc
    · exact ⟨Nat.le_refl _, Nat.le_refl _, fun _ => rfl⟩
    · obtain ⟨hstart, hstop, hne⟩ := (h e e.mem_within_self).inside d hd
      obtain ⟨hs, ht, -⟩ := ih d hd (fun x hx => h x (mem_within_iff.2 (.inr ⟨d, hd, hx⟩))) hc
      refine ⟨by omega, by omega, fun heq => absurd ?_ hne⟩
      have h₁ : c.span.start = e.span.start := congrArg Span.start heq
      have h₂ : c.span.stop = e.span.stop := congrArg Span.stop heq
      cases hd : d.span
      cases he : e.span
      simp only [Span.mk.injEq]
      simp only [hd, he] at *
      omega

/-- In expressions one behind the other, a place belongs to one of them. -/
theorem eq_of_span_eq_of_pairwise {es : List Expr} (hp : es.Pairwise Before)
    (hes : ∀ e ∈ es, ∀ d ∈ e.within, d.Orderly)
    (heq : ∀ e ∈ es, ∀ c ∈ e.within, ∀ d ∈ e.within, c.span = d.span → c = d)
    (hc : c ∈ es.flatMap within) (hd : d ∈ es.flatMap within) (hspan : c.span = d.span) : c = d := by
  obtain ⟨a, ha, hca⟩ := List.mem_flatMap.1 hc
  obtain ⟨b, hb, hdb⟩ := List.mem_flatMap.1 hd
  by_cases hab : a = b
  · subst hab
    exact heq a ha c hca d hdb hspan
  · have : Std.Symm fun a b : Expr => a.Before b ∨ b.Before a := ⟨fun _ _ => Or.symm⟩
    have hp : es.Pairwise fun a b => a.Before b ∨ b.Before a := hp.imp .inl
    have hdisjoint := hp.forall ha hb hab
    obtain ⟨ha₁, ha₂, -⟩ := inside_of_mem_within (hes a ha) hca
    obtain ⟨hb₁, hb₂, -⟩ := inside_of_mem_within (hes b hb) hdb
    have hne := (hes a ha c hca).nonempty
    rw [hspan] at ha₁ ha₂ hne
    unfold Before at hdisjoint
    omega

theorem eq_of_span_eq (h : ∀ d ∈ e.within, d.Orderly) (hc : c ∈ e.within) (hd : d ∈ e.within)
    (hspan : c.span = d.span) : c = d := by
  induction e using induction_on_parts generalizing c d with
  | h e ih =>
    have hchild (a : Expr) (ha : a ∈ e.children) (x : Expr) (hx : x ∈ a.within) : x.Orderly :=
      h x (mem_within_iff.2 (.inr ⟨a, ha, hx⟩))
    obtain rfl | hc' := mem_within_iff.1 hc
    · exact ((inside_of_mem_within h hd).2.2 hspan.symm).symm
    · obtain rfl | hd' := mem_within_iff.1 hd
      · exact (inside_of_mem_within h hc).2.2 hspan
      · exact eq_of_span_eq_of_pairwise (h e e.mem_within_self).apart hchild
          (fun a ha c hc d hd => ih a ha (hchild a ha) hc hd) (List.mem_flatMap.2 hc')
          (List.mem_flatMap.2 hd') hspan

end Expr

/-! ### Places among the tokens -/

namespace Spelled

variable {w : List Token} {n : Option Token} {e : Expr}

/-- The parts of an expression stand among its tokens, one behind the other. -/
theorem laid_children (h : Spelled Placed w n (.expr e)) : Laid w (e.children.map .expr) := by
  cases h with
  | atom ht =>
    rw [(isAtom_of_atom? ht).children]
    exact .nil _
  | @paren o t v _ _ _ _ _ he => exact (he.laid_expr.append_right [t]).append_left [o]
  | @create k o t wt v _ _ _ _ _ _ _ _ hes =>
    have := ((hes.laid_args rfl).append_right [t]).append_left (k :: (wt ++ [o]))
    simpa [Expr.children] using this
  | @member d i v _ _ _ he => exact he.laid_expr.append_right [d, i]
  | @call o t v va _ _ _ _ he _ _ _ hes | @index o t v va _ _ _ _ he _ _ _ hes =>
    exact he.laid_expr.append (((hes.laid_args rfl).append_right [t]).append_left [o])
  | @step t v _ _ _ _ he => exact he.laid_expr.append_right [t]
  | @unary t v _ _ _ _ _ he => exact he.laid_expr.append_left [t]
  | @cast o t wt v _ _ _ _ _ _ _ _ he =>
    have := he.laid_expr.append_left (o :: (wt ++ [t]))
    simpa [Expr.children] using this
  | @binary t wl wr _ _ _ _ _ _ hl hr | @assignment t wl wr _ _ _ _ _ _ hl _ hr =>
    exact hl.laid_expr.append (hr.laid_expr.append_left [t])
  | @conditional q t wc wt wf _ _ _ _ _ hcond _ _ ha _ hb =>
    exact hcond.laid_expr.append ((ha.laid_expr.append (hb.laid_expr.append_left [t])).append_left [q])

end Spelled

namespace Laid

variable {w : List Token} {ps : List Part}

theorem ends {e : Expr} (h : Laid w ps) (he : e ∈ Part.exprs ps) :
    (∃ t ∈ w, e.span.start = t.start) ∧ ∃ t ∈ w, e.span.stop = t.span.stop := by
  obtain ⟨u, v, x, rfl, n, hv⟩ := h.mem (Part.mem_exprs.1 he)
  obtain ⟨⟨t, ht, hstart⟩, t', ht', hstop⟩ := hv.node.ends hv.ne_nil
  exact ⟨⟨t, by simp [ht], hstart⟩, t', by simp [ht'], hstop⟩

/-- Expressions that stand among tokens in their order do not overlap. -/
theorem pairwise (h : Laid w ps) (ho : Ordered w) : (Part.exprs ps).Pairwise Expr.Before := by
  induction h with
  | nil => exact .nil
  | @cons u v x p ps hp hs ih =>
    obtain ⟨hov, hox, hbefore⟩ := Ordered.append_iff.1 ho
    cases p with
    | usings us => exact ih hox
    | expr e =>
      refine List.pairwise_cons.2 ⟨fun d hd => ?_, ih hox⟩
      obtain ⟨n, hv⟩ := hp
      obtain ⟨-, t, ht, hstop⟩ := hv.node.ends hv.ne_nil
      obtain ⟨⟨t', ht', hstart⟩, -⟩ := hs.ends hd
      have := hbefore t (List.mem_append_right u ht) t' ht'
      change e.node.span.stop ≤ d.span.start
      omega

end Laid

theorem Spelled.orderly {w : List Token} {n : Option Token} {e : Expr}
    (h : Spelled Placed w n (.expr e)) (ho : Ordered w) : e.Orderly where
  nonempty := by
    obtain ⟨⟨t, ht, hstart⟩, t', ht', hstop⟩ := h.node.ends h.ne_nil
    obtain ⟨a, ha⟩ : ∃ a, w.head? = some a := Option.ne_none_iff_exists'.1 (by simpa using h.ne_nil)
    obtain ⟨b, hb⟩ : ∃ b, w.getLast? = some b := Option.ne_none_iff_exists'.1 (by simpa using h.ne_nil)
    have hmem : a ∈ w := List.mem_of_mem_head? ha
    have := ho.nonempty a hmem
    have := (ho.bounds ha hb hmem).2
    have := h.node.start a ha
    have := h.node.stop b hb
    change e.node.span.start < e.node.span.stop
    omega
  inside c hc := by
    obtain ⟨a, v, b, n', rfl, hne, hv⟩ := h.child hc
    obtain ⟨hstart, hstop, -⟩ := h.node.within ho hv.ne_nil hv.node
    exact ⟨hstart, hstop, h.span_ne ho hc c.mem_within_self⟩
  apart := by
    have hexprs (es : List Expr) : Part.exprs (es.map .expr) = es := by
      induction es with
      | nil => rfl
      | cons e es ih => simp [ih]
    have := h.laid_children.pairwise ho
    rwa [hexprs] at this

/-- An atom that is a literal holds the text of its token. -/
theorem eq_of_atom?_literal {t : Token} {make : Node → Expr} {node node' : Node} {kind : LiteralKind}
    {written : String} (h : Grammar.atom? t = some make) (hmake : make node = .literal node' kind written) :
    node' = node ∧ written = t.text := by
  have literal (kind' : LiteralKind) (h : (Expr.literal · kind' t.text) = make) : node' = node ∧ written = t.text := by
    subst h
    cases hmake
    exact ⟨rfl, rfl⟩
  unfold Grammar.atom? at h
  split at h
  case h_4 => split at h <;> exact literal _ (Option.some.inj h)
  case h_6 =>
    repeat' split at h
    · exact literal _ (Option.some.inj h)
    · exact literal _ (Option.some.inj h)
    · exact literal _ (Option.some.inj h)
    · cases h
      cases hmake
    · obtain ⟨type, -, rfl⟩ := Option.map_eq_some_iff.1 h
      cases hmake
  case h_5 =>
    cases h
    cases hmake
  case h_7 => cases h
  all_goals exact literal _ (Option.some.inj h)

/-- A literal is written as one token, and holds its text. -/
theorem Spelled.literal {P : List Token → Node → Prop} {w : List Token} {n : Option Token} {node : Node}
    {kind : LiteralKind} {written : String} (h : Spelled P w n (.expr (.literal node kind written))) :
    ∃ t, w = [t] ∧ P w node ∧ written = t.text := by
  generalize he : Expr.literal node kind written = e at h
  cases h with
  | @atom t _ make node' ht hp =>
    obtain ⟨rfl, hwritten⟩ := eq_of_atom?_literal ht he.symm
    exact ⟨t, rfl, hp, hwritten⟩
  | _ => cases he

/-! ### Places in a document -/

namespace SourceTree

variable {text : String} {tree : SourceTree} {e c d : Expr} {i j : Nat}

/-- Every expression of a document is orderly, and the outermost ones lie one behind the other. -/
theorem orderly (h : ofText text = .ok tree) :
    (∀ a ∈ Part.exprs (parts tree.unit), ∀ e ∈ a.within, e.Orderly) ∧
      (Part.exprs (parts tree.unit)).Pairwise Expr.Before := by
  obtain ⟨lexed, hl, hu, -⟩ := ofText_eq_ok.1 h
  obtain ⟨hread, ho⟩ := readFrom hl hu
  refine ⟨fun a ha e he => ?_, hread.laid.pairwise ho⟩
  obtain ⟨u, v, x, n, htokens, hv⟩ := hread.inside ha he
  rw [htokens] at ho
  exact hv.orderly ho.left.right

/-- A literal holds what is written at its place. -/
theorem slice?_literal (h : ofText text = .ok tree) {node : Node} {kind : LiteralKind} {written : String}
    (he : (.literal node kind written, i) ∈ tree.unit.walk) : Text.slice? text node.span = some written := by
  obtain ⟨lexed, hl, hu, -⟩ := ofText_eq_ok.1 h
  obtain ⟨hread, -⟩ := readFrom hl hu
  obtain ⟨a, ha, he⟩ := CompilationUnit.mem_walk_iff.1 ⟨i, he⟩
  obtain ⟨u, v, x, n, htokens, hv⟩ := hread.inside ha he
  obtain ⟨t, rfl, hplaced, hwritten⟩ := hv.literal
  have hspan : node.span = t.span := by
    rw [Span.mk.injEq]
    exact ⟨hplaced.start t rfl, hplaced.stop t rfl⟩
  rw [hspan, Lexed.slice?_of_mem hl (by simp [htokens]), hwritten]

/-- The place tells which expression of the document it is. -/
theorem eq_of_span_eq (h : ofText text = .ok tree) (hc : (c, i) ∈ tree.unit.walk)
    (hd : (d, j) ∈ tree.unit.walk) (hspan : c.span = d.span) : c = d := by
  obtain ⟨horderly, hp⟩ := orderly h
  have mem {e : Expr} {i : Nat} (he : (e, i) ∈ tree.unit.walk) :
      e ∈ (Part.exprs (parts tree.unit)).flatMap Expr.within :=
    List.mem_flatMap.2 (CompilationUnit.mem_walk_iff.1 ⟨i, he⟩)
  exact Expr.eq_of_span_eq_of_pairwise hp horderly
    (fun a ha c hc d hd => Expr.eq_of_span_eq (horderly a ha) hc hd) (mem hc) (mem hd) hspan

/-- What is found at a place is one of the visited expressions that are there. -/
theorem mem_of_deepestAt {span : Span} {visited : List (Expr × Nat)} {found : Expr × Nat}
    (h : deepestAt span visited = some found) : found ∈ visited ∧ found.1.span = span := by
  unfold deepestAt at h
  induction visited using List.reverseRecOn generalizing found with
  | nil => cases h
  | append_singleton visited next ih =>
    rw [List.foldl_append, List.foldl_cons, List.foldl_nil] at h
    split at h
    · obtain rfl := Option.some.inj h
      exact ⟨by simp, by simp_all⟩
    · obtain ⟨hmem, hspan⟩ := ih h
      exact ⟨List.mem_append_left _ hmem, hspan⟩

/-- Where one of the visited expressions is, one is found. -/
theorem isSome_deepestAt {span : Span} {visited : List (Expr × Nat)} {p : Expr × Nat} (hp : p ∈ visited)
    (hspan : p.1.span = span) : (deepestAt span visited).isSome = true := by
  unfold deepestAt
  induction visited using List.reverseRecOn with
  | nil => cases hp
  | append_singleton visited next ih =>
    rw [List.foldl_append, List.foldl_cons, List.foldl_nil]
    split
    · rfl
    · rename_i hnot
      obtain hp | hp := List.mem_append.1 hp
      · exact ih hp
      · obtain rfl := List.mem_singleton.1 hp
        cases hfound : List.foldl _ none visited with
        | none => simp [hspan, hfound] at hnot
        | some found => rfl

theorem mem_walk_of_expressionAt? {span : Span} (h : tree.expressionAt? span = some e) :
    (∃ i, (e, i) ∈ tree.unit.walk) ∧ e.span = span := by
  obtain ⟨⟨e, i⟩, hfound, rfl⟩ := Option.map_eq_some_iff.1 h
  obtain ⟨hmem, hspan⟩ := mem_of_deepestAt hfound
  exact ⟨⟨i, hmem⟩, hspan⟩

/-- An expression is found where it stands. -/
theorem expressionAt?_eq_some (h : ofText text = .ok tree) (he : (e, i) ∈ tree.unit.walk) :
    tree.expressionAt? e.span = some e := by
  obtain ⟨⟨d, j⟩, hfound⟩ := Option.isSome_iff_exists.1 (isSome_deepestAt he rfl)
  obtain ⟨hmem, hspan⟩ := mem_of_deepestAt hfound
  obtain rfl := eq_of_span_eq h hmem he hspan
  exact Option.map_eq_some_iff.2 ⟨_, hfound, rfl⟩

end SourceTree

/-! ### What the walk through a document meets -/

/-- The outermost expressions among the visited ones, in the order they are met. -/
def outermost (visited : List (Expr × Nat)) : List Expr :=
  (visited.filter (·.2 == 0)).map Prod.fst

theorem Expr.le_depth_of_mem_walk {e c : Expr} {depth i : Nat} (h : (c, i) ∈ e.walk depth) : depth ≤ i := by
  induction e using induction_on_parts generalizing depth with
  | h e ih =>
    rw [walk_eq, List.mem_cons, List.mem_flatMap] at h
    obtain h | ⟨d, hd, h⟩ := h
    · simp only [Prod.mk.injEq] at h
      omega
    · have := ih d hd h
      omega

theorem Expr.outermost_walk (e : Expr) : outermost (e.walk 0) = [e] := by
  have hinner : (e.children.flatMap (walk 1)).filter (·.2 == 0) = [] := by
    rw [List.filter_eq_nil_iff]
    rintro ⟨c, i⟩ hc hi
    obtain ⟨d, -, hc⟩ := List.mem_flatMap.1 hc
    have := le_depth_of_mem_walk hc
    simp only [beq_iff_eq] at hi
    omega
  rw [outermost, walk_eq, List.filter_cons_of_pos (by rfl), hinner]
  rfl

theorem outermost_walk (unit : CompilationUnit) : outermost unit.walk = Part.exprs (parts unit) := by
  rw [← unit.walk_parts, Part.walk]
  induction Part.exprs (parts unit) with
  | nil => rfl
  | cons e es ih =>
    have hcons : outermost ((e :: es).flatMap (·.walk 0)) =
        outermost (e.walk 0) ++ outermost (es.flatMap (·.walk 0)) := by
      simp [outermost]
    rw [hcons, ih, e.outermost_walk, List.singleton_append]

/-- All expressions of a document are numbered differently. -/
theorem ReadFrom.nodup_ids {tokens : List Token} {unit : CompilationUnit} (h : ReadFrom tokens unit) :
    (unit.walk.map (·.1.id)).Nodup := by
  obtain ⟨n, hn⟩ := h.numbered
  have hids : unit.walk.map (·.1.id) = ((Part.exprs (parts unit)).flatMap Expr.within).map Expr.id := by
    rw [← unit.walk_parts, Part.walk, List.map_flatMap, List.map_flatMap]
    refine List.flatMap_congr fun e _ => ?_
    rw [Expr.within, List.map_map]
    rfl
  rw [hids]
  exact hn.nodup

namespace SourceTree

variable {text : String} {tree : SourceTree}

/-- Every expression of a document takes up some whole tokens. Its parts are smaller, lie inside it and
stand one behind the other, as do the outermost expressions in the document, and no two expressions have
the same number. -/
theorem ranges_of_ofText (h : ofText text = .ok tree) :
    (∃ lexed, Lexed.ofText text = .ok lexed ∧ ∀ e depth, (e, depth) ∈ tree.unit.walk →
      e.span.start < e.span.stop ∧
      (∃ t ∈ lexed.tokens, e.span.start = t.span.start) ∧
      (∃ t ∈ lexed.tokens, e.span.stop = t.span.stop) ∧
      (∀ c ∈ e.children, e.span.contains c.span = true ∧ c.span.length < e.span.length) ∧
      e.children.Pairwise fun a b => a.span.stop ≤ b.span.start) ∧
    (outermost tree.unit.walk).Pairwise (fun a b => a.span.stop ≤ b.span.start) ∧
    (tree.unit.walk.map (·.1.id)).Nodup := by
  obtain ⟨lexed, hl, hu, -⟩ := ofText_eq_ok.1 h
  obtain ⟨hread, -⟩ := readFrom hl hu
  obtain ⟨horderly, hpairwise⟩ := orderly h
  refine ⟨⟨lexed, hl, fun e depth he => ?_⟩, ?_, hread.nodup_ids⟩
  · obtain ⟨a, ha, he⟩ := CompilationUnit.mem_walk_iff.1 ⟨depth, he⟩
    have ho := horderly a ha e he
    obtain ⟨u, v, x, n, htokens, hv⟩ := hread.inside ha he
    have hmem (t : Token) (ht : t ∈ v) : t ∈ lexed.tokens := by simp [htokens, ht]
    obtain ⟨⟨t, ht, hstart⟩, t', ht', hstop⟩ := hv.node.ends hv.ne_nil
    refine ⟨ho.nonempty, ⟨t, hmem t ht, hstart⟩, ⟨t', hmem t' ht', hstop⟩, fun c hc => ?_, ho.apart⟩
    obtain ⟨hs, he, hne⟩ := ho.inside c hc
    refine ⟨Span.contains_iff.2 ⟨hs, he⟩, ?_⟩
    -- inside and as long would be the same span
    have hends : c.span.start ≠ e.span.start ∨ c.span.stop ≠ e.span.stop := by
      by_contra heq
      push Not at heq
      apply hne
      cases hcs : c.span
      cases hes : e.span
      simp_all
    have := c.span.start_le_stop
    have := ho.nonempty
    simp only [Span.length]
    omega
  · rw [outermost_walk]
    exact hpairwise

/-- Two fields, one of them with a call and a sign in its value. -/
def pairText : String := "class A\x7bint f=g(1)+-x,h=2;\x7d"

theorem ranges_of_ofText_pair : ∃ tree, ofText pairText = .ok tree ∧
    (outermost tree.unit.walk).length = 2 ∧
    (outermost tree.unit.walk).Pairwise (fun a b => a.span.stop ≤ b.span.start) ∧
    tree.unit.walk.length = 7 ∧ (tree.unit.walk.map (·.1.id)).Nodup := by
  have found : ((ofText pairText).toOption.any fun tree =>
      (outermost tree.unit.walk).length = 2 && tree.unit.walk.length = 7) = true := by
    decide +kernel
  cases h : ofText pairText with
  | error e => simp [h, Except.toOption] at found
  | ok tree =>
    simp only [h, Except.toOption, Option.any_some, Bool.and_eq_true, decide_eq_true_eq] at found
    obtain ⟨-, hpairwise, hnodup⟩ := ranges_of_ofText h
    exact ⟨tree, rfl, found.1, hpairwise, found.2, hnodup⟩

end SourceTree

end CultureLint
