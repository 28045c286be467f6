import CultureLint.Tree.Expr
import CultureLint.Token.Basic

/-! Tokens in the order of the text, and the places of nodes among them. -/

namespace CultureLint

/-- Each token has some text and ends before the next ones start. -/
structure Ordered (w : List Token) : Prop where
  pairwise : w.Pairwise fun a b => a.span.stop ≤ b.start
  nonempty : ∀ t ∈ w, t.start < t.span.stop

namespace Ordered

variable {w v : List Token}

theorem append_iff : Ordered (w ++ v) ↔
    Ordered w ∧ Ordered v ∧ ∀ a ∈ w, ∀ b ∈ v, a.span.stop ≤ b.start := by
  constructor
  · rintro ⟨hp, hn⟩
    obtain ⟨hw, hv, h⟩ := List.pairwise_append.1 hp
    exact ⟨⟨hw, fun t ht => hn t (List.mem_append_left _ ht)⟩,
      ⟨hv, fun t ht => hn t (List.mem_append_right _ ht)⟩, h⟩
  · rintro ⟨hw, hv, h⟩
    exact ⟨List.pairwise_append.2 ⟨hw.pairwise, hv.pairwise, h⟩,
      fun t ht => (List.mem_append.1 ht).elim (hw.nonempty t) (hv.nonempty t)⟩

theorem left (h : Ordered (w ++ v)) : Ordered w := (append_iff.1 h).1

theorem right (h : Ordered (w ++ v)) : Ordered v := (append_iff.1 h).2.1

theorem tail {t : Token} (h : Ordered (t :: w)) : Ordered w := right (w := [t]) h

/-- All tokens lie between the start of the first and the end of the last. -/
theorem bounds (h : Ordered w) {a b t : Token} (ha : w.head? = some a) (hb : w.getLast? = some b)
    (ht : t ∈ w) : a.start ≤ t.start ∧ t.span.stop ≤ b.span.stop := by
  constructor
  · obtain ⟨u, rfl⟩ := List.head?_eq_some_iff.1 ha
    obtain rfl | hu := List.mem_cons.1 ht
    · exact Nat.le_refl _
    · have := List.rel_of_pairwise_cons h.pairwise hu
      have := h.nonempty a (List.mem_cons_self ..)
      omega
  · obtain ⟨u, rfl⟩ := List.getLast?_eq_some_iff.1 hb
    obtain hu | hu := List.mem_append.1 ht
    · have := (append_iff.1 h).2.2 t hu b (List.mem_singleton_self b)
      have := h.nonempty b (by simp)
      omega
    · obtain rfl := List.mem_singleton.1 hu
      exact Nat.le_refl _

end Ordered

/-- The node spans exactly the tokens. -/
structure Placed (w : List Token) (node : Node) : Prop where
  start : ∀ t, w.head? = some t → node.span.start = t.start
  stop : ∀ t, w.getLast? = some t → node.span.stop = t.span.stop

namespace Placed

variable {w v m : List Token}

theorem of_bounds (ho : Ordered w) {start stop : Nat} (hs : ∀ t, w.head? = some t → start = t.start)
    (he : ∀ t, w.getLast? = some t → stop = t.span.stop) (id : Nat) :
    Placed w ⟨id, Span.upTo start stop⟩ := by
  refine ⟨hs, fun t ht => ?_⟩
  obtain ⟨a, ha⟩ : ∃ a, w.head? = some a := by
    cases w with
    | nil => simp at ht
    | cons a w => exact ⟨a, rfl⟩
  obtain ⟨u, rfl⟩ := List.head?_eq_some_iff.1 ha
  have hb := ho.bounds rfl ht (List.mem_cons_self ..)
  have := ho.nonempty a (List.mem_cons_self ..)
  have := hs a rfl
  have := he t ht
  change max start stop = t.span.stop
  omega

/-- The node starts with one of the tokens and ends with one. -/
theorem ends {node : Node} (h : Placed w node) (hw : w ≠ []) :
    (∃ t ∈ w, node.span.start = t.start) ∧ ∃ t ∈ w, node.span.stop = t.span.stop := by
  obtain ⟨f, hf⟩ : ∃ f, w.head? = some f := Option.ne_none_iff_exists'.1 (by simpa using hw)
  obtain ⟨l, hl⟩ : ∃ l, w.getLast? = some l := Option.ne_none_iff_exists'.1 (by simpa using hw)
  exact ⟨⟨f, List.mem_of_mem_head? hf, h.start f hf⟩, l, List.mem_of_mem_getLast? hl, h.stop l hl⟩

/-- From the first tokens to the last ones. -/
theorem cover {a b : Node} (ho : Ordered (w ++ m ++ v)) (hw : w ≠ []) (hv : v ≠ [])
    (ha : Placed w a) (hb : Placed v b) (id : Nat) :
    Placed (w ++ m ++ v) ⟨id, a.span.cover b.span⟩ := by
  obtain ⟨f, hf⟩ : ∃ f, w.head? = some f := Option.ne_none_iff_exists'.1 (by simpa using hw)
  obtain ⟨l, hl⟩ : ∃ l, v.getLast? = some l := Option.ne_none_iff_exists'.1 (by simpa using hv)
  obtain ⟨f', hf'⟩ : ∃ f, v.head? = some f := Option.ne_none_iff_exists'.1 (by simpa using hv)
  obtain ⟨l', hl'⟩ : ∃ l, w.getLast? = some l := Option.ne_none_iff_exists'.1 (by simpa using hw)
  have hh : (w ++ m ++ v).head? = some f := by simp [hf]
  have ht : (w ++ m ++ v).getLast? = some l := by simp [hl]
  have mem {t : Token} {u : List Token} (h : u.head? = some t) : t ∈ u := List.mem_of_mem_head? h
  have mem' {t : Token} {u : List Token} (h : u.getLast? = some t) : t ∈ u :=
    List.mem_of_mem_getLast? h
  have h1 := ho.bounds hh ht (t := f') (by simp [mem hf'])
  have h2 := ho.bounds hh ht (t := l') (by simp [mem' hl'])
  have := ha.start f hf
  have := hb.start f' hf'
  have := ha.stop l' hl'
  have := hb.stop l hl
  constructor
  · intro t h
    obtain rfl : f = t := Option.some.inj (hh.symm.trans h)
    change min a.span.start b.span.start = f.start
    omega
  · intro t h
    obtain rfl : l = t := Option.some.inj (ht.symm.trans h)
    change max a.span.stop b.span.stop = l.span.stop
    omega

end Placed

end CultureLint
