import CultureLint.Proofs.Parser.Layout

/-! An edit of a document as its tokens see it. A change puts other tokens in the place of some that lie
in its zone, and an expression or a list of `using` lines in the place of the one that has the zone; all
other tokens and all other parts stay. -/

namespace CultureLint

/-- The node begins where the tokens do, if it is a place at all. -/
def Begins (w : List Token) (node : Node) : Prop :=
  node.span.start < node.span.stop → ∀ t, w.head? = some t → node.span.start = t.start

theorem Placed.begins {w : List Token} {node : Node} (h : Placed w node) : Begins w node := fun _ => h.start

/-- Other tokens for some, and what becomes of the part that they belong to; and, where it matters, what the tokens
that come of it have to do with those that are read in the end. -/
structure Change where
  zone : Span
  word : Token → List Token
  expr : Expr → Expr
  usings : List Using → List Using
  owns : Part → Prop
  sees : Token → Token → Prop := fun _ _ => True

namespace Change

variable (c : Change)

/-- Whether the token is in the zone. -/
def covers (t : Token) : Prop := c.zone.start ≤ t.start ∧ t.start < c.zone.stop

/-- No token is in the zone. -/
def Outside (w : List Token) : Prop := ∀ t ∈ w, ¬ c.covers t

/-- What becomes of some tokens. -/
def tokens (w : List Token) : List Token := w.flatMap c.word

@[simp] theorem tokens_nil : c.tokens [] = [] := rfl

@[simp] theorem tokens_append (w v : List Token) : c.tokens (w ++ v) = c.tokens w ++ c.tokens v :=
  List.flatMap_append

/-- What becomes of a tree. -/
def apply {α : Type} [Outline α] : α → α := Outline.map c.expr c.usings

/-- The zone is outside the tokens, or in one of the parts that stand there. -/
def Fits (w : List Token) (ps : List Part) : Prop := c.Outside w ∨ ∃ p ∈ ps, c.owns p

/-- The tokens of a text, with the same words, that have to do with some tokens what they should. -/
structure Seen (w v : List Token) : Prop where
  alike : Alike w v
  sees : List.Forall₂ c.sees w v
  ordered : Ordered v

/-- What a part has to do with the one that is read in its place: expressions stand at tokens that do. -/
inductive Meets : Part → Part → Prop
  | usings (us us' : List Using) : Meets (.usings us) (.usings us')
  | expr {w w' : List Token} {n n' : Option Token} {e e' : Expr} (ho : Ordered w)
      (h : Spelled Placed w n (.expr e)) (h' : Spelled Placed w' n' (.expr e')) (hfit : c.Fits w [.expr e])
      (hseen : c.Seen (c.tokens w) w') : Meets (.expr e) (.expr e')

/-- A change that keeps what is not in its zone, and whose zone is inside the part that has it. -/
structure Local : Prop where
  word : ∀ t, ¬ c.covers t → c.word t = [t]
  owns : ∀ p u v x, c.owns p → p.At v → Ordered (u ++ v ++ x) → c.Outside u ∧ c.Outside x

variable {c} {w v : List Token} {ps qs : List Part}

theorem Outside.left (h : c.Outside (w ++ v)) : c.Outside w :=
  fun t ht => h t (List.mem_append_left _ ht)

theorem Outside.right (h : c.Outside (w ++ v)) : c.Outside v :=
  fun t ht => h t (List.mem_append_right _ ht)

theorem Fits.outside (h : c.Fits w []) : c.Outside w := by simpa [Fits] using h

namespace Seen

theorem length_eq (h : c.Seen w v) : w.length = v.length := h.alike.length_eq

theorem append_left {w' : List Token} (h : c.Seen (w ++ w') v) :
    ∃ u u', v = u ++ u' ∧ c.Seen w u ∧ c.Seen w' u' := by
  obtain ⟨u, u', rfl, hu, hu'⟩ := Alike.append_left.1 h.alike
  have hw := List.forall₂_take w.length h.sees
  have hw' := List.forall₂_drop w.length h.sees
  rw [List.take_left', List.take_left' hu.length_eq.symm] at hw
  · rw [List.drop_left', List.drop_left' hu.length_eq.symm] at hw'
    · exact ⟨u, u', rfl, ⟨hu, hw, h.ordered.left⟩, hu', hw', h.ordered.right⟩
    · rfl
  · rfl

theorem cons_left {t : Token} (h : c.Seen (t :: w) v) :
    ∃ t' v', v = t' :: v' ∧ bare t = bare t' ∧ c.sees t t' ∧ c.Seen w v' := by
  obtain ⟨t', v', rfl, ht, hv⟩ := Alike.cons_left.1 h.alike
  obtain ⟨hsees, hrest⟩ := List.forall₂_cons.1 h.sees
  exact ⟨t', v', rfl, ht, hsees, hv, hrest, h.ordered.tail⟩

end Seen

namespace Local

variable (h : c.Local)
include h

theorem tokens_outside (ho : c.Outside w) : c.tokens w = w := by
  induction w with
  | nil => rfl
  | cons t w ih =>
    have ht : c.word t = [t] := h.word t (ho t (List.mem_cons_self ..))
    have hw : c.tokens w = w := ih fun u hu => ho u (List.mem_cons_of_mem _ hu)
    change c.word t ++ c.tokens w = t :: w
    rw [ht, hw, List.singleton_append]

theorem tokens_cons {t : Token} (ho : ¬ c.covers t) : c.tokens (t :: w) = t :: c.tokens w := by
  change c.word t ++ c.tokens w = _
  rw [h.word t ho, List.singleton_append]

/-- The zone is in one of two stretches at most. -/
theorem fits_append (hw : Laid w ps) (hv : Laid v qs) (ho : Ordered (w ++ v))
    (hf : c.Fits (w ++ v) (ps ++ qs)) : c.Fits w ps ∧ c.Fits v qs := by
  obtain hout | ⟨p, hp, hown⟩ := hf
  · exact ⟨.inl hout.left, .inl hout.right⟩
  · obtain hp | hp := List.mem_append.1 hp
    · obtain ⟨u, x, y, rfl, hx⟩ := hw.mem hp
      have := h.owns p u x (y ++ v) hown hx (by simpa using ho)
      exact ⟨.inr ⟨p, hp, hown⟩, .inl this.2.right⟩
    · obtain ⟨u, x, y, rfl, hx⟩ := hv.mem hp
      have := h.owns p (w ++ u) x y hown hx (by simpa using ho)
      exact ⟨.inl this.1.left, .inr ⟨p, hp, hown⟩⟩

theorem fits_left (hw : Laid w ps) (ho : Ordered (w ++ v)) (hf : c.Fits (w ++ v) ps) :
    c.Fits w ps ∧ c.Outside v :=
  (h.fits_append hw (.nil v) ho (by rwa [List.append_nil])).imp_right Fits.outside

theorem fits_right (hv : Laid v ps) (ho : Ordered (w ++ v)) (hf : c.Fits (w ++ v) ps) :
    c.Outside w ∧ c.Fits v ps :=
  (h.fits_append (.nil w) hv ho hf).imp_left Fits.outside

end Local

/-! ### Tokens put around a zone -/

/-- The change that puts tokens before the first and behind the last token of a zone. -/
def around (zone : Span) (pre post : List Token) (expr : Expr → Expr)
    (usings : List Using → List Using) (owns : Part → Prop) (sees : Token → Token → Prop) : Change where
  zone := zone
  word t :=
    if zone.start ≤ t.start ∧ t.start < zone.stop then
      (if t.start = zone.start then pre else []) ++ t :: (if t.span.stop = zone.stop then post else [])
    else [t]
  expr := expr
  usings := usings
  owns := owns
  sees := sees

section

variable {node : Node} {pre post : List Token} {expr : Expr → Expr} {usings : List Using → List Using}
  {owns : Part → Prop} {sees : Token → Token → Prop}

theorem word_around (t : Token) : (around node.span pre post expr usings owns sees).word t =
    if node.span.start ≤ t.start ∧ t.start < node.span.stop then
      (if t.start = node.span.start then pre else []) ++
        t :: (if t.span.stop = node.span.stop then post else [])
    else [t] := rfl

theorem tokens_around (hp : Placed v node) (ho : Ordered v) (hv : v ≠ []) :
    (around node.span pre post expr usings owns sees).tokens v = pre ++ v ++ post := by
  obtain ⟨a, m, rfl⟩ := List.exists_cons_of_ne_nil hv
  have ha : node.span.start = a.start := hp.start a rfl
  have hpos := ho.nonempty a (List.mem_cons_self ..)
  rcases List.eq_nil_or_concat m with rfl | ⟨m, z, rfl⟩
  · have hz : node.span.stop = a.span.stop := hp.stop a rfl
    simp [tokens, word_around, ha, hz, hpos]
  rw [List.concat_eq_append, ← List.cons_append] at *
  have hz : node.span.stop = z.span.stop := hp.stop z List.getLast?_concat
  have hzpos := ho.nonempty z (by simp)
  obtain ⟨hom, -, hbefore⟩ := Ordered.append_iff.1 ho
  have haz := hbefore a (List.mem_cons_self ..) z (List.mem_singleton_self z)
  -- a token in the middle is neither the first nor the last
  have hmid : m.flatMap (around node.span pre post expr usings owns sees).word = m := by
    conv_rhs => rw [← List.flatMap_singleton' m]
    refine List.flatMap_congr fun t ht => ?_
    have h₁ := List.rel_of_pairwise_cons hom.pairwise ht
    have h₂ := hbefore t (List.mem_cons_of_mem _ ht) z (List.mem_singleton_self z)
    have h₃ := hom.nonempty t (List.mem_cons_of_mem _ ht)
    rw [word_around, if_pos (by omega), if_neg (by omega), if_neg (by omega), List.nil_append]
  have hfirst : (around node.span pre post expr usings owns sees).word a = pre ++ [a] := by
    rw [word_around, if_pos (by omega), if_pos (by omega), if_neg (by omega)]
  have hlast : (around node.span pre post expr usings owns sees).word z = z :: post := by
    rw [word_around, if_pos (by omega), if_neg (by omega), if_pos (by omega), List.nil_append]
  simp [tokens, hfirst, hlast, hmid]

theorem not_outside_around (hp : Placed v node) (hv : v ≠ []) (ho : Ordered v) :
    ¬ (around node.span pre post expr usings owns sees).Outside v := by
  intro hout
  obtain ⟨a, ha⟩ : ∃ a, v.head? = some a := Option.ne_none_iff_exists'.1 (by simpa using hv)
  obtain ⟨z, hz⟩ : ∃ z, v.getLast? = some z := Option.ne_none_iff_exists'.1 (by simpa using hv)
  have hmem : a ∈ v := List.mem_of_mem_head? ha
  have hstart : node.span.start = a.start := hp.start a ha
  have hstop : node.span.stop = z.span.stop := hp.stop z hz
  have hb := ho.bounds ha hz hmem
  have hpos := ho.nonempty a hmem
  exact hout a hmem ⟨Nat.le_of_eq hstart, show a.start < node.span.stop by omega⟩

/-- What stands before or behind the zone is outside it. -/
theorem outside_around (hp : Placed v node) (hv : v ≠ []) {u x : List Token}
    (ho : Ordered (u ++ v ++ x)) : (around node.span pre post expr usings owns sees).Outside u ∧
      (around node.span pre post expr usings owns sees).Outside x := by
  obtain ⟨a, ha⟩ : ∃ a, v.head? = some a := Option.ne_none_iff_exists'.1 (by simpa using hv)
  obtain ⟨z, hz⟩ : ∃ z, v.getLast? = some z := Option.ne_none_iff_exists'.1 (by simpa using hv)
  have hstart : node.span.start = a.start := hp.start a ha
  have hstop : node.span.stop = z.span.stop := hp.stop z hz
  obtain ⟨huv, -, hx⟩ := Ordered.append_iff.1 ho
  obtain ⟨hu, -, hv⟩ := Ordered.append_iff.1 huv
  constructor
  · rintro t ht ⟨h₁, -⟩
    have := hv t ht a (List.mem_of_mem_head? ha)
    have := hu.nonempty t ht
    change node.span.start ≤ t.start at h₁
    omega
  · rintro t ht ⟨-, h₂⟩
    have := hx z (List.mem_append_right _ (List.mem_of_mem_getLast? hz)) t ht
    change t.start < node.span.stop at h₂
    omega

end

end Change

end CultureLint
