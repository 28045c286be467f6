import CultureLint.Proofs.Parser.Complete
import CultureLint.Proofs.Tree.Facing

/-! Two expressions in which the same is written, each at its tokens. Where the tokens are the same words one by one,
the parts of the expressions stand at the same of them. That is not plain from the words alone, as the marks before an
argument leave no trace in the tree; but where such marks end can be seen from what follows. -/

namespace CultureLint

open CultureLint.Parser CultureLint.Grammar

namespace Spelled

variable {P Q : List Token → Node → Prop} {S : Token → Token → Prop}

/-! ### What an expression is spelled by -/

/-- The tokens that the grammar asks for, by the form of the phrase. -/
def Form (P : List Token → Node → Prop) (w : List Token) (n : Option Token) : Phrase → Prop
  | .expr (.literal ..) | .expr (.name ..) | .expr (.primitive ..) | .expr (.this _) => ∃ t, w = [t]
  | .expr (.parenthesized _ e) => ∃ o v c, w = o :: (v ++ [c]) ∧ Spelled P v (some c) (.expr e)
  | .expr (.objectCreation _ type es) => ∃ k wt o v c, w = k :: (wt ++ o :: (v ++ [c])) ∧ TypeBefore wt o type ∧
      o.isPunct "(" = true ∧ c.isPunct ")" = true ∧ Spelled P v (some c) (.args es)
  | .expr (.memberAccess _ e _) => ∃ v d i, w = v ++ [d, i] ∧ Spelled P v (some d) (.expr e)
  | .expr (.invocation _ e es) => ∃ v o va c, w = v ++ o :: (va ++ [c]) ∧ Spelled P v (some o) (.expr e) ∧
      c.isPunct ")" = true ∧ Spelled P va (some c) (.args es)
  | .expr (.elementAccess _ e es) => ∃ v o va c, w = v ++ o :: (va ++ [c]) ∧ Spelled P v (some o) (.expr e) ∧
      c.isPunct "]" = true ∧ Spelled P va (some c) (.args es)
  | .expr (.step _ _ e) => ∃ v t, w = v ++ [t] ∧ Spelled P v (some t) (.expr e)
  | .expr (.unary _ _ e) => ∃ t v, w = t :: v ∧ Spelled P v n (.expr e)
  | .expr (.cast _ type e) => ∃ o wt c v, w = o :: (wt ++ c :: v) ∧ TypeBefore wt c type ∧ c.isPunct ")" = true ∧
      Spelled P v n (.expr e)
  | .expr (.binary _ _ l r) => ∃ wl t wr, w = wl ++ t :: wr ∧ Spelled P wl (some t) (.expr l) ∧ Spelled P wr n (.expr r)
  | .expr (.conditional _ condition a b) => ∃ wc q wa c wb, w = wc ++ q :: (wa ++ c :: wb) ∧
      Spelled P wc (some q) (.expr condition) ∧ Spelled P wa (some c) (.expr a) ∧ Spelled P wb n (.expr b)
  | .expr (.assignment _ _ target value) => ∃ wt t wv, w = wt ++ t :: wv ∧ Spelled P wt (some t) (.expr target) ∧
      Spelled P wv n (.expr value)
  | .args [] => w = []
  | .args [e] => ∃ m v, w = m ++ v ∧ ArgumentMarks m ∧ Spelled P v n (.expr e)
  | .args (e :: f :: es) => ∃ m v c va, w = m ++ v ++ c :: va ∧ ArgumentMarks m ∧ Spelled P v (some c) (.expr e) ∧
      c.isPunct "," = true ∧ Spelled P va n (.args (f :: es))

theorem form {w : List Token} {n : Option Token} {ph : Phrase} (h : Spelled P w n ph) : Form P w n ph := by
  cases h with
  | @atom t _ make node ht =>
    unfold atom? at ht
    repeat' split at ht
    all_goals first | cases ht | obtain ⟨_, -, rfl⟩ := Option.map_eq_some_iff.1 ht
    all_goals exact ⟨t, rfl⟩
  | paren _ _ he => exact ⟨_, _, _, rfl, he⟩
  | create _ ht ho hc hes => exact ⟨_, _, _, _, _, rfl, ht, ho, hc, hes⟩
  | member he => exact ⟨_, _, _, rfl, he⟩
  | call he _ _ hc hes | index he _ _ hc hes => exact ⟨_, _, _, _, rfl, he, hc, hes⟩
  | step he => exact ⟨_, _, rfl, he⟩
  | unary _ he => exact ⟨_, _, rfl, he⟩
  | cast _ ht hc _ he => exact ⟨_, _, _, _, rfl, ht, hc, he⟩
  | binary _ hl hr => exact ⟨_, _, _, rfl, hl, hr⟩
  | conditional hcond _ _ ha _ hb => exact ⟨_, _, _, _, _, rfl, hcond, ha, hb⟩
  | assignment _ ht _ hv => exact ⟨_, _, _, rfl, ht, hv⟩
  | noArgs => rfl
  | lastArg hm he => exact ⟨_, _, rfl, hm, he⟩
  | @moreArgs _ _ _ _ _ _ es hm he hc hes hne =>
    obtain ⟨f, es, rfl⟩ := List.exists_cons_of_ne_nil hne
    exact ⟨_, _, _, _, rfl, hm, he, hc, hes⟩

/-! ### Where types and marks end -/

theorem length_type {w w' r r' : List Token} {o o' : Token} {type type' : TypeExpr} (h : TypeBefore w o type)
    (h' : TypeBefore w' o' type') (ho : o.isPlain = true) (ho' : o'.isPlain = true)
    (ha : Alike (w ++ o :: r) (w' ++ o' :: r')) : w.length = w'.length := by
  obtain ⟨s, s', hs, hw, hn⟩ := h
  obtain ⟨t, t', ht, hw', hn'⟩ := h'
  obtain ⟨x, hx⟩ := List.head?_eq_some_iff.1 hn
  obtain ⟨x', hx'⟩ := List.head?_eq_some_iff.1 hn'
  obtain ⟨v, u, hvu, hv, hu⟩ := Alike.append_left.1 ha
  obtain ⟨a, u, rfl, hoa, -⟩ := Alike.cons_left.1 hu
  obtain ⟨v₁, hv₁, hread⟩ := Steady.type s type s' hs
  obtain rfl := hv₁.unique hw
  obtain ⟨v₂, hv₂, hread'⟩ := Steady.type t type' t' ht
  obtain rfl := hv₂.unique hw'
  let cursor := Cursor.ofTokens (v₂ ++ o' :: r') 0
  obtain ⟨_, m, hm, hrest, -⟩ := hread cursor v (a :: u) hvu hv (by rw [hx]; exact .plain hoa ho)
  obtain ⟨_, m', hm', hrest', -⟩ := hread' cursor v₂ (o' :: r') rfl (.refl _) (by rw [hx']; exact .plain rfl ho')
  obtain ⟨-, rfl⟩ := Prod.mk.inj (Except.ok.inj (hm.symm.trans hm'))
  rw [hrest] at hrest'
  have := congrArg List.length hvu
  have := congrArg List.length hrest'
  have := hv.length_eq
  simp only [List.length_append] at *
  omega

/-- How many marks there are before an argument. -/
def marksLength (w : List Token) : Nat :=
  let named := w.head?.any Token.isIdentifier && w.tail.head?.any (·.isPunct ":")
  let name := if named then 2 else 0
  name + ((w.drop name).takeWhile fun t => passingWords.any t.isKeyword).length

theorem takeWhile_passing {words w : List Token} {n : Option Token} {e : Expr} (h : Spelled P w n (.expr e))
    (hwords : ∀ t ∈ words, passingWords.any t.isKeyword = true) (r : List Token) :
    (words ++ w ++ r).takeWhile (fun t => passingWords.any t.isKeyword) = words := by
  obtain ⟨t, v, rfl, ht⟩ := h.head rfl
  rw [List.append_assoc, List.takeWhile_append_of_pos hwords, List.cons_append, List.takeWhile_cons_of_neg,
    List.append_nil]
  simp [passing_of_opens ht]

theorem marksLength_eq {m w : List Token} {n : Option Token} {e : Expr} (hm : ArgumentMarks m)
    (h : Spelled P w n (.expr e)) {r : List Token} (hr : r.head?.any (·.isPunct ":") = false) :
    marksLength (m ++ w ++ r) = m.length := by
  obtain ⟨name, words, rfl, hwords, rfl | ⟨i, c, rfl, hi, hc⟩⟩ := hm
  · have hnamed : ((words ++ w ++ r).head?.any Token.isIdentifier &&
        (words ++ w ++ r).tail.head?.any (·.isPunct ":")) = false := by
      obtain ⟨a, v, rfl, -⟩ := h.head rfl
      refine Bool.and_eq_false_imp.2 fun hi => ?_
      cases words with
      | cons t words =>
        obtain ⟨word, -, hword⟩ := List.any_eq_true.1 (hwords t (List.mem_cons_self ..))
        simp [isIdentifier_of_isKeyword hword] at hi
      | nil =>
        cases v with
        | nil => simpa using hr
        | cons c v => simpa using h.unnamed rfl a c v rfl (by simpa using hi)
    simp only [marksLength, List.nil_append, hnamed, Bool.false_eq_true, if_false, List.drop_zero, Nat.zero_add,
      takeWhile_passing h hwords r]
  · have := congrArg List.length (takeWhile_passing h hwords r)
    simp only [List.append_assoc] at this
    simp only [marksLength, List.append_assoc, List.cons_append, List.nil_append, List.head?_cons, Option.any_some, hi,
      List.tail_cons, hc, Bool.and_self, if_true, List.drop_succ_cons, List.drop_zero, this, List.length_cons]
    omega

theorem marksLength_congr {w w' : List Token} (h : Alike w w') : marksLength w = marksLength w' := by
  have hbare (v : List Token) : marksLength (v.map bare) = marksLength v := by
    simp only [marksLength, List.head?_map, ← List.map_tail, ← List.map_drop, List.takeWhile_map, List.length_map,
      Option.any_map]
    rfl
  rw [← hbare w, ← hbare w']
  exact congrArg marksLength h

/-! ### Side by side -/

variable (P Q S) in
/-- Two expressions at tokens that are paired one by one. -/
def Abreast (c c' : Expr) : Prop := ∃ v v', v ≠ [] ∧ P v c.node ∧ Q v' c'.node ∧ List.Forall₂ S v v'

theorem alike_of_forall₂ (hS : ∀ t t', S t t' → bare t = bare t') {w w' : List Token} (h : List.Forall₂ S w w') :
    Alike w w' := by
  induction h with
  | nil => rfl
  | cons ht _ ih => exact congrArg₂ List.cons (hS _ _ ht) ih

theorem not_colon {c : Token} {mark : String} (h : c.isPunct mark = true) (hmark : (mark == ":") = false)
    (r : List Token) : (c :: r).head?.any (·.isPunct ":") = false :=
  (isPunct_unique h).trans hmark

variable (P Q S) in
/-- Where the same is written as in the expression, the two stand alike at words that begin alike. -/
def StandsAlike (e : Expr) : Prop :=
  ∀ {e' : Expr} {w w' r r' : List Token} {n n' : Option Token}, Spelled P w n (.expr e) → Spelled Q w' n' (.expr e') →
    e'.bare = e.bare → List.Forall₂ S (w ++ r) (w' ++ r') →
      List.Forall₂ S w w' ∧ List.Forall₂ S r r' ∧ List.Forall₂ (Abreast P Q S) e.within e'.within

/-- Arguments in which the same is written stand alike at words that begin alike. -/
theorem abreast_args (hS : ∀ t t', S t t' → bare t = bare t') {es es' : List Expr}
    (hes : ∀ e ∈ es, StandsAlike P Q S e) {w w' r r' : List Token} {n n' : Option Token}
    (h : Spelled P w n (.args es)) (h' : Spelled Q w' n' (.args es')) (hb : Expr.bareAll es' = Expr.bareAll es)
    (hs : List.Forall₂ S (w ++ r) (w' ++ r')) (hr : r.head?.any (·.isPunct ":") = false)
    (hr' : r'.head?.any (·.isPunct ":") = false) : List.Forall₂ S w w' ∧ List.Forall₂ S r r' ∧
      List.Forall₂ (Abreast P Q S) (es.flatMap Expr.within) (es'.flatMap Expr.within) := by
  induction es generalizing es' w w' with
  | nil =>
    cases es' with
    | cons => cases hb
    | nil =>
      obtain rfl : w = [] := h.form
      obtain rfl : w' = [] := h'.form
      exact ⟨.nil, hs, .nil⟩
  | cons e es ih =>
    obtain ⟨he, hes⟩ := List.forall_mem_cons.1 hes
    cases es' with
    | nil => cases hb
    | cons e' es' =>
    obtain ⟨hbe, hb⟩ := List.cons.inj hb
    cases es with
    | nil =>
      cases es' with
      | cons => cases hb
      | nil =>
        obtain ⟨m, v, rfl, hm, hv⟩ := h.form
        obtain ⟨m', v', rfl, hm', hv'⟩ := h'.form
        have hlm : m.length = m'.length := by
          rw [← marksLength_eq hm hv hr, ← marksLength_eq hm' hv' hr', marksLength_congr (alike_of_forall₂ hS hs)]
        simp only [List.append_assoc] at hs
        obtain ⟨hsm, hs⟩ := forall₂_append_inv hs hlm
        obtain ⟨hsv, hs, hwithin⟩ := he hv hv' hbe hs
        exact ⟨List.rel_append hsm hsv, hs, by simpa using hwithin⟩
    | cons d es =>
      cases es' with
      | nil => cases hb
      | cons d' es' =>
        obtain ⟨m, v, c, va, rfl, hm, hv, hc, hva⟩ := h.form
        obtain ⟨m', v', c', va', rfl, hm', hv', hc', hva'⟩ := h'.form
        simp only [List.append_assoc, List.cons_append] at hs
        have hlm : m.length = m'.length := by
          have := marksLength_congr (alike_of_forall₂ hS hs)
          rwa [← List.append_assoc, ← List.append_assoc, marksLength_eq hm hv (not_colon hc rfl _),
            marksLength_eq hm' hv' (not_colon hc' rfl _)] at this
        obtain ⟨hsm, hs⟩ := forall₂_append_inv hs hlm
        obtain ⟨hsv, hs, hwithin⟩ := he hv hv' hbe hs
        obtain ⟨hsc, hs⟩ := List.forall₂_cons.1 hs
        obtain ⟨hsa, hs, hwithin'⟩ := ih hes hva hva' hb hs
        exact ⟨List.rel_append (List.rel_append hsm hsv) (.cons hsc hsa), hs, List.rel_append hwithin hwithin'⟩

/-- Expressions stand alike if their parts do. -/
theorem StandsAlike.of_children (hS : ∀ t t', S t t' → bare t = bare t') {e : Expr}
    (hparts : ∀ c ∈ e.children, StandsAlike P Q S c) : StandsAlike P Q S e := by
  intro e' w w' r r' n n' h h' hb hs
  suffices List.Forall₂ S w w' ∧ List.Forall₂ S r r' ∧
      List.Forall₂ (Abreast P Q S) (e.children.flatMap Expr.within) (e'.children.flatMap Expr.within) by
    obtain ⟨hw, hr, hwithin⟩ := this
    rw [Expr.within_eq e, Expr.within_eq e']
    exact ⟨hw, hr, .cons ⟨w, w', h.ne_nil, h.node, h'.node, hw⟩ hwithin⟩
  obtain ⟨hlike, hb⟩ := Expr.like_of_bare hb
  cases hlike with
  | literal | name | primitive | this =>
    obtain ⟨t, rfl⟩ := h.form
    obtain ⟨t', rfl⟩ := h'.form
    obtain ⟨hst, hs⟩ := List.forall₂_cons.1 hs
    exact ⟨.cons hst .nil, hs, .nil⟩
  | parenthesized inner inner' =>
    obtain ⟨o, v, c, rfl, he⟩ := h.form
    obtain ⟨o', v', c', rfl, he'⟩ := h'.form
    simp only [List.cons_append, List.append_assoc] at hs
    obtain ⟨hso, hs⟩ := List.forall₂_cons.1 hs
    obtain ⟨hsv, hs, hwithin⟩ := hparts inner (by simp [Expr.children]) he he' (List.cons.inj hb).1 hs
    obtain ⟨hsc, hs⟩ := List.forall₂_cons.1 hs
    exact ⟨.cons hso (List.rel_append hsv (.cons hsc .nil)), hs, by simpa [Expr.children] using hwithin⟩
  | memberAccess receiver receiver' =>
    obtain ⟨v, d, i, rfl, he⟩ := h.form
    obtain ⟨v', d', i', rfl, he'⟩ := h'.form
    simp only [List.append_assoc] at hs
    obtain ⟨hsv, hs, hwithin⟩ := hparts receiver (by simp [Expr.children]) he he' (List.cons.inj hb).1 hs
    obtain ⟨hsd, hs⟩ := List.forall₂_cons.1 hs
    obtain ⟨hsi, hs⟩ := List.forall₂_cons.1 hs
    exact ⟨List.rel_append hsv (.cons hsd (.cons hsi .nil)), hs, by simpa [Expr.children] using hwithin⟩
  | invocation callee callee' arguments arguments' | elementAccess callee callee' arguments arguments' =>
    obtain ⟨v, o, va, c, rfl, he, hc, hes⟩ := h.form
    obtain ⟨v', o', va', c', rfl, he', hc', hes'⟩ := h'.form
    obtain ⟨hcallee, harguments⟩ := List.forall_mem_cons.1 hparts
    simp only [List.cons_append, List.append_assoc] at hs
    obtain ⟨hsv, hs, hwithin⟩ := hcallee he he' (List.cons.inj hb).1 hs
    obtain ⟨hso, hs⟩ := List.forall₂_cons.1 hs
    obtain ⟨hsa, hs, hwithin'⟩ := abreast_args hS harguments hes hes' (List.cons.inj hb).2 hs (not_colon hc rfl _)
      (not_colon hc' rfl _)
    obtain ⟨hsc, hs⟩ := List.forall₂_cons.1 hs
    exact ⟨List.rel_append hsv (.cons hso (List.rel_append hsa (.cons hsc .nil))), hs,
      List.rel_append hwithin hwithin'⟩
  | @objectCreation _ _ type type' arguments arguments' =>
    obtain ⟨k, wt, o, v, c, rfl, ht, ho, hc, hes⟩ := h.form
    obtain ⟨k', wt', o', v', c', rfl, ht', ho', hc', hes'⟩ := h'.form
    simp only [List.cons_append, List.append_assoc] at hs
    obtain ⟨hsk, hs⟩ := List.forall₂_cons.1 hs
    obtain ⟨hst, hs⟩ := forall₂_append_inv hs (length_type ht ht' (isPlain_of_isPunct ho (by decide))
      (isPlain_of_isPunct ho' (by decide)) (alike_of_forall₂ hS hs))
    obtain ⟨hso, hs⟩ := List.forall₂_cons.1 hs
    obtain ⟨hsv, hs, hwithin⟩ := abreast_args hS hparts hes hes' hb hs (not_colon hc rfl _) (not_colon hc' rfl _)
    obtain ⟨hsc, hs⟩ := List.forall₂_cons.1 hs
    exact ⟨.cons hsk (List.rel_append hst (.cons hso (List.rel_append hsv (.cons hsc .nil)))), hs, hwithin⟩
  | unary _ operand operand' =>
    obtain ⟨t, v, rfl, he⟩ := h.form
    obtain ⟨t', v', rfl, he'⟩ := h'.form
    obtain ⟨hst, hs⟩ := List.forall₂_cons.1 hs
    obtain ⟨hsv, hs, hwithin⟩ := hparts operand (by simp [Expr.children]) he he' (List.cons.inj hb).1 hs
    exact ⟨.cons hst hsv, hs, by simpa [Expr.children] using hwithin⟩
  | step _ operand operand' =>
    obtain ⟨v, t, rfl, he⟩ := h.form
    obtain ⟨v', t', rfl, he'⟩ := h'.form
    simp only [List.append_assoc] at hs
    obtain ⟨hsv, hs, hwithin⟩ := hparts operand (by simp [Expr.children]) he he' (List.cons.inj hb).1 hs
    obtain ⟨hst, hs⟩ := List.forall₂_cons.1 hs
    exact ⟨List.rel_append hsv (.cons hst .nil), hs, by simpa [Expr.children] using hwithin⟩
  | cast operand operand' =>
    obtain ⟨o, wt, c, v, rfl, ht, hc, he⟩ := h.form
    obtain ⟨o', wt', c', v', rfl, ht', hc', he'⟩ := h'.form
    simp only [List.cons_append, List.append_assoc] at hs
    obtain ⟨hso, hs⟩ := List.forall₂_cons.1 hs
    obtain ⟨hst, hs⟩ := forall₂_append_inv hs (length_type ht ht' (isPlain_of_isPunct hc (by decide))
      (isPlain_of_isPunct hc' (by decide)) (alike_of_forall₂ hS hs))
    obtain ⟨hsc, hs⟩ := List.forall₂_cons.1 hs
    obtain ⟨hsv, hs, hwithin⟩ := hparts operand (by simp [Expr.children]) he he' (List.cons.inj hb).1 hs
    exact ⟨.cons hso (List.rel_append hst (.cons hsc hsv)), hs, by simpa [Expr.children] using hwithin⟩
  | binary _ left left' right right' | assignment _ left left' right right' =>
    obtain ⟨wl, t, wr, rfl, hl, hr⟩ := h.form
    obtain ⟨wl', t', wr', rfl, hl', hr'⟩ := h'.form
    simp only [List.cons_append, List.append_assoc] at hs
    obtain ⟨hsl, hs, hleft⟩ := hparts left (by simp [Expr.children]) hl hl' (List.cons.inj hb).1 hs
    obtain ⟨hst, hs⟩ := List.forall₂_cons.1 hs
    obtain ⟨hsr, hs, hright⟩ :=
      hparts right (by simp [Expr.children]) hr hr' (List.cons.inj (List.cons.inj hb).2).1 hs
    exact ⟨List.rel_append hsl (.cons hst hsr), hs, by simpa [Expr.children] using List.rel_append hleft hright⟩
  | conditional condition condition' whenTrue whenTrue' whenFalse whenFalse' =>
    obtain ⟨wc, q, wa, c, wb, rfl, hc, ha, hbb⟩ := h.form
    obtain ⟨wc', q', wa', c', wb', rfl, hc', ha', hbb'⟩ := h'.form
    simp only [List.cons_append, List.append_assoc] at hs
    obtain ⟨hbc, hb⟩ := List.cons.inj hb
    obtain ⟨hba, hb⟩ := List.cons.inj hb
    obtain ⟨hsc, hs, hcondition⟩ := hparts condition (by simp [Expr.children]) hc hc' hbc hs
    obtain ⟨hsq, hs⟩ := List.forall₂_cons.1 hs
    obtain ⟨hsa, hs, htrue⟩ := hparts whenTrue (by simp [Expr.children]) ha ha' hba hs
    obtain ⟨hst, hs⟩ := List.forall₂_cons.1 hs
    obtain ⟨hsb, hs, hfalse⟩ := hparts whenFalse (by simp [Expr.children]) hbb hbb' (List.cons.inj hb).1 hs
    exact ⟨List.rel_append hsc (.cons hsq (List.rel_append hsa (.cons hst hsb))), hs,
      by simpa [Expr.children] using List.rel_append hcondition (List.rel_append htrue hfalse)⟩

/-- Expressions in which the same is written stand alike at words that begin alike. -/
theorem standsAlike (hS : ∀ t t', S t t' → bare t = bare t') (e : Expr) : StandsAlike P Q S e :=
  StandsAlike.of_children hS fun c _ => standsAlike hS c
termination_by sizeOf e
decreasing_by exact Expr.sizeOf_lt_of_mem_children ‹_›

end Spelled

end CultureLint
