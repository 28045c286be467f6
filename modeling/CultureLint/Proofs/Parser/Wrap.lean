import CultureLint.Proofs.Parser.MirrorDecl
import CultureLint.Proofs.Tree.Replace

/-! Tokens put around one expression, so that a primary one comes of it: the grammar follows such a
change wherever the expression stands. A primary expression may take the place of any other, and the
parenthesis that comes with it keeps what is around it from being taken for a type. -/

namespace CultureLint

open CultureLint.Parser CultureLint.Grammar

/-- Tokens to put around the expression at a node, which is primary or not, and what they make of it: a
primary expression, with a call behind the old one. -/
structure Wrapping where
  target : Node
  isPrimary : Bool
  sees : Token → Token → Prop := fun _ _ => True
  pre : List Token
  post : List Token
  make : Expr → Expr
  isPrimary_make : ∀ e, (make e).isPrimary = true
  spelled_make : ∀ v n n' e, Spelled Placed v n (.expr e) → e.isPrimary = isPrimary →
    Spelled Begins (pre ++ v ++ post) n' (.expr (make e))
  pre_eq : pre = [] ∨ ∃ o r, pre = o :: r ∧ o.isPunct "(" = true ∧ o.start = target.span.start
  post_eq : ∃ x o r, post = x ++ o :: r ∧ o.isPunct "(" = true ∧
    ∀ t ∈ x, localMarks.any t.isPunct = false

namespace Wrapping

variable (ω : Wrapping)

/-- Whether the expression is the one to put the tokens around. -/
def hits (e : Expr) : Prop := e.node = ω.target ∧ e.isPrimary = ω.isPrimary

/-- The tokens put around the expression. -/
def change : Change :=
  .around ω.target.span ω.pre ω.post (Expr.changeAt ω.target ω.make) id (fun
    | .expr e => ∃ d ∈ e.within, ω.hits d
    | .usings _ => False) ω.sees

variable {ω} {w v : List Token} {n : Option Token} {e d : Expr} {ps : List Part}

/-! ### Where the expression stands -/

theorem placed_of_inside (h : Spelled.Inside Placed d w) (hd : d.node = ω.target) :
    ∃ u v x, w = u ++ v ++ x ∧ Placed v ω.target ∧ v ≠ [] := by
  obtain ⟨u, v, x, n, rfl, hv⟩ := h
  exact ⟨u, v, x, rfl, hd ▸ hv.node, hv.ne_nil⟩

theorem isLocal : ω.change.Local where
  word t ht := if_neg ht
  owns p u v x hp hv ho := by
    cases p with
    | usings => exact hp.elim
    | expr e =>
      obtain ⟨n, hv⟩ := hv
      obtain ⟨d, hd, hit⟩ := hp
      obtain ⟨u', v', x', rfl, hp, hne⟩ := placed_of_inside (hv.inner hd) hit.1
      have ho' : Ordered ((u ++ u') ++ v' ++ (x' ++ x)) := by simpa using ho
      have hout : ω.change.Outside (u ++ u') ∧ ω.change.Outside (x' ++ x) :=
        Change.outside_around hp hne ho'
      exact ⟨hout.1.left, hout.2.right⟩

/-- What becomes of tokens: nothing, or the tokens around the expression are put in. -/
theorem tokens_eq (hl : Laid w ps) (ho : Ordered w) (hf : ω.change.Fits w ps) :
    ω.change.tokens w = w ∨ ∃ u v x, w = u ++ v ++ x ∧ v ≠ [] ∧ Placed v ω.target ∧
      ω.change.tokens w = u ++ (ω.pre ++ v ++ ω.post) ++ x := by
  obtain hout | ⟨p, hp, hown⟩ := hf
  · exact .inl (isLocal.tokens_outside hout)
  · obtain ⟨a, b, c, rfl, hb⟩ := hl.mem hp
    cases p with
    | usings => exact hown.elim
    | expr e =>
      obtain ⟨n, hb⟩ := hb
      obtain ⟨d, hd, hit⟩ := hown
      obtain ⟨u, v, x, rfl, hp, hne⟩ := placed_of_inside (hb.inner hd) hit.1
      have ho' : Ordered ((a ++ u) ++ v ++ (x ++ c)) := by simpa using ho
      have hout : ω.change.Outside (a ++ u) ∧ ω.change.Outside (x ++ c) :=
        Change.outside_around hp hne ho'
      refine .inr ⟨a ++ u, v, x ++ c, by simp, hne, hp, ?_⟩
      have hv : ω.change.tokens v = ω.pre ++ v ++ ω.post :=
        Change.tokens_around hp (ho'.left.right) hne
      have hw : a ++ (u ++ v ++ x) ++ c = (a ++ u) ++ v ++ (x ++ c) := by simp
      rw [hw, Change.tokens_append, Change.tokens_append, hv, isLocal.tokens_outside hout.1,
        isLocal.tokens_outside hout.2]

/-- The first token stays, or a parenthesis comes before it. -/
theorem head_tokens (hl : Laid w ps) (ho : Ordered w) (hf : ω.change.Fits w ps) :
    (ω.change.tokens w).head? = w.head? ∨ (ω.change.tokens w).head?.any (·.isPunct "(") = true := by
  obtain h | ⟨u, v, x, rfl, hv, -, h⟩ := tokens_eq hl ho hf
  · exact .inl (by rw [h])
  · rw [h]
    cases u with
    | cons a u => exact .inl rfl
    | nil =>
      obtain hpre | ⟨o, r, hpre, ho, -⟩ := ω.pre_eq
      · left
        cases v with
        | nil => exact absurd rfl hv
        | cons a v => simp [hpre]
      · exact .inr (by simp [hpre, ho])

/-- What begins at the tokens does so at what becomes of them. -/
theorem begins_tokens {node : Node} (hl : Laid w ps) (ho : Ordered w) (hf : ω.change.Fits w ps)
    (hp : Placed w node) : Begins (ω.change.tokens w) node := by
  obtain h | ⟨u, v, x, rfl, hv, hpv, h⟩ := tokens_eq hl ho hf
  · rw [h]
    exact hp.begins
  · rintro - t ht
    rw [h] at ht
    cases u with
    | cons a u =>
      obtain rfl : a = t := by simpa using ht
      exact hp.start a rfl
    | nil =>
      obtain ⟨a, v, rfl⟩ := List.exists_cons_of_ne_nil hv
      obtain hpre | ⟨o, r, hpre, -, hstart⟩ := ω.pre_eq
      · obtain rfl : a = t := by simpa [hpre] using ht
        exact hp.start a rfl
      · obtain rfl : o = t := by simpa [hpre] using ht
        rw [hp.start a rfl, hstart, hpv.start a rfl]

/-- What holds of a token before the first parenthesis holds of it also where there is none. -/
theorem prefix_before_call {z x y h r : List Token} {o k : Token} (heq : z ++ (x ++ o :: y) = h ++ k :: r)
    (ho : o.isPunct "(" = true) (hx : ∀ t ∈ x, localMarks.any t.isPunct = false)
    (hh : ∀ t ∈ h, t.isPunct "(" = false) (hk : localMarks.any k.isPunct = true) :
    ∃ b, z = h ++ k :: b := by
  have hko : k ≠ o := by
    rintro rfl
    obtain ⟨mark, hm, hmark⟩ := List.any_eq_true.1 hk
    rw [isPunct_unique ho] at hmark
    simp only [beq_iff_eq] at hmark
    exact absurd (hmark ▸ hm) (by decide)
  have hkx : k ∉ x := fun hmem => by simp [hx k hmem] at hk
  have hoh : o ∉ h := fun hmem => by simp [hh o hmem] at ho
  obtain ⟨a, rfl, ha⟩ | ⟨b, rfl, hb⟩ := List.append_eq_append_iff.1 heq
  · -- the tokens go on behind `z`: then the mark is among those before the parenthesis, or is it
    exfalso
    obtain ⟨a', rfl, ha'⟩ | ⟨b, rfl, hb⟩ := List.append_eq_append_iff.1 ha
    · cases a' with
      | nil => exact hko (List.cons.inj ha').1.symm
      | cons b a' => exact hoh (by simp [(List.cons.inj ha').1])
    · cases b with
      | nil => exact hko (List.cons.inj hb).1
      | cons b b' => exact hkx (by simp [(List.cons.inj hb).1])
  · cases b with
    | nil =>
      exfalso
      cases x with
      | nil => exact hko (List.cons.inj hb).1
      | cons a x => exact hkx (by simp [(List.cons.inj hb).1])
    | cons b b' => exact ⟨b', by simp [(List.cons.inj hb).1]⟩

/-- The beginning of a local declaration is not among the tokens that are put in. -/
theorem heads {h r : List Token} {k : Token} (hl : Laid w ps) (ho : Ordered w)
    (hf : ω.change.Fits w ps) (hw : ω.change.tokens w = h ++ k :: r)
    (hh : ∀ t ∈ h, t.isPunct "(" = false) (hk : localMarks.any k.isPunct = true) :
    ∃ r', w = h ++ k :: r' := by
  obtain he | ⟨u, v, x, rfl, -, -, he⟩ := tokens_eq hl ho hf
  · exact ⟨r, he.symm.trans hw⟩
  · rw [he] at hw
    obtain hpre | ⟨o, q, hpre, hpo, -⟩ := ω.pre_eq
    · obtain ⟨a, o, q, hpost, hpo, ha⟩ := ω.post_eq
      obtain ⟨b, hb⟩ := prefix_before_call (z := u ++ v) (x := a) (o := o) (y := q ++ x)
        (by rw [← hw, hpre, hpost]; simp) hpo ha hh hk
      exact ⟨b ++ x, by rw [hb]; simp⟩
    · obtain ⟨b, rfl⟩ := prefix_before_call (z := u) (x := []) (o := o)
        (y := q ++ v ++ ω.post ++ x) (by rw [← hw, hpre]; simp) hpo (by simp) hh hk
      exact ⟨b ++ v ++ x, by simp⟩

/-! ### What the grammar asks of the parts of an expression -/

theorem isPrimary_changeAt (h : e.isPrimary = true) :
    (Expr.changeAt ω.target ω.make e).isPrimary = true := by
  by_cases hn : e.node = ω.target
  · rw [Expr.changeAt_of_node_eq hn]
    exact ω.isPrimary_make e
  · cases e <;> simp_all [Expr.changeAt, Expr.isPrimary, Expr.node]

theorem level_le_changeAt (e : Expr) : e.level ≤ (Expr.changeAt ω.target ω.make e).level := by
  by_cases hn : e.node = ω.target
  · rw [Expr.changeAt_of_node_eq hn, Expr.level_of_isPrimary (ω.isPrimary_make e)]
    exact e.level_le_operandLevel
  · cases e <;> simp_all [Expr.changeAt, Expr.level, Expr.node]

theorem level_changeAt (h : e.level = operandLevel) :
    (Expr.changeAt ω.target ω.make e).level = operandLevel :=
  Nat.le_antisymm (Expr.level_le_operandLevel _) (h ▸ level_le_changeAt e)

theorem reach_le_changeAt (e : Expr) : e.reach ≤ (Expr.changeAt ω.target ω.make e).reach := by
  by_cases hn : e.node = ω.target
  · rw [Expr.changeAt_of_node_eq hn,
      Expr.reach_of_level (Expr.level_of_isPrimary (ω.isPrimary_make e))]
    exact e.reach_le_operandLevel
  · cases e <;> simp_all [Expr.changeAt, Expr.reach, Expr.node]

/-- A type in parentheses is still none: the tokens are the same, or hold a parenthesis. -/
theorem notCast_tokens (h : NotCast w n) (hl : Laid w ps) (ho : Ordered w)
    (hf : ω.change.Fits w ps) : NotCast (ω.change.tokens w) n := by
  obtain he | ⟨u, v, x, -, -, -, he⟩ := tokens_eq hl ho hf
  · rwa [he]
  · intro c type _ ht
    obtain ⟨a, o, r, hpost, hpo, -⟩ := ω.post_eq
    have := ht.inType o (by simp [he, hpost])
    simp [inType_of_not_mark hpo (by decide)] at this

/-- The expression itself is hit, or one of its parts is, or none. -/
theorem hit_or {P : Prop} (h : Spelled Placed w n (.expr e)) (ho : Ordered w)
    (hf : ω.change.Fits w [.expr e]) (hit : ω.hits e → P)
    (parts : e.node ≠ ω.target → ω.change.Fits w (e.children.map .expr) → P) : P := by
  obtain hout | ⟨p, hp, hown⟩ := hf
  · refine parts (fun hn => ?_) (.inl hout)
    obtain ⟨t, v, rfl, -⟩ := h.head rfl
    have hs := h.node.start t rfl
    obtain ⟨z, hz⟩ : ∃ z, (t :: v).getLast? = some z := Option.ne_none_iff_exists'.1 (by simp)
    have he := h.node.stop z hz
    have hb := ho.bounds rfl hz (List.mem_cons_self ..)
    have hpos := ho.nonempty t (List.mem_cons_self ..)
    refine hout t (List.mem_cons_self ..) ⟨?_, ?_⟩
    · change ω.target.span.start ≤ t.start
      rw [← hn]
      omega
    · change t.start < ω.target.span.stop
      rw [← hn]
      omega
  · obtain rfl := List.mem_singleton.1 hp
    obtain ⟨d, hd, hdhit⟩ := hown
    obtain rfl | ⟨c, hc, hdc⟩ := Expr.mem_within_iff.1 hd
    · exact hit hdhit
    · refine parts (fun hn => h.span_ne ho hc hdc ?_) (.inr ⟨.expr c, ?_, d, hdc, hdhit⟩)
      · exact congrArg Node.span (hdhit.1.trans hn.symm)
      · exact List.mem_map_of_mem hc

/-! ### The change of an expression -/

/-- What becomes of a phrase. -/
def phrase (ω : Wrapping) : Phrase → Phrase
  | .expr e => .expr (Expr.changeAt ω.target ω.make e)
  | .args es => .args (es.map (Expr.changeAt ω.target ω.make))

/-- It is enough to look at the parts of an expression. -/
theorem spelled_of_parts (h : Spelled Placed w n (.expr e)) (ho : Ordered w)
    (hf : ω.change.Fits w [.expr e])
    (parts : Begins (ω.change.tokens w) e.node → e.node ≠ ω.target → ω.change.Fits w (e.children.map .expr) →
      Spelled Begins (ω.change.tokens w) n (.expr (Expr.changeAt ω.target ω.make e))) :
    Spelled Begins (ω.change.tokens w) n (.expr (Expr.changeAt ω.target ω.make e)) := by
  refine hit_or h ho hf (fun hit => ?_) (parts (begins_tokens h.laid_expr ho hf h.node))
  have ht : ω.change.tokens w = ω.pre ++ w ++ ω.post :=
    Change.tokens_around (hit.1 ▸ h.node) ho h.ne_nil
  rw [ht, Expr.changeAt_of_node_eq hit.1]
  exact ω.spelled_make w n n e h hit.2

/-- What becomes of a phrase is spelled by what becomes of its tokens. -/
theorem spelled {ph : Phrase} (h : Spelled Placed w n ph) (ho : Ordered w)
    (hf : ω.change.Fits w ph.parts) :
    Spelled Begins (ω.change.tokens w) n (ω.phrase ph) := by
  have hc : ω.change.Local := isLocal
  induction h with
  | @atom t n make node ht hp =>
    refine spelled_of_parts (.atom ht hp) ho hf fun hbegins hne hfit => ?_
    have hatom := isAtom_of_atom? ht
    rw [hatom.children] at hfit
    rw [hc.tokens_outside hfit.outside] at hbegins ⊢
    rw [Expr.changeAt_of_forall_ne]
    · exact .atom ht (hatom.node node ▸ hbegins)
    · intro c hcw
      obtain rfl | ⟨d, hd, -⟩ := Expr.mem_within_iff.1 hcw
      · exact hne
      · simp [hatom.children] at hd
  | @paren o c w n e node hpo hpc he hn hp ih =>
    refine spelled_of_parts (.paren hpo hpc he hn hp) ho hf fun hbegins hne hfit => ?_
    obtain ⟨hout, hfit⟩ := hc.fits_right (w := [o]) (he.laid.append_right [c]) ho hfit
    obtain ⟨hfit, hout'⟩ := hc.fits_left he.laid ho.tail hfit
    rw [hc.tokens_cons (hout o (by simp)), Change.tokens_append, hc.tokens_outside hout'] at hbegins ⊢
    rw [Expr.changeAt, if_neg (c := node = ω.target) hne]
    exact .paren hpo hpc (ih ho.tail.left hfit) (notCast_tokens hn he.laid ho.tail.left hfit) hbegins
  | @create k o c wt w n type es node hk ht hpo hpc hes hn hp ih =>
    refine spelled_of_parts (.create hk ht hpo hpc hes hn hp) ho hf fun hbegins hne hfit => ?_
    have hw : k :: (wt ++ o :: (w ++ [c])) = (k :: wt ++ [o]) ++ (w ++ [c]) := by simp
    rw [hw] at ho hfit hbegins ⊢
    obtain ⟨hout, hfit⟩ := hc.fits_right (hes.laid.append_right [c]) ho hfit
    obtain ⟨hfit, hout'⟩ := hc.fits_left hes.laid ho.right hfit
    have htokens : ω.change.tokens ((k :: wt ++ [o]) ++ (w ++ [c])) =
        k :: (wt ++ o :: (ω.change.tokens w ++ [c])) := by
      rw [Change.tokens_append _ (k :: wt ++ [o]), Change.tokens_append _ w, hc.tokens_outside hout,
        hc.tokens_outside hout']
      simp
    rw [htokens] at hbegins ⊢
    rw [Expr.changeAt, if_neg (c := node = ω.target) hne, Expr.changeAllAt_eq_map]
    exact .create hk ht hpo hpc (ih ho.right.left hfit) hn hbegins
  | @member d i w n e node he hpr hd hi hp ih =>
    refine spelled_of_parts (.member he hpr hd hi hp) ho hf fun hbegins hne hfit => ?_
    obtain ⟨hfit, hout⟩ := hc.fits_left he.laid ho hfit
    rw [Change.tokens_append, hc.tokens_outside hout] at hbegins ⊢
    rw [Expr.changeAt, if_neg (c := node = ω.target) hne]
    exact .member (ih ho.left hfit) (isPrimary_changeAt hpr) hd hi hbegins
  | @call o c w wa n e es node he hpr hpo hpc hes hp ih iha =>
    refine spelled_of_parts (.call he hpr hpo hpc hes hp) ho hf fun hbegins hne hfit => ?_
    obtain ⟨hfit, hfit'⟩ := hc.fits_append he.laid ((hes.laid.append_right [c]).append_left [o]) ho
      hfit
    obtain ⟨hout, hfit'⟩ := hc.fits_right (w := [o]) (hes.laid.append_right [c]) ho.right hfit'
    obtain ⟨hfit', hout'⟩ := hc.fits_left hes.laid ho.right.tail hfit'
    rw [Change.tokens_append, hc.tokens_cons (hout o (by simp)), Change.tokens_append,
      hc.tokens_outside hout'] at hbegins ⊢
    rw [Expr.changeAt, if_neg (c := node = ω.target) hne, Expr.changeAllAt_eq_map]
    exact .call (ih ho.left hfit) (isPrimary_changeAt hpr) hpo hpc (iha ho.right.tail.left hfit') hbegins
  | @index o c w wa n e es node he hpr hpo hpc hes hp ih iha =>
    refine spelled_of_parts (.index he hpr hpo hpc hes hp) ho hf fun hbegins hne hfit => ?_
    obtain ⟨hfit, hfit'⟩ := hc.fits_append he.laid ((hes.laid.append_right [c]).append_left [o]) ho
      hfit
    obtain ⟨hout, hfit'⟩ := hc.fits_right (w := [o]) (hes.laid.append_right [c]) ho.right hfit'
    obtain ⟨hfit', hout'⟩ := hc.fits_left hes.laid ho.right.tail hfit'
    rw [Change.tokens_append, hc.tokens_cons (hout o (by simp)), Change.tokens_append,
      hc.tokens_outside hout'] at hbegins ⊢
    rw [Expr.changeAt, if_neg (c := node = ω.target) hne, Expr.changeAllAt_eq_map]
    exact .index (ih ho.left hfit) (isPrimary_changeAt hpr) hpo hpc (iha ho.right.tail.left hfit') hbegins
  | @step t w n increment e node he hpr ht hp ih =>
    refine spelled_of_parts (.step he hpr ht hp) ho hf fun hbegins hne hfit => ?_
    obtain ⟨hfit, hout⟩ := hc.fits_left he.laid ho hfit
    rw [Change.tokens_append, hc.tokens_outside hout] at hbegins ⊢
    rw [Expr.changeAt, if_neg (c := node = ω.target) hne]
    exact .step (ih ho.left hfit) (isPrimary_changeAt hpr) ht hbegins
  | @unary t w n op e node ht he hl hp ih =>
    refine spelled_of_parts (.unary ht he hl hp) ho hf fun hbegins hne hfit => ?_
    obtain ⟨hout, hfit⟩ := hc.fits_right (w := [t]) he.laid ho hfit
    rw [hc.tokens_cons (hout t (by simp))] at hbegins ⊢
    rw [Expr.changeAt, if_neg (c := node = ω.target) hne]
    exact .unary ht (ih ho.tail hfit) (level_changeAt hl) hbegins
  | @cast o c wt w n type e node hpo ht hpc hfc he hl hp ih =>
    refine spelled_of_parts (.cast hpo ht hpc hfc he hl hp) ho hf fun hbegins hne hfit => ?_
    have hw : o :: (wt ++ c :: w) = (o :: wt ++ [c]) ++ w := by simp
    rw [hw] at ho hfit hbegins ⊢
    obtain ⟨hout, hfit⟩ := hc.fits_right he.laid ho hfit
    have htokens : ω.change.tokens ((o :: wt ++ [c]) ++ w) = o :: (wt ++ c :: ω.change.tokens w) := by
      rw [Change.tokens_append _ (o :: wt ++ [c]), hc.tokens_outside hout]
      simp
    rw [htokens] at hbegins ⊢
    rw [Expr.changeAt, if_neg (c := node = ω.target) hne]
    have hfc' : type.isPrimitiveBased = true ∨ (ω.change.tokens w).head?.any followsCast = true := by
      refine hfc.imp_right fun hfc => ?_
      obtain hh | hh := head_tokens he.laid ho.right hfit
      · rwa [hh]
      · cases ha : (ω.change.tokens w).head? with
        | none => simp [ha] at hh
        | some a =>
          rw [ha, Option.any_some] at hh
          simp [followsCast, kind_of_isPunct hh, hh]
    exact .cast hpo ht hpc hfc' (ih ho.right hfit) (level_changeAt hl) hbegins
  | @binary t wl wr n op l r node ht hl hr hll hrl hp ihl ihr =>
    refine spelled_of_parts (.binary ht hl hr hll hrl hp) ho hf fun hbegins hne hfit => ?_
    obtain ⟨hfit, hfit'⟩ := hc.fits_append hl.laid (hr.laid.append_left [t]) ho hfit
    obtain ⟨hout, hfit'⟩ := hc.fits_right (w := [t]) hr.laid ho.right hfit'
    rw [Change.tokens_append, hc.tokens_cons (hout t (by simp))] at hbegins ⊢
    rw [Expr.changeAt, if_neg (c := node = ω.target) hne]
    exact .binary ht (ihl ho.left hfit) (ihr ho.right.tail hfit')
      (Nat.lt_of_lt_of_le hll (reach_le_changeAt l)) (Nat.le_trans hrl (level_le_changeAt r)) hbegins
  | @conditional q c wc wt wf n condition a b node hcond hl hq ha hpc hb hp ih iha ihb =>
    refine spelled_of_parts (.conditional hcond hl hq ha hpc hb hp) ho hf fun hbegins hne hfit => ?_
    obtain ⟨hfit, hfit'⟩ := hc.fits_append hcond.laid
      ((ha.laid.append (hb.laid.append_left [c])).append_left [q]) ho hfit
    obtain ⟨hout, hfit'⟩ := hc.fits_right (w := [q]) (ha.laid.append (hb.laid.append_left [c])) ho.right
      hfit'
    obtain ⟨hfit', hfit''⟩ := hc.fits_append ha.laid (hb.laid.append_left [c]) ho.right.tail hfit'
    obtain ⟨hout', hfit''⟩ := hc.fits_right (w := [c]) hb.laid ho.right.tail.right hfit''
    rw [Change.tokens_append, hc.tokens_cons (hout q (by simp)), Change.tokens_append,
      hc.tokens_cons (hout' c (by simp))] at hbegins ⊢
    rw [Expr.changeAt, if_neg (c := node = ω.target) hne]
    exact .conditional (ih ho.left hfit) (Nat.lt_of_lt_of_le hl (level_le_changeAt condition)) hq
      (iha ho.right.tail.left hfit') hpc (ihb ho.right.tail.right.tail hfit'') hbegins
  | @assignment t wt wv n op target value node ht htarget hl hv hp iht ihv =>
    refine spelled_of_parts (.assignment ht htarget hl hv hp) ho hf fun hbegins hne hfit => ?_
    obtain ⟨hfit, hfit'⟩ := hc.fits_append htarget.laid (hv.laid.append_left [t]) ho hfit
    obtain ⟨hout, hfit'⟩ := hc.fits_right (w := [t]) hv.laid ho.right hfit'
    rw [Change.tokens_append, hc.tokens_cons (hout t (by simp))] at hbegins ⊢
    rw [Expr.changeAt, if_neg (c := node = ω.target) hne]
    exact .assignment ht (iht ho.left hfit) (Nat.lt_of_lt_of_le hl (level_le_changeAt target))
      (ihv ho.right.tail hfit') hbegins
  | noArgs => exact .noArgs
  | @lastArg m w n e hm he ih =>
    obtain ⟨hout, hfit⟩ := hc.fits_right he.laid ho hf
    rw [Change.tokens_append, hc.tokens_outside hout]
    exact .lastArg hm (ih ho.right hfit)
  | @moreArgs c m w wa n e es hm he hpc hes hne ih iha =>
    obtain ⟨hfit, hfit'⟩ := hc.fits_append (he.laid.append_left m) (hes.laid.append_left [c]) ho hf
    obtain ⟨hout, hfit⟩ := hc.fits_right he.laid ho.left hfit
    obtain ⟨hout', hfit'⟩ := hc.fits_right (w := [c]) hes.laid ho.right hfit'
    rw [Change.tokens_append, Change.tokens_append, hc.tokens_outside hout,
      hc.tokens_cons (hout' c (by simp))]
    exact .moreArgs hm (ih ho.left.right hfit) hpc (iha ho.right.tail hfit') (by simpa using hne)

/-! ### Lawfulness -/

theorem lawful (ω : Wrapping) : ω.change.Lawful where
  toLocal := isLocal
  spelled _ _ _ h ho hf := spelled h ho hf
  heads _ _ _ _ _ hl := heads hl
  usings := mirrors_usings isLocal (fun _ h => h) rfl

end Wrapping

end CultureLint
