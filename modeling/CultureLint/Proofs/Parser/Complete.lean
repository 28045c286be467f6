import CultureLint.Proofs.Parser.Sound

/-! Whatever the grammar spells is read, by every layer that is at least as high as there are tokens,
wherever the same words stand before the same next one. The induction is on the spelling. A primary
expression is reached by attaching, a chain by linking, so for those two the statement is about the
steps so far, and the next token says that they end there. -/

namespace CultureLint

open CultureLint.Parser CultureLint.Grammar

/-! ### The same words at another place -/

/-- At a cursor stand the same words, and what follows begins with the same next one. -/
structure Stands (w : List Token) (n : Option Token) (t : Cursor) (v r : List Token) : Prop where
  rest : t.rest = v ++ r
  alike : Alike w v
  next : bare n = bare r.head?

theorem Stands.cons {a : Token} {w : List Token} {n : Option Token} {t : Cursor} {v r : List Token}
    (h : Stands (a :: w) n t v r) : ∃ a' v', v = a' :: v' ∧ bare a = bare a' ∧
      t.rest = a' :: (v' ++ r) ∧ Stands w n t.advance v' r := by
  obtain ⟨a', v', rfl, ha, hv⟩ := Alike.cons_left.1 h.alike
  exact ⟨a', v', rfl, ha, h.rest, by simp [h.rest], hv, h.next⟩

/-- The words before a token stand there before that token, and those behind it wherever it is taken. -/
theorem Stands.split {a : Token} {w w' : List Token} {n : Option Token} {t : Cursor} {v r : List Token}
    (h : Stands (w ++ a :: w') n t v r) : ∃ u a' u', v = u ++ a' :: u' ∧ bare a = bare a' ∧
      Stands w (some a) t u (a' :: (u' ++ r)) ∧
        ∀ m : Cursor, m.rest = a' :: (u' ++ r) → Stands w' n m.advance u' r := by
  obtain ⟨u, u', rfl, hu, hu'⟩ := Alike.append_left.1 h.alike
  obtain ⟨a', u', rfl, ha, hu'⟩ := Alike.cons_left.1 hu'
  refine ⟨u, a', u', rfl, ha, ⟨by simp [h.rest], hu, by simp [ha]⟩, fun m hm => ?_⟩
  exact ⟨by simp [hm], hu', h.next⟩

theorem isPunct_congr {a b : Token} (h : bare a = bare b) (c : String) : a.isPunct c = b.isPunct c :=
  Token.congr h (·.isPunct c) fun _ => rfl

theorem NotCast.congr {w v : List Token} {n n' : Option Token} (h : NotCast w n) (hw : Alike w v)
    (hn : bare n = bare n') : NotCast v n' := by
  intro c type hc ht
  obtain ⟨type', t', ht', hr', hb⟩ := ht.run (isPlain_of_isPunct hc (by decide))
    (t := ⟨w ++ [c], 0, 0, 0⟩) rfl hw.symm rfl
  obtain ⟨u, hu, -⟩ := takes_type _ _ _ ht'
  have huw : u = w := by simpa [hr'] using hu.rest.symm
  obtain ⟨hp, hf⟩ := h c type' hc ⟨_, t', ht', huw ▸ hu, by simp [hr']⟩
  constructor
  · rw [← hp, ← TypeExpr.isPrimitiveBased_bare type, ← TypeExpr.isPrimitiveBased_bare type']
    exact congrArg TypeExpr.isPrimitiveBased hb
  · rw [← hf]
    exact (Agree.any_congr hn fun _ => rfl).symm

theorem openAfter_bare (depth : Nat) (w : List Token) : openAfter depth (bare w) = openAfter depth w := by
  induction w generalizing depth with
  | nil => rfl
  | cons t w ih =>
    have ho : (bare t).isPunct "(" = t.isPunct "(" := rfl
    have hc : (bare t).isPunct ")" = t.isPunct ")" := rfl
    simp only [bare_cons, openAfter, ho, hc]
    cases depth <;> simp only [ih]

theorem Balanced.congr {w v : List Token} (h : Balanced w) (hw : Alike w v) : Balanced v := fun depth => by
  rw [← openAfter_bare, ← hw, openAfter_bare, h depth]

theorem Spelled.Unnamed.congr {w v : List Token} (h : Unnamed w) (hw : Alike w v) : Unnamed v := by
  rintro i c v rfl hi
  obtain ⟨i', w, rfl, hii, hw⟩ := Alike.cons_left.1 hw.symm
  obtain ⟨c', w, rfl, hcc, -⟩ := Alike.cons_left.1 hw
  rw [isPunct_congr hcc]
  exact h i' c' w rfl ((Token.congr hii Token.isIdentifier fun _ => rfl) ▸ hi)

theorem Alike.forall {w v : List Token} {p : Token → Bool} (hp : ∀ t, p (bare t) = p t)
    (h : Alike w v) (hw : ∀ a ∈ w, p a = true) : ∀ b ∈ v, p b = true := by
  intro b hb
  have hb' : bare b ∈ List.map bare w := by
    rw [show List.map bare w = List.map bare v from h]
    exact List.mem_map_of_mem hb
  obtain ⟨a, ha, hab⟩ := List.mem_map.1 hb'
  exact (Token.congr hab p hp) ▸ hw a ha

/-! ### What the statement says -/

/-- The parser reads the expression where its words stand. -/
def Reading (p : Parser Expr) (w : List Token) (n : Option Token) (e : Expr) : Prop :=
  ∀ t v r, Stands w n t v r → ∃ y t', p t = .ok (y, t') ∧ t'.rest = r ∧ bare e = bare y

/-- The expression is reached from a primary one by attaching, and no operator or cast comes first. -/
def Attaching (g : Grammar) (w : List Token) (n : Option Token) (e : Expr) : Prop :=
  ∀ t v r, Stands w n t v r →
    t.first?.bind unaryOp? = none ∧ (∀ a m, readCastType t ≠ .ok (some a, m)) ∧
      ∃ e₀ m₀, g.primary t = .ok (e₀, m₀) ∧ ∀ start, ∃ y t',
        Steps (g.attachment start) e₀ m₀ y t' ∧ t'.rest = r ∧ bare e = bare y

/-- The expression is reached from an operand by links of at least the given precedence. -/
def Chaining (g : Grammar) (least : Nat) (w : List Token) (n : Option Token) (e : Expr) : Prop :=
  ∀ t v r, Stands w n t v r →
    ∃ e₀ m₀ y t', g.operandRule t = .ok (e₀, m₀) ∧ Steps (g.link least) e₀ m₀ y t' ∧
      t'.rest = r ∧ bare e = bare y

/-- The rules above a layer read the expression, each where it applies. -/
structure Reads (k : Nat) (w : List Token) (n : Option Token) (e : Expr) : Prop where
  attach : e.isPrimary = true → Attaching (layered k) w n e
  operand : e.level = operandLevel → n.any attaches = false → Reading (layered k).operandRule w n e
  chain : 0 < e.level → ∀ least, least ≤ e.level → EndsChain e.reach n →
    Chaining (layered k) least w n e
  expr : Ends n → Reading (layered k).exprRule w n e

/-- The rule for arguments reads the expressions between its brackets. -/
def ReadsArguments (k : Nat) (w : List Token) (closing : String) (es : List Expr) : Prop :=
  ∀ opening t o v c r, t.rest = o :: (v ++ c :: r) → o.isPunct opening = true →
    c.isPunct closing = true → Alike w v →
      ∃ ys t', (layered k).arguments opening closing t = .ok (ys, t') ∧ t'.rest = r ∧ bare es = bare ys

/-! ### From one rule to the next -/

/-- Nothing is attached before a token that attaches nothing. -/
theorem attachment_of_ends {g : Grammar} {start : Nat} {e : Expr} {m : Cursor}
    (h : m.first?.any attaches = false) : g.attachment start e m = .ok (none, m) := by
  have not {c : String} (hc : c ∈ [".", "(", "[", "++", "--", "?.", "=>"]) :
      m.first?.any (·.isPunct c) = false := by
    cases hm : m.first? with
    | none => rfl
    | some t =>
      simp only [hm, Option.any_some, attaches, List.any_eq_false] at h
      simpa using h c hc
  simp only [attachment]
  refine ifEatPunct_eq_ok.2 (.inr ⟨not (by simp), ifAtPunct_eq_ok.2 (.inr ⟨not (by simp), ?_⟩)⟩)
  refine ifAtPunct_eq_ok.2 (.inr ⟨not (by simp), ifEatPunct_eq_ok.2 (.inr ⟨not (by simp), ?_⟩)⟩)
  refine ifEatPunct_eq_ok.2 (.inr ⟨not (by simp), ifAt_eq_ok.2 (.inr ⟨?_, by simp⟩)⟩)
  have h₁ := not (c := "?.") (by simp)
  have h₂ := not (c := "=>") (by simp)
  cases hm : m.first? with
  | none => rfl
  | some t =>
    rw [hm, Option.any_some] at h₁ h₂
    simp [h₁, h₂]

theorem link_of_ends {g : Grammar} {least : Nat} {e : Expr} {m : Cursor}
    (h : ∀ op, m.first?.bind binaryOp? = some op → op.precedence < least) :
    g.link least e m = .ok (none, m) := by
  simp only [link, ask_bind]
  cases hop : m.first?.bind binaryOp? with
  | none => simp
  | some op => simp [h op hop]

section

variable {P : List Token → Node → Prop} {k : Nat} {w : List Token} {n : Option Token} {e : Expr}

theorem Stands.first?_any {t t' : Cursor} {v r : List Token} (h : Stands w n t v r) (hr : t'.rest = r)
    {p : Token → Bool} (hp : ∀ t, p (bare t) = p t) : t'.first?.any p = n.any p := by
  rw [Cursor.first?, hr]
  exact (Agree.any_congr h.next hp).symm

theorem Stands.first?_bind {α : Type} {t t' : Cursor} {v r : List Token} (h : Stands w n t v r)
    (hr : t'.rest = r) {p : Token → Option α} (hp : ∀ t, p (bare t) = p t) :
    t'.first?.bind p = n.bind p := by
  rw [Cursor.first?, hr]
  exact (Agree.bind_congr h.next hp).symm

theorem Attaching.operandRule (h : Attaching (layered k) w n e) (hn : n.any attaches = false) :
    Reading (layered k).operandRule w n e := by
  intro t v r hst
  obtain ⟨hun, hcast, e₀, m₀, he₀, hsteps⟩ := h t v r hst
  obtain ⟨y, t', hsteps, hr, hb⟩ := hsteps e₀.span.start
  refine ⟨y, t', ?_, hr, hb⟩
  simp only [Grammar.operandRule, offset_bind, ask_bind, hun]
  have hnone : castType? t = .ok (none, t) := speculate_eq_none.2 ⟨rfl, hcast⟩
  refine bind_eq_ok.2 ⟨_, hnone, bind_eq_ok.2 ⟨_, he₀, ?_⟩⟩
  refine (grow_eq_ok ((goesForward_layered k).progresses_attachment _)).2 ⟨t', hsteps, ?_⟩
  exact attachment_of_ends ((hst.first?_any hr fun _ => rfl).trans hn)

theorem Reading.chaining (h : Reading (layered k).operandRule w n e) (least : Nat) :
    Chaining (layered k) least w n e := by
  intro t v r hst
  obtain ⟨y, t', hy, hr, hb⟩ := h t v r hst
  exact ⟨y, t', y, t', hy, .refl .., hr, hb⟩

theorem Chaining.chainRule {least : Nat} (h : Chaining (layered k) least w n e)
    (hn : EndsChain least n) : Reading ((layered k).chainRule least) w n e := by
  intro t v r hst
  obtain ⟨e₀, m₀, y, t', he₀, hsteps, hr, hb⟩ := h t v r hst
  refine ⟨y, t', ?_, hr, hb⟩
  refine bind_eq_ok.2 ⟨_, he₀, bind_eq_ok.2 ⟨(y, t'), ?_, ?_⟩⟩
  · refine (grow_eq_ok ((goesForward_layered k).progresses_link least)).2 ⟨t', hsteps, ?_⟩
    refine link_of_ends fun op hop => hn.precedence_lt op ?_
    rwa [← hst.first?_bind hr fun _ => rfl]
  · exact ifAt_eq_ok.2 (.inr ⟨(hst.first?_any hr fun _ => rfl).trans hn.typeTest, by simp⟩)

/-- Marks that continue no expression. -/
def endMarks : List String := [")", "]", ",", ":", ";"]

theorem ends_of_isPunct {c : Token} {p : String} (h : c.isPunct p = true) (hp : p ∈ endMarks) :
    Ends (some c) := by
  have hu (d : String) : c.isPunct d = (p == d) := isPunct_unique h
  have hk (d : String) : c.isKeyword d = false := by simp [Token.isKeyword, kind_of_isPunct h]
  simp only [endMarks, List.mem_cons, List.not_mem_nil, or_false] at hp
  obtain rfl | rfl | rfl | rfl | rfl := hp
  all_goals
    refine ⟨⟨by simp [attaches, hu], by simp [hk], ?_⟩, by simp [hu], ?_⟩
    · simp [spelled?_of_isPunct h, BinaryOp.ofSpelling?, BinaryOp.spellings, List.lookup_cons, List.lookup_nil]
    · simp [spelled?_of_isPunct h, AssignOp.ofSpelling?, AssignOp.spellings, List.lookup_cons, List.lookup_nil]

theorem Ends.endsChain (h : Ends n) (least : Nat) : EndsChain least n := by
  refine ⟨h.chain.attaches, h.chain.typeTest, fun op hop => ?_⟩
  exact absurd (h.chain.precedence_lt op hop) (Nat.not_lt_zero _)

theorem Chaining.exprRule (h : Chaining (layered k) 0 w n e) (hn : Ends n) :
    Reading (layered k).exprRule w n e := by
  intro t v r hst
  obtain ⟨y, t', hy, hr, hb⟩ := h.chainRule (hn.endsChain 0) t v r hst
  refine ⟨y, t', ?_, hr, hb⟩
  have hq : t'.first?.any (·.isPunct "?") = false := (hst.first?_any hr fun _ => rfl).trans hn.question
  have ha : t'.first?.bind assignOp? = none := (hst.first?_bind hr fun _ => rfl).trans hn.assign
  refine bind_eq_ok.2 ⟨(y, t'), bind_eq_ok.2 ⟨_, hy, ifEatPunct_eq_ok.2 (.inr ⟨hq, ?_⟩)⟩, ?_⟩
  · simp
  · simp [ask_bind, ha]

theorem first?_of_rest {t : Cursor} {a : Token} {r : List Token} (h : t.rest = a :: r) :
    t.first? = some a := by
  simp [Cursor.first?, h]

theorem expectPunct_run {t : Cursor} {a : Token} {r : List Token} {c : String} (h : t.rest = a :: r)
    (ha : a.isPunct c = true) : expectPunct c t = .ok ((), t.advance) :=
  expectPunct_eq_ok.2 ⟨first?_any.2 ⟨a, r, h, ha⟩, rfl⟩

/-! What each kind of expression has to give for all the rules to read it. -/

theorem Reads.of_primary (h : Attaching (layered k) w n e) : Reads k w n e where
  attach _ := h
  operand _ := h.operandRule
  chain _ least _ hn := (h.operandRule hn.attaches).chaining least
  expr hn := ((h.operandRule hn.chain.attaches).chaining 0).exprRule hn

theorem Reads.of_operand (hpr : e.isPrimary = false)
    (h : n.any attaches = false → Reading (layered k).operandRule w n e) : Reads k w n e where
  attach hpr' := by simp [hpr] at hpr'
  operand _ := h
  chain _ least _ hn := (h hn.attaches).chaining least
  expr hn := ((h hn.chain.attaches).chaining 0).exprRule hn

theorem Reads.of_chain (hl : e.level ≠ operandLevel)
    (h : ∀ least, least ≤ e.level → EndsChain e.reach n → Chaining (layered k) least w n e) :
    Reads k w n e where
  attach hpr := absurd (Expr.level_of_isPrimary hpr) hl
  operand hl' := absurd hl' hl
  chain _ := h
  expr hn := (h 0 (Nat.zero_le _) (hn.endsChain _)).exprRule hn

theorem Reads.of_expr (hl : e.level = 0) (h : Ends n → Reading (layered k).exprRule w n e) :
    Reads k w n e where
  attach hpr := absurd (Expr.level_of_isPrimary hpr) (by simp [hl, operandLevel])
  operand hl' := absurd hl' (by simp [hl, operandLevel])
  chain hp := absurd hp (by omega)
  expr := h

/-! Rules of the layer below, behind a token that was taken. -/

section

variable (h : ∀ j, w.length ≤ j + 1 → Reads j w n e) (hw : w ≠ []) (hk : w.length ≤ k)
include h hw hk

theorem Reads.below_expr (hn : Ends n) : Reading (layered k).expr w n e := by
  cases k with
  | zero => exact absurd (List.length_eq_zero_iff.1 (Nat.le_zero.1 hk)) hw
  | succ j => exact (h j hk).expr hn

theorem Reads.below_operand (hl : e.level = operandLevel) (hn : n.any attaches = false) :
    Reading (layered k).operand w n e := by
  cases k with
  | zero => exact absurd (List.length_eq_zero_iff.1 (Nat.le_zero.1 hk)) hw
  | succ j => exact (h j hk).operand hl hn

theorem Reads.below_chain {least : Nat} (hp : 0 < e.level) (hl : least ≤ e.level)
    (hr : least ≤ e.reach) (hn : EndsChain least n) : Reading ((layered k).chain least) w n e := by
  cases k with
  | zero => exact absurd (List.length_eq_zero_iff.1 (Nat.le_zero.1 hk)) hw
  | succ j =>
    have hn' : EndsChain e.reach n := ⟨hn.attaches, hn.typeTest,
      fun op hop => Nat.lt_of_lt_of_le (hn.precedence_lt op hop) hr⟩
    exact ((h j hk).chain hp least hl hn').chainRule hn

end

/-! ### Primary expressions -/

theorem readCastType_ne {t : Cursor} {a : Token} {r : List Token} (h : t.rest = a :: r)
    (ha : a.isPunct "(" = false) (type : TypeExpr) (m : Cursor) :
    readCastType t ≠ .ok (some type, m) := by
  intro hc
  obtain ⟨o, -, -, -, ho, hop, -⟩ := readCastType_eq_some.1 hc
  obtain rfl : o = a := by
    rw [ho] at h
    exact (List.cons.inj h).1
  simp [ha] at hop

theorem Attaching.of_primary (h : ∀ t v r, Stands w n t v r →
    t.first?.bind unaryOp? = none ∧ (∀ a m, readCastType t ≠ .ok (some a, m)) ∧
      ∃ y t', (layered k).primary t = .ok (y, t') ∧ t'.rest = r ∧ bare e = bare y) :
    Attaching (layered k) w n e := by
  intro t v r hst
  obtain ⟨hun, hcast, y, t', hy, hr, hb⟩ := h t v r hst
  exact ⟨hun, hcast, y, t', hy, fun _ => ⟨y, t', .refl .., hr, hb⟩⟩

/-- One more attachment. -/
theorem Attaching.step {a : Token} {w' : List Token} {e' : Expr}
    (h : Attaching (layered k) w (some a) e) (hs : ∀ start y m a' u r, bare e = bare y →
      bare a = bare a' → m.rest = a' :: (u ++ r) → Alike w' u →
        ∃ z t', (layered k).attachment start y m = .ok (some z, t') ∧ t'.rest = r ∧
          bare e' = bare z) : Attaching (layered k) (w ++ a :: w') n e' := by
  intro t v r hst
  obtain ⟨u, a', u', rfl, haa, hst', hbehind⟩ := hst.split
  obtain ⟨hun, hcast, e₀, m₀, he₀, hsteps⟩ := h t u _ hst'
  refine ⟨hun, hcast, e₀, m₀, he₀, fun start => ?_⟩
  obtain ⟨y, m, hy, hr, hb⟩ := hsteps start
  obtain ⟨z, t', hz, hr', hb'⟩ := hs start y m a' u' r hb haa hr (hbehind m hr).alike
  exact ⟨z, t', hy.tail hz, hr', hb'⟩

theorem Reads.atom {a : Token} {make : Node → Expr} {node : Node} (ha : atom? a = some make) :
    Reads k [a] n (make node) := by
  have hatom := isAtom_of_atom? ha
  refine .of_primary (.of_primary fun t v r hst => ?_)
  obtain ⟨a', v, rfl, haa, hr, hst'⟩ := hst.cons
  obtain rfl := Alike.nil_left.1 hst'.alike
  have ha' : atom? a' = some make := (Token.congr haa atom? fun _ => rfl) ▸ ha
  have hun : unaryOp? a' = none := by
    refine Option.eq_none_iff_forall_ne_some.2 fun op hop => ?_
    simp [atom?, kind_of_spelled? hop] at ha'
  have hrun : (layered k).primary t = .ok (make ⟨t.advance.nextId, a'.span⟩,
      { t.advance with nextId := t.advance.nextId + 1 }) := by
    simp only [primary, offset_bind, ask_bind, first?_of_rest hr, ha', advance_bind, newNode_bind]
    rfl
  exact ⟨by simp [first?_of_rest hr, hun], readCastType_ne hr (isPunct_of_atom? ha' _), _, _, hrun,
    by simp [hr], hatom.bare _ _⟩

theorem Reads.paren {o c : Token} {node : Node} (ho : o.isPunct "(" = true) (hc : c.isPunct ")" = true)
    (he : Spelled P w (some c) (.expr e)) (h : ∀ j, w.length ≤ j + 1 → Reads j w (some c) e)
    (hn : NotCast w n) (hk : (o :: (w ++ [c])).length ≤ k + 1) :
    Reads k (o :: (w ++ [c])) n (.parenthesized node e) := by
  refine .of_primary (.of_primary fun t v r hst => ?_)
  obtain ⟨o', v, rfl, hoo, hr, hst'⟩ := hst.cons
  obtain ⟨u, c', u', rfl, hcc, hin, hbehind⟩ := hst'.split
  obtain rfl := Alike.nil_left.1 (hbehind ⟨_, 0, 0, 0⟩ rfl).alike
  have ho' : o'.isPunct "(" = true := (isPunct_congr hoo _) ▸ ho
  have hc' : c'.isPunct ")" = true := (isPunct_congr hcc _) ▸ hc
  refine ⟨by simp [first?_of_rest hr, spelled?_of_isPunct ho']; rfl, ?_, ?_⟩
  · -- a cast would read a type up to the parenthesis that closes this one
    intro type m hcast
    obtain ⟨o₂, m₂, c₂, r₂, -, -, htype, hr₂, hc₂, -, hf⟩ := readCastType_eq_some.1 hcast
    obtain ⟨ut, hut, -⟩ := takes_type _ _ _ htype
    have hbefore : TypeBefore ut c₂ type := ⟨_, m₂, htype, hut, by simp [hr₂]⟩
    have hsame : u ++ c' :: r = ut ++ c₂ :: r₂ := by
      rw [← hr₂, ← hut.rest]
      simp [hr]
    obtain rfl := (he.balanced.congr hin.alike).eq_of_append hbefore.balanced hc' hc₂ hsame
    have hrest := List.append_cancel_left hsame
    obtain ⟨hp, hf'⟩ := hn.congr hin.alike hst.next c₂ type hc₂ hbefore
    simp only [List.cons.injEq] at hrest
    simp [hp, ← hrest.2, hf'] at hf
  · have hlen : w.length ≤ k := by
      simp only [List.length_cons, List.length_append, List.length_nil] at hk
      omega
    obtain ⟨y, m, hy, hm, hb⟩ :=
      below_expr h he.ne_nil hlen (ends_of_isPunct hc (by decide)) _ _ _ hin
    have hrun : (layered k).primary t = .ok (.parenthesized ⟨m.advance.nextId,
        Span.upTo t.offset m.advance.previousEnd⟩ y,
        { m.advance with nextId := m.advance.nextId + 1 }) := by
      simp only [primary, offset_bind, ask_bind, first?_of_rest hr, atom?_of_isPunct ho']
      refine ifEatPunct_eq_ok.2 (.inl ⟨o', _, hr, ho', bind_eq_ok.2 ⟨_, hy, ?_⟩⟩)
      exact bind_eq_ok.2 ⟨_, expectPunct_run hm hc', rfl⟩
    refine ⟨_, _, hrun, by simp [hm], ?_⟩
    simp only [Expr.bare_def] at *
    simp [Expr.bare, hb]

theorem Reads.create {a o c : Token} {wt : List Token} {type : TypeExpr} {es : List Expr} {node : Node}
    (ha : a.isKeyword "new" = true) (ht : TypeBefore wt o type) (ho : o.isPunct "(" = true)
    (hc : c.isPunct ")" = true) (h : ReadsArguments k w ")" es)
    (hn : n.any (·.isPunct "\x7b") = false) :
    Reads k (a :: (wt ++ o :: (w ++ [c]))) n (.objectCreation node type es) := by
  refine .of_primary (.of_primary fun t v r hst => ?_)
  obtain ⟨a', v, rfl, haa, hr, hst'⟩ := hst.cons
  obtain ⟨ut, o', u, rfl, hoo, htype, hbehind⟩ := hst'.split
  obtain ⟨u, u', rfl, hu, hu'⟩ := Alike.append_left.1 (hbehind ⟨_, 0, 0, 0⟩ rfl).alike
  obtain ⟨c', u', rfl, hcc, hnil⟩ := Alike.cons_left.1 hu'
  obtain rfl := Alike.nil_left.1 hnil
  have ha' : a'.isKeyword "new" = true := (Token.congr haa (·.isKeyword "new") fun _ => rfl) ▸ ha
  have ho' : o'.isPunct "(" = true := (isPunct_congr hoo _) ▸ ho
  have hc' : c'.isPunct ")" = true := (isPunct_congr hcc _) ▸ hc
  have hno : a'.isPunct "(" = false := isPunct_of_isKeyword ha'
  have hatom : atom? a' = none := by
    simp only [Token.isKeyword, Bool.and_eq_true, beq_iff_eq] at ha'
    simp [atom?, ha'.1, ha'.2]
    decide
  have hun : unaryOp? a' = none := by
    simp only [Token.isKeyword, Bool.and_eq_true, beq_iff_eq] at ha'
    simp [spelled?, ha'.1]
  refine ⟨by simp [first?_of_rest hr, hun], readCastType_ne hr hno, ?_⟩
  obtain ⟨type', m, hm, hmr, hbt⟩ := ht.run (isPlain_of_isPunct ho (by decide)) htype.rest
    htype.alike hoo
  obtain ⟨ys, m', hys, hmr', hby⟩ := h "(" m o' u c' r (by simp [hmr]) ho' hc' hu
  have hrun : (layered k).primary t = .ok (.objectCreation ⟨m'.nextId,
      Span.upTo t.offset m'.previousEnd⟩ type' ys, { m' with nextId := m'.nextId + 1 }) := by
    simp only [primary, offset_bind, ask_bind, first?_of_rest hr, hatom]
    refine ifEatPunct_eq_ok.2 (.inr ⟨by simp [first?_of_rest hr, hno], ?_⟩)
    refine ifEatKeyword_eq_ok.2 (.inl ⟨a', _, hr, ha', bind_eq_ok.2 ⟨_, hm, ?_⟩⟩)
    refine ifAtPunct_eq_ok.2 (.inl ⟨o', _, hmr, ho', bind_eq_ok.2 ⟨_, hys, ?_⟩⟩)
    refine ifAtPunct_eq_ok.2 (.inr ⟨(hst.first?_any hmr' fun _ => rfl).trans hn, ?_⟩)
    simp [newNodeFrom_bind]
  refine ⟨_, _, hrun, hmr', ?_⟩
  simp only [Expr.bare_def, Expr.bare, Expr.bareAll_eq, hby]
  rw [show type.bare = type'.bare from hbt]

/-! ### Attachments -/

theorem Reads.member {d i : Token} {node : Node} (hd : d.isPunct "." = true)
    (hi : i.isIdentifier = true) (h : Reads k w (some d) e) (hpr : e.isPrimary = true) :
    Reads k (w ++ [d, i]) n (.memberAccess node e ⟨i.name, i.span⟩) := by
  refine .of_primary ((h.attach hpr).step fun start y m d' u r hb hdd hr hu => ?_)
  obtain ⟨i', u, rfl, hii, hnil⟩ := Alike.cons_left.1 hu
  obtain rfl := Alike.nil_left.1 hnil
  have hd' : d'.isPunct "." = true := (isPunct_congr hdd _) ▸ hd
  have hi' : i'.isIdentifier = true := (Token.congr hii Token.isIdentifier fun _ => rfl) ▸ hi
  have hname : i.name = i'.name := Token.congr hii Token.name fun _ => rfl
  have hr' : m.advance.rest = i' :: r := by simp [hr]
  refine ⟨_, _, ifEatPunct_eq_ok.2 (.inl ⟨d', _, hr, hd', bind_eq_ok.2 ⟨_,
    expectIdent_eq_ok.2 ⟨i', r, hr', hi', rfl⟩, rfl⟩⟩), by simp [hr], ?_⟩
  simp only [Expr.bare_def] at *
  simp [Expr.bare, hb, hname, bare]

theorem Reads.call {o c : Token} {wa : List Token} {es : List Expr} {node : Node}
    (ho : o.isPunct "(" = true) (hc : c.isPunct ")" = true) (h : Reads k w (some o) e)
    (hpr : e.isPrimary = true) (ha : ReadsArguments k wa ")" es) :
    Reads k (w ++ o :: (wa ++ [c])) n (.invocation node e es) := by
  refine .of_primary ((h.attach hpr).step fun start y m o' u r hb hoo hr hu => ?_)
  obtain ⟨u, u', rfl, hu₁, hu₂⟩ := Alike.append_left.1 hu
  obtain ⟨c', u', rfl, hcc, hnil⟩ := Alike.cons_left.1 hu₂
  obtain rfl := Alike.nil_left.1 hnil
  have ho' : o'.isPunct "(" = true := (isPunct_congr hoo _) ▸ ho
  have hc' : c'.isPunct ")" = true := (isPunct_congr hcc _) ▸ hc
  have not {d : String} (hd : ("(" == d) = false) : m.first?.any (·.isPunct d) = false := by
    simp [first?_of_rest hr, isPunct_unique ho', hd]
  obtain ⟨ys, m', hys, hmr', hby⟩ := ha "(" m o' u c' r (by simp [hr]) ho' hc' hu₁
  refine ⟨_, _, ifEatPunct_eq_ok.2 (.inr ⟨not rfl, ifAtPunct_eq_ok.2 (.inl ⟨o', _, hr, ho',
    bind_eq_ok.2 ⟨_, hys, rfl⟩⟩)⟩), hmr', ?_⟩
  simp only [Expr.bare_def] at hb ⊢
  simp only [Expr.bare, Expr.bareAll_eq, hb, hby]

theorem Reads.index {o c : Token} {wa : List Token} {es : List Expr} {node : Node}
    (ho : o.isPunct "[" = true) (hc : c.isPunct "]" = true) (h : Reads k w (some o) e)
    (hpr : e.isPrimary = true) (ha : ReadsArguments k wa "]" es) :
    Reads k (w ++ o :: (wa ++ [c])) n (.elementAccess node e es) := by
  refine .of_primary ((h.attach hpr).step fun start y m o' u r hb hoo hr hu => ?_)
  obtain ⟨u, u', rfl, hu₁, hu₂⟩ := Alike.append_left.1 hu
  obtain ⟨c', u', rfl, hcc, hnil⟩ := Alike.cons_left.1 hu₂
  obtain rfl := Alike.nil_left.1 hnil
  have ho' : o'.isPunct "[" = true := (isPunct_congr hoo _) ▸ ho
  have hc' : c'.isPunct "]" = true := (isPunct_congr hcc _) ▸ hc
  have not {d : String} (hd : ("[" == d) = false) : m.first?.any (·.isPunct d) = false := by
    simp [first?_of_rest hr, isPunct_unique ho', hd]
  obtain ⟨ys, m', hys, hmr', hby⟩ := ha "[" m o' u c' r (by simp [hr]) ho' hc' hu₁
  refine ⟨_, _, ifEatPunct_eq_ok.2 (.inr ⟨not rfl, ifAtPunct_eq_ok.2 (.inr ⟨not rfl,
    ifAtPunct_eq_ok.2 (.inl ⟨o', _, hr, ho', bind_eq_ok.2 ⟨_, hys, rfl⟩⟩)⟩)⟩), hmr', ?_⟩
  simp only [Expr.bare_def] at hb ⊢
  simp only [Expr.bare, Expr.bareAll_eq, hb, hby]

theorem Reads.step {a : Token} {increment : Bool} {node : Node}
    (ha : a.isPunct (if increment then "++" else "--") = true) (h : Reads k w (some a) e)
    (hpr : e.isPrimary = true) : Reads k (w ++ [a]) n (.step node increment e) := by
  refine .of_primary ((h.attach hpr).step fun start y m a' u r hb haa hr hu => ?_)
  obtain rfl := Alike.nil_left.1 hu
  have ha' : a'.isPunct (if increment then "++" else "--") = true := (isPunct_congr haa _) ▸ ha
  have hb' : bare (Expr.step node increment e) = bare (Expr.step
      ⟨m.advance.nextId, Span.upTo start m.advance.previousEnd⟩ increment y) := by
    simp only [Expr.bare_def] at *
    simp [Expr.bare, hb]
  cases increment with
  | true =>
    have not {d : String} (hd : ("++" == d) = false) : m.first?.any (·.isPunct d) = false := by
      simp [first?_of_rest hr, isPunct_unique ha', hd]
    exact ⟨_, _, ifEatPunct_eq_ok.2 (.inr ⟨not rfl, ifAtPunct_eq_ok.2 (.inr ⟨not rfl,
      ifAtPunct_eq_ok.2 (.inr ⟨not rfl, ifEatPunct_eq_ok.2 (.inl ⟨a', _, hr, ha', rfl⟩)⟩)⟩)⟩),
      by simp [hr], hb'⟩
  | false =>
    have not {d : String} (hd : ("--" == d) = false) : m.first?.any (·.isPunct d) = false := by
      simp [first?_of_rest hr, isPunct_unique ha', hd]
    exact ⟨_, _, ifEatPunct_eq_ok.2 (.inr ⟨not rfl, ifAtPunct_eq_ok.2 (.inr ⟨not rfl,
      ifAtPunct_eq_ok.2 (.inr ⟨not rfl, ifEatPunct_eq_ok.2 (.inr ⟨not rfl,
        ifEatPunct_eq_ok.2 (.inl ⟨a', _, hr, ha', rfl⟩)⟩)⟩)⟩)⟩), by simp [hr], hb'⟩

/-! ### Operators -/

theorem Reads.unary {a : Token} {op : UnaryOp} {node : Node} (ha : unaryOp? a = some op)
    (hl : e.level = operandLevel) (hw : w ≠ []) (h : ∀ j, w.length ≤ j + 1 → Reads j w n e)
    (hk : (a :: w).length ≤ k + 1) : Reads k (a :: w) n (.unary node op e) := by
  refine .of_operand rfl fun hn t v r hst => ?_
  obtain ⟨a', v, rfl, haa, hr, hst'⟩ := hst.cons
  have ha' : unaryOp? a' = some op := (Token.congr haa unaryOp? fun _ => rfl) ▸ ha
  obtain ⟨y, m, hy, hmr, hb⟩ := below_operand h hw (Nat.le_of_succ_le_succ hk) hl hn _ _ _ hst'
  refine ⟨.unary ⟨m.nextId, Span.upTo t.offset m.previousEnd⟩ op y,
    { m with nextId := m.nextId + 1 }, ?_, hmr, ?_⟩
  · simp only [operandRule, offset_bind, ask_bind, first?_of_rest hr, Option.bind_some, ha',
      advance_bind]
    exact bind_eq_ok.2 ⟨_, hy, rfl⟩
  · simp only [Expr.bare_def] at *
    simp [Expr.bare, hb]

theorem Reads.cast {o c : Token} {wt : List Token} {type : TypeExpr} {node : Node}
    (ho : o.isPunct "(" = true) (ht : TypeBefore wt c type) (hc : c.isPunct ")" = true)
    (hf : type.isPrimitiveBased = true ∨ w.head?.any followsCast = true)
    (hl : e.level = operandLevel) (hw : w ≠ []) (h : ∀ j, w.length ≤ j + 1 → Reads j w n e)
    (hk : (o :: (wt ++ c :: w)).length ≤ k + 1) :
    Reads k (o :: (wt ++ c :: w)) n (.cast node type e) := by
  refine .of_operand rfl fun hn t v r hst => ?_
  obtain ⟨o', v, rfl, hoo, hr, hst'⟩ := hst.cons
  obtain ⟨ut, c', u, rfl, hcc, htype, hbehind⟩ := hst'.split
  have ho' : o'.isPunct "(" = true := (isPunct_congr hoo _) ▸ ho
  have hc' : c'.isPunct ")" = true := (isPunct_congr hcc _) ▸ hc
  have hun : t.first?.bind unaryOp? = none := by
    rw [first?_of_rest hr, Option.bind_some]
    exact spelled?_of_isPunct ho'
  obtain ⟨type', m, hm, hmr, hbt⟩ := ht.run (isPlain_of_isPunct hc (by decide)) htype.rest
    htype.alike hcc
  have hst'' := hbehind m hmr
  have hp : type.isPrimitiveBased = type'.isPrimitiveBased := by
    rw [← TypeExpr.isPrimitiveBased_bare type, ← TypeExpr.isPrimitiveBased_bare type']
    exact congrArg TypeExpr.isPrimitiveBased hbt
  have hf' : type'.isPrimitiveBased = true ∨ (u ++ r).head?.any followsCast = true := by
    refine hf.imp (fun h => hp ▸ h) fun hf => ?_
    obtain ⟨a, w', rfl⟩ := List.exists_cons_of_ne_nil hw
    obtain ⟨a', u', rfl, haa, -⟩ := Alike.cons_left.1 hst''.alike
    simpa [← Token.congr haa followsCast fun _ => rfl] using hf
  have hcast : castType? t = .ok (some type', m.advance) := by
    refine speculate_eq_some.2 (readCastType_eq_some.2 ⟨o', m, c', _, ?_, ho', hm, hmr, hc', rfl, hf'⟩)
    simp [hr]
  have hlen : w.length ≤ k := by
    simp only [List.length_cons, List.length_append] at hk
    omega
  obtain ⟨y, m', hy, hmr', hb⟩ := below_operand h hw hlen hl hn _ _ _ hst''
  refine ⟨.cast ⟨m'.nextId, Span.upTo t.offset m'.previousEnd⟩ type' y,
    { m' with nextId := m'.nextId + 1 }, ?_, hmr', ?_⟩
  · simp only [operandRule, offset_bind, ask_bind, hun]
    exact bind_eq_ok.2 ⟨_, hcast, bind_eq_ok.2 ⟨_, hy, rfl⟩⟩
  · simp only [Expr.bare_def] at *
    simp only [Expr.bare, hb]
    rw [show type.bare = type'.bare from hbt]

/-- An operator ends the chain before it where it takes all of it. -/
theorem endsChain_of_binaryOp? {a : Token} {op : BinaryOp} (ha : binaryOp? a = some op) {least : Nat}
    (hl : op.precedence < least) : EndsChain least (some a) := by
  refine ⟨?_, ?_, fun op' hop => ?_⟩
  · simp only [Option.any_some, attaches, List.any_eq_false]
    intro c hc
    rw [isPunct_of_spelled? ha (by revert c; decide)]
    exact Bool.false_ne_true
  · simp [Token.isKeyword, kind_of_spelled? ha]
  · rw [Option.bind_some, ha] at hop
    exact Option.some.inj hop ▸ hl

theorem Reads.binary {a : Token} {wl wr : List Token} {op : BinaryOp} {l r : Expr} {node : Node}
    (ha : binaryOp? a = some op) (hl : Spelled P wl (some a) (.expr l))
    (hr : Spelled P wr n (.expr r)) (hll : op.precedence < l.reach)
    (hrl : op.rightPrecedence ≤ r.level) (ihl : ∀ j, wl.length ≤ j + 1 → Reads j wl (some a) l)
    (ihr : ∀ j, wr.length ≤ j + 1 → Reads j wr n r) (hk : (wl ++ a :: wr).length ≤ k + 1) :
    Reads k (wl ++ a :: wr) n (.binary node op l r) := by
  have hpos : 0 < op.precedence := by cases op <;> decide
  have hlevel := Expr.precedence_le_level hll
  simp only [List.length_append, List.length_cons] at hk
  have hlw : 0 < wl.length := List.length_pos_iff.2 hl.ne_nil
  refine .of_chain (Nat.ne_of_lt op.precedence_lt_operandLevel) fun least hleast hn t v r' hst => ?_
  obtain ⟨u, a', u', rfl, haa, hst', hbehind⟩ := hst.split
  have ha' : binaryOp? a' = some op := (Token.congr haa binaryOp? fun _ => rfl) ▸ ha
  obtain ⟨e₀, m₀, y, m, he₀, hsteps, hmr, hb⟩ := (ihl k (by omega)).chain
    (Nat.lt_of_lt_of_le hpos hlevel) least (Nat.le_trans hleast hlevel)
    (endsChain_of_binaryOp? ha hll) t u _ hst'
  obtain ⟨z, m', hz, hmr', hbz⟩ := below_chain ihr hr.ne_nil (k := k) (by omega)
    (Nat.lt_of_lt_of_le op.rightPrecedence_pos hrl) hrl (Nat.le_trans hrl (Expr.level_le_reach r)) hn
    m.advance u' r' (hbehind m hmr)
  refine ⟨e₀, m₀, .binary ⟨m'.nextId, y.span.cover z.span⟩ op y z,
    { m' with nextId := m'.nextId + 1 }, he₀, hsteps.tail ?_, hmr', ?_⟩
  · simp only [link, ask_bind, first?_of_rest hmr, Option.bind_some, ha']
    have hleast' : least ≤ op.precedence := hleast
    rw [if_neg (Nat.not_lt.2 hleast'), advance_bind]
    exact bind_eq_ok.2 ⟨_, hz, rfl⟩
  · simp only [Expr.bare_def] at *
    simp [Expr.bare, hb, hbz]

theorem Reads.conditional {q c : Token} {wc wt wf : List Token} {condition a b : Expr} {node : Node}
    (hcond : Spelled P wc (some q) (.expr condition)) (hl : 0 < condition.level)
    (hq : q.isPunct "?" = true) (ha : Spelled P wt (some c) (.expr a)) (hc : c.isPunct ":" = true)
    (hb : Spelled P wf n (.expr b)) (ih : ∀ j, wc.length ≤ j + 1 → Reads j wc (some q) condition)
    (iha : ∀ j, wt.length ≤ j + 1 → Reads j wt (some c) a)
    (ihb : ∀ j, wf.length ≤ j + 1 → Reads j wf n b)
    (hk : (wc ++ q :: (wt ++ c :: wf)).length ≤ k + 1) :
    Reads k (wc ++ q :: (wt ++ c :: wf)) n (.conditional node condition a b) := by
  have hcw : 0 < wc.length := List.length_pos_iff.2 hcond.ne_nil
  simp only [List.length_append, List.length_cons] at hk
  refine .of_expr rfl fun hn t v r hst => ?_
  obtain ⟨u, q', u', rfl, hqq, hst', hbehind⟩ := hst.split
  have hq' : q'.isPunct "?" = true := (isPunct_congr hqq _) ▸ hq
  have hends (least : Nat) : EndsChain least (some q) := by
    have hu (d : String) : q.isPunct d = ("?" == d) := isPunct_unique hq
    refine ⟨by simp [attaches, hu], by simp [Token.isKeyword, kind_of_isPunct hq], fun op hop => ?_⟩
    simp [spelled?_of_isPunct hq, BinaryOp.ofSpelling?, BinaryOp.spellings, List.lookup_cons, List.lookup_nil] at hop
  obtain ⟨y, m, hy, hmr, hby⟩ := ((ih k (by omega)).chain hl 0 (Nat.zero_le _) (hends _)).chainRule
    (hends 0) t u _ hst'
  obtain ⟨u₁, c', u₂, rfl, hcc, hst₁, hbehind₁⟩ := (hbehind m hmr).split
  have hc' : c'.isPunct ":" = true := (isPunct_congr hcc _) ▸ hc
  obtain ⟨y₁, m₁, hy₁, hmr₁, hby₁⟩ := below_expr iha ha.ne_nil (k := k) (by omega)
    (ends_of_isPunct hc (by decide)) _ _ _ hst₁
  obtain ⟨y₂, m₂, hy₂, hmr₂, hby₂⟩ := below_expr ihb hb.ne_nil (k := k) (by omega) hn _ _ _
    (hbehind₁ m₁ hmr₁)
  have hassign : m₂.first?.bind assignOp? = none :=
    (hst.first?_bind hmr₂ fun _ => rfl).trans hn.assign
  have hrun : (layered k).conditional t = .ok (.conditional ⟨m₂.nextId, y.span.cover y₂.span⟩ y y₁ y₂,
      { m₂ with nextId := m₂.nextId + 1 }) := by
    refine bind_eq_ok.2 ⟨_, hy, ifEatPunct_eq_ok.2 (.inl ⟨q', _, hmr, hq', ?_⟩)⟩
    exact bind_eq_ok.2 ⟨_, hy₁, bind_eq_ok.2 ⟨_, expectPunct_run hmr₁ hc', bind_eq_ok.2 ⟨_, hy₂, rfl⟩⟩⟩
  refine ⟨.conditional ⟨m₂.nextId, y.span.cover y₂.span⟩ y y₁ y₂, { m₂ with nextId := m₂.nextId + 1 },
    bind_eq_ok.2 ⟨_, hrun, ?_⟩, hmr₂, ?_⟩
  · simp only [ask_bind, show Cursor.first? { m₂ with nextId := m₂.nextId + 1 } = m₂.first? from rfl,
      hassign]
    rfl
  · simp only [Expr.bare_def] at *
    simp [Expr.bare, hby, hby₁, hby₂]

/-- No operator is both one of assignment and another one. -/
theorem binaryOp?_of_assignOp? {a : Token} {op : AssignOp} (h : assignOp? a = some op) :
    binaryOp? a = none := by
  refine Option.eq_none_iff_forall_ne_some.2 fun op' h' => ?_
  have hk := kind_of_spelled? h
  simp only [spelled?, hk, if_true] at h h'
  have hmem : (a.text, op) ∈ AssignOp.spellings := by
    obtain ⟨l, r, hl, -⟩ := List.lookup_eq_some_iff.1 h
    simp [hl]
  have hnone : ∀ p ∈ AssignOp.spellings, BinaryOp.ofSpelling? p.1 = none := by decide
  simp [hnone _ hmem] at h'

theorem Reads.assignment {a : Token} {wt wv : List Token} {op : AssignOp} {target value : Expr}
    {node : Node} (ha : assignOp? a = some op) (htarget : Spelled P wt (some a) (.expr target))
    (hl : 0 < target.level) (hv : Spelled P wv n (.expr value))
    (iht : ∀ j, wt.length ≤ j + 1 → Reads j wt (some a) target)
    (ihv : ∀ j, wv.length ≤ j + 1 → Reads j wv n value) (hk : (wt ++ a :: wv).length ≤ k + 1) :
    Reads k (wt ++ a :: wv) n (.assignment node op target value) := by
  have htw : 0 < wt.length := List.length_pos_iff.2 htarget.ne_nil
  simp only [List.length_append, List.length_cons] at hk
  refine .of_expr rfl fun hn t v r hst => ?_
  obtain ⟨u, a', u', rfl, haa, hst', hbehind⟩ := hst.split
  have ha' : assignOp? a' = some op := (Token.congr haa assignOp? fun _ => rfl) ▸ ha
  have hends (least : Nat) : EndsChain least (some a) := by
    refine ⟨?_, by simp [Token.isKeyword, kind_of_spelled? ha], ?_⟩
    · simp only [Option.any_some, attaches, List.any_eq_false]
      intro c hc
      rw [isPunct_of_spelled? ha (by revert c; decide)]
      exact Bool.false_ne_true
    · simp [binaryOp?_of_assignOp? ha]
  obtain ⟨y, m, hy, hmr, hby⟩ := ((iht k (by omega)).chain hl 0 (Nat.zero_le _) (hends _)).chainRule
    (hends 0) t u _ hst'
  have hq : m.first?.any (·.isPunct "?") = false := by
    simp [first?_of_rest hmr, isPunct_of_spelled? ha' (c := "?") rfl]
  obtain ⟨z, m', hz, hmr', hbz⟩ := below_expr ihv hv.ne_nil (k := k) (by omega) hn _ _ _
    (hbehind m hmr)
  refine ⟨.assignment ⟨m'.nextId, y.span.cover z.span⟩ op y z, { m' with nextId := m'.nextId + 1 },
    bind_eq_ok.2 ⟨(y, m), bind_eq_ok.2 ⟨_, hy, ifEatPunct_eq_ok.2 (.inr ⟨hq, by simp⟩)⟩, ?_⟩, hmr', ?_⟩
  · simp only [ask_bind, first?_of_rest hmr, Option.bind_some, ha', advance_bind]
    exact bind_eq_ok.2 ⟨_, hz, rfl⟩
  · simp only [Expr.bare_def] at *
    simp [Expr.bare, hby, hbz]

/-! ### Arguments -/

/-- An expression begins with none of the words that say how it is passed. -/
theorem passing_of_opens {a : Token} (h : Spelled.opens a = true) : passingWords.any a.isKeyword = false := by
  refine List.any_eq_false.2 fun c hc => ?_
  have hword : ∀ c ∈ passingWords, Spelled.opens ⟨0, .keyword, c, 0⟩ = false := by decide
  simp [Spelled.isKeyword_of_opens h (hword c hc)]

theorem passing_run {ws : List String} {v : List Token} (hv : ∀ a ∈ v, ws.any a.isKeyword = true)
    {t : Cursor} {r : List Token} (hr : t.rest = v ++ r)
    (hn : r.head?.any (fun a => ws.any a.isKeyword) = false) :
    ∃ us t', many (passing? ws) t = .ok (us, t') ∧ t'.rest = r := by
  induction v generalizing t with
  | nil =>
    refine ⟨[], t, (many_eq_ok (progresses_passing? ws)).2 (.stop ?_), hr⟩
    refine ifAt_eq_ok.2 (.inr ⟨?_, rfl⟩)
    rw [Cursor.first?, hr]
    exact hn
  | cons a v ih =>
    obtain ⟨us, t', hus, hr'⟩ := ih (fun b hb => hv b (List.mem_cons_of_mem _ hb)) (t := t.advance)
      (by simp [hr])
    refine ⟨() :: us, t', (many_eq_ok (progresses_passing? ws)).2 (.next ?_ ((many_eq_ok
      (progresses_passing? ws)).1 hus)), hr'⟩
    exact ifAt_eq_ok.2 (.inl ⟨a, _, hr, hv a (List.mem_cons_self ..), rfl⟩)

/-- An argument is read with its marks. -/
theorem argument_run {m : List Token} (hm : ArgumentMarks m) (he : Spelled P w n (.expr e))
    (hn : n.any (·.isPunct ":") = false) (h : Reading (layered k).expr w n e) :
    Reading (layered k).argument (m ++ w) n e := by
  intro t v r hst
  obtain ⟨v, u, rfl, hv, hu⟩ := Alike.append_left.1 hst.alike
  obtain ⟨name, words, rfl, hwords, hname⟩ := hm
  obtain ⟨v₁, v₂, rfl, hv₁, hv₂⟩ := Alike.append_left.1 hv
  have hwords' := hv₂.forall (p := fun a => passingWords.any a.isKeyword) (fun _ => rfl) hwords
  have hrest : t.rest = v₁ ++ (v₂ ++ (u ++ r)) := by simp [hst.rest]
  obtain ⟨a, u', hu', ha⟩ : ∃ a u', u = a :: u' ∧ Spelled.opens a = true := by
    obtain ⟨b, w', rfl, hb⟩ := he.head rfl
    obtain ⟨a, u', rfl, hab, -⟩ := Alike.cons_left.1 hu
    exact ⟨a, u', rfl, (Token.congr hab Spelled.opens fun _ => rfl) ▸ hb⟩
  obtain ⟨t₁, ⟨b, ht₁⟩, hr₁⟩ : ∃ t₁ : Cursor,
      (∃ b, eat2 Token.isIdentifier (·.isPunct ":") t = .ok (b, t₁)) ∧ t₁.rest = v₂ ++ (u ++ r) := by
    obtain rfl | ⟨i, c, rfl, hi, hc⟩ := hname
    · -- without a name, the words or the expression come first, and neither looks like one
      obtain rfl := Alike.nil_left.1 hv₁
      refine ⟨t, ⟨false, ?_⟩, hrest⟩
      have hno : (t.first?.any Token.isIdentifier && t.second?.any (·.isPunct ":")) = false := by
        simp only [Cursor.first?, Cursor.second?, hrest, List.nil_append]
        cases v₂ with
        | cons b v₂ =>
          obtain ⟨c, -, hk⟩ := List.any_eq_true.1 (hwords' b (List.mem_cons_self ..))
          simp [Spelled.isIdentifier_of_isKeyword hk]
        | nil =>
          subst hu'
          cases u' with
          | cons c u' =>
            have := (he.unnamed rfl).congr hu a c u' rfl
            cases hi : a.isIdentifier <;> simp_all
          | nil =>
            have : r.head?.any (·.isPunct ":") = false :=
              (Agree.any_congr hst.next fun _ => rfl).symm.trans hn
            simp [this]
      simp [hno]
    · obtain ⟨i', v₁, rfl, hii, hv₁⟩ := Alike.cons_left.1 hv₁
      obtain ⟨c', v₁, rfl, hcc, hnil⟩ := Alike.cons_left.1 hv₁
      obtain rfl := Alike.nil_left.1 hnil
      have hi' : i'.isIdentifier = true := (Token.congr hii Token.isIdentifier fun _ => rfl) ▸ hi
      have hc' : c'.isPunct ":" = true := (isPunct_congr hcc _) ▸ hc
      exact ⟨t.advance.advance, ⟨true, by simp [Cursor.first?, Cursor.second?, hrest, hi', hc']⟩,
        by simp [hrest]⟩
  obtain ⟨us, t₂, hus, hr₂⟩ := passing_run hwords' hr₁ (by simp [hu', passing_of_opens ha])
  obtain ⟨y, t', hy, hr', hb⟩ := h t₂ u r ⟨hr₂, hu, hst.next⟩
  exact ⟨y, t', bind_eq_ok.2 ⟨_, ht₁, bind_eq_ok.2 ⟨_, hus, hy⟩⟩, hr', hb⟩

/-- An expression begins with none of the marks that end one. -/
theorem not_end_of_opens {a : Token} (h : Spelled.opens a = true) {c : String} (hc : c ∈ endMarks) :
    a.isPunct c = false := by
  have hmark : ∀ c ∈ endMarks, Spelled.opens ⟨0, .punctuation, c, 0⟩ = false := by decide
  exact Spelled.isPunct_of_opens h (hmark c hc)

/-- A list of arguments is read up to a token behind it that ends it. -/
def ReadsItems (k : Nat) (w : List Token) (n : Option Token) (es : List Expr) : Prop :=
  ∀ t v r, Stands w n t v r →
    ∃ ys t', commaList (layered k).argument t = .ok (ys, t') ∧ t'.rest = r ∧ bare es = bare ys

theorem commaList_run {t m s' : Cursor} {y : Expr} {ys : List Expr}
    (hy : (layered k).argument t = .ok (y, m))
    (hys : Rounds (afterComma (layered k).argument) m ys s') :
    commaList (layered k).argument t = .ok (y :: ys, s') :=
  bind_eq_ok.2 ⟨_, hy, bind_eq_ok.2 ⟨_,
    (many_eq_ok (goesForward_layered k).progresses_argument).2 hys, rfl⟩⟩

theorem ReadsItems.last {m : List Token} (hm : ArgumentMarks m) (he : Spelled P w n (.expr e))
    (hn : n.any (·.isPunct ":") = false) (hn' : n.any (·.isPunct ",") = false)
    (h : Reading (layered k).expr w n e) : ReadsItems k (m ++ w) n [e] := by
  intro t v r hst
  obtain ⟨y, t', hy, hr, hb⟩ := argument_run hm he hn h t v r hst
  refine ⟨[y], t', commaList_run hy (.stop (afterComma_eq_none.2 ⟨?_, rfl⟩)), hr, by simp [hb]⟩
  exact (hst.first?_any hr fun _ => rfl).trans hn'

theorem ReadsItems.more {c : Token} {m wa : List Token} {es : List Expr} (hm : ArgumentMarks m)
    (he : Spelled P w (some c) (.expr e)) (hc : c.isPunct "," = true)
    (h : Reading (layered k).expr w (some c) e) (hes : ReadsItems k wa n es) :
    ReadsItems k (m ++ w ++ c :: wa) n (e :: es) := by
  intro t v r hst
  obtain ⟨u, c', u', rfl, hcc, hst', hbehind⟩ := hst.split
  have hc' : c'.isPunct "," = true := (isPunct_congr hcc _) ▸ hc
  obtain ⟨y, t₁, hy, hr₁, hb⟩ := argument_run hm he
    (by simp [isPunct_unique hc]) h t u _ hst'
  obtain ⟨ys, t', hys, hr', hbs⟩ := hes t₁.advance u' r (hbehind t₁ hr₁)
  simp only [commaList, bind_eq_ok, pure_eq_ok, Prod.exists, Prod.mk.injEq] at hys
  obtain ⟨z, t₂, hz, zs, _, hzs, rfl, rfl⟩ := hys
  refine ⟨y :: z :: zs, _, commaList_run hy (.next (afterComma_eq_some.2 ⟨c', _, hr₁, hc', hz⟩)
    ((many_eq_ok (goesForward_layered k).progresses_argument).1 hzs)), hr', ?_⟩
  rw [bare_cons, bare_cons, hb, hbs]

/-- Arguments do not begin with a bracket that closes them. -/
theorem not_closing_of_args {ph : Phrase} (h : Spelled P w n ph) {es : List Expr} (hes : ph = .args es)
    (hne : es ≠ []) : ∃ a v, w = a :: v ∧ a.isPunct ")" = false ∧ a.isPunct "]" = false := by
  have first {m w : List Token} {n : Option Token} {e : Expr} (hm : ArgumentMarks m)
      (he : Spelled P w n (.expr e)) :
      ∃ a v, m ++ w = a :: v ∧ a.isPunct ")" = false ∧ a.isPunct "]" = false := by
    obtain ⟨name, words, rfl, hwords, rfl | ⟨i, c, rfl, hi, -⟩⟩ := hm
    · cases words with
      | nil =>
        obtain ⟨a, v, rfl, ha⟩ := he.head rfl
        exact ⟨a, v, rfl, not_end_of_opens ha (by decide), not_end_of_opens ha (by decide)⟩
      | cons a words =>
        obtain ⟨c, -, hk⟩ := List.any_eq_true.1 (hwords a (List.mem_cons_self ..))
        exact ⟨a, _, rfl, isPunct_of_isKeyword hk, isPunct_of_isKeyword hk⟩
    · exact ⟨i, _, rfl, isPunct_of_isIdentifier hi, isPunct_of_isIdentifier hi⟩
  cases h with
  | noArgs => exact absurd (Phrase.args.inj hes).symm hne
  | lastArg hm he => exact first hm he
  | moreArgs hm he =>
    obtain ⟨a, v, hv, ha⟩ := first hm he
    exact ⟨a, _, by rw [hv]; rfl, ha⟩
  | _ => cases hes

theorem ReadsArguments.of_items {c : Token} {closing : String} {es : List Expr}
    (hes : Spelled P w (some c) (.args es)) (hc : c.isPunct closing = true)
    (hclosing : closing = ")" ∨ closing = "]") (h : es ≠ [] → ReadsItems k w (some c) es) :
    ReadsArguments k w closing es := by
  intro opening t o v c' r hr ho hc' hv
  have hopen := expectPunct_run hr ho
  by_cases hne : es = []
  · subst hne
    cases hes
    obtain rfl := Alike.nil_left.1 hv
    refine ⟨[], t.advance.advance, bind_eq_ok.2 ⟨_, hopen, ?_⟩, by simp [hr], rfl⟩
    exact ifEatPunct_eq_ok.2 (.inl ⟨c', r, by simp [hr], hc', rfl⟩)
  · obtain ⟨a, w', rfl, ha₁, ha₂⟩ := not_closing_of_args hes rfl hne
    obtain ⟨ys, m, hys, hmr, hb⟩ := h hne t.advance v (c' :: r)
      ⟨by simp [hr], hv, by simp [bare_eq_of_isPunct hc hc']⟩
    obtain ⟨a', v', rfl, haa, -⟩ := Alike.cons_left.1 hv
    have hno : t.advance.first?.any (·.isPunct closing) = false := by
      rw [first?_of_rest (a := a') (r := v' ++ c' :: r) (by simp [hr]), Option.any_some, ← isPunct_congr haa]
      obtain rfl | rfl := hclosing
      · exact ha₁
      · exact ha₂
    refine ⟨ys, m.advance, bind_eq_ok.2 ⟨_, hopen, ifEatPunct_eq_ok.2 (.inr ⟨hno, ?_⟩)⟩, by simp [hmr], hb⟩
    exact bind_eq_ok.2 ⟨_, hys, bind_eq_ok.2 ⟨_, expectPunct_run hmr hc', rfl⟩⟩

end

/-! ### The whole grammar -/

/-- What is to be shown of a phrase. -/
def ReadsPhrase (w : List Token) (n : Option Token) : Phrase → Prop
  | .expr e => ∀ k, w.length ≤ k + 1 → Reads k w n e
  | .args es => es ≠ [] → ∀ k, w.length ≤ k → ∀ c, n = some c →
      c.isPunct ")" = true ∨ c.isPunct "]" = true → ReadsItems k w n es

theorem Spelled.reads {P : List Token → Node → Prop} {w : List Token} {n : Option Token} {ph : Phrase}
    (h : Spelled P w n ph) : ReadsPhrase w n ph := by
  induction h with
  | atom ht => exact fun k _ => .atom ht
  | paren ho hc he hn _ ih => exact fun k hk => .paren ho hc he ih hn hk
  | create ha ht ho hc hes hn _ ih =>
    intro k hk
    refine .create ha ht ho hc (.of_items hes hc (.inl rfl) fun hne => ih hne k ?_ _ rfl (.inl hc)) hn
    simp at hk
    omega
  | member _ hpr hd hi _ ih =>
    intro k hk
    refine .member hd hi (ih k ?_) hpr
    simp at hk
    omega
  | call _ hpr ho hc hes _ ih iha =>
    intro k hk
    simp at hk
    exact .call ho hc (ih k (by omega)) hpr
      (.of_items hes hc (.inl rfl) fun hne => iha hne k (by omega) _ rfl (.inl hc))
  | index _ hpr ho hc hes _ ih iha =>
    intro k hk
    simp at hk
    exact .index ho hc (ih k (by omega)) hpr
      (.of_items hes hc (.inr rfl) fun hne => iha hne k (by omega) _ rfl (.inr hc))
  | step _ hpr ht _ ih =>
    intro k hk
    refine .step ht (ih k ?_) hpr
    simp at hk
    omega
  | unary ht he hl _ ih => exact fun k hk => .unary ht hl he.ne_nil ih hk
  | cast ho ht hc hf he hl _ ih => exact fun k hk => .cast ho ht hc hf hl he.ne_nil ih hk
  | binary ht hl hr hll hrl _ ihl ihr => exact fun k hk => .binary ht hl hr hll hrl ihl ihr hk
  | conditional hcond hl hq ha hc hb _ ih iha ihb =>
    exact fun k hk => .conditional hcond hl hq ha hc hb ih iha ihb hk
  | assignment ht htarget hl hv _ iht ihv => exact fun k hk => .assignment ht htarget hl hv iht ihv hk
  | noArgs => exact fun hne => absurd rfl hne
  | lastArg hm he ih =>
    rintro - k hk c rfl hc
    simp at hk
    have hends : Ends (some c) := hc.elim (ends_of_isPunct · (by decide)) (ends_of_isPunct · (by decide))
    have not {d : String} (h₁ : (")" == d) = false) (h₂ : ("]" == d) = false) :
        (some c).any (·.isPunct d) = false :=
      hc.elim (fun h => (isPunct_unique h).trans h₁) fun h => (isPunct_unique h).trans h₂
    exact .last hm he (not rfl rfl) (not rfl rfl) (Reads.below_expr ih he.ne_nil (by omega) hends)
  | moreArgs hm he hc hes hne ih iha =>
    rintro - k hk c' rfl hc'
    simp at hk
    exact .more hm he hc (Reads.below_expr ih he.ne_nil (by omega) (ends_of_isPunct hc (by decide)))
      (iha hne k (by omega) c' rfl hc')

/-- Every layer at least as high as there are tokens reads what the grammar spells. -/
theorem Spelled.complete {P : List Token → Node → Prop} {w : List Token} {n : Option Token} {e : Expr}
    (h : Spelled P w n (.expr e)) (hn : Ends n) {k : Nat} (hk : w.length ≤ k) :
    Reading (layered k).expr w n e :=
  Reads.below_expr h.reads h.ne_nil hk hn

end CultureLint
