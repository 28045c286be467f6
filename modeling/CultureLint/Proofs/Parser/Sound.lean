import CultureLint.Proofs.Parser.Forward
import CultureLint.Proofs.Parser.Spelling
import CultureLint.Proofs.Token.Ordered
import CultureLint.Proofs.Tree.Parts

/-! What the rules for expressions read is spelled by the grammar, its nodes are placed at their tokens,
and each has a number of its own. The proof goes up the layers; what a rule leaves behind it, a token
that does not continue what was read, is part of the statement, since it decides how operators group. -/

namespace CultureLint

open CultureLint.Parser CultureLint.Grammar

/-! ### The token behind an expression -/

/-- Whether the token attaches something to an expression before it, or cannot stand there. -/
def attaches (t : Token) : Bool := [".", "(", "[", "++", "--", "?.", "=>"].any t.isPunct

/-- The next token does not continue a chain of operators of at least the given precedence. -/
structure EndsChain (least : Nat) (n : Option Token) : Prop where
  attaches : n.any attaches = false
  typeTest : n.any (fun t => ["is", "as"].any t.isKeyword) = false
  precedence_lt : ∀ op, n.bind binaryOp? = some op → op.precedence < least

/-- The next token does not continue an expression. -/
structure Ends (n : Option Token) : Prop where
  chain : EndsChain 0 n
  question : n.any (·.isPunct "?") = false
  assign : n.bind assignOp? = none

/-! ### Runs that read expressions -/

/-- Between two cursors stands an expression. -/
structure Got (s : Cursor) (w : List Token) (s' : Cursor) (e : Expr) : Prop where
  took : Took s w s'
  spelled : Spelled Placed w s'.first? (.expr e)
  numbered : Numbered s.nextId s'.nextId [e]

/-- The rules that nest read what the grammar spells. -/
structure Sound (g : Grammar) : Prop where
  forward : g.GoesForward
  expr : ∀ s e s', Ordered s.rest → g.expr s = .ok (e, s') → Ends s'.first? ∧ ∃ w, Got s w s' e
  operand : ∀ s e s', Ordered s.rest → g.operand s = .ok (e, s') →
    s'.first?.any attaches = false ∧ e.level = operandLevel ∧ ∃ w, Got s w s' e
  chain : ∀ least s e s', Ordered s.rest → g.chain least s = .ok (e, s') →
    EndsChain least s'.first? ∧ 0 < e.level ∧ (e.level = operandLevel ∨ least ≤ e.level) ∧
      ∃ w, Got s w s' e

theorem Took.ordered {s s' : Cursor} {w : List Token} (h : Took s w s') (ho : Ordered s.rest) :
    Ordered s'.rest := (h.rest ▸ ho).right

theorem Took.ordered_words {s s' : Cursor} {w : List Token} (h : Took s w s') (ho : Ordered s.rest) :
    Ordered w := (h.rest ▸ ho).left

/-- The node of what began at a cursor and ends at another. -/
theorem Took.placed {s s' : Cursor} {w : List Token} (h : Took s w s') (ho : Ordered s.rest)
    (id : Nat) : Placed w ⟨id, Span.upTo s.offset s'.previousEnd⟩ := by
  refine .of_bounds (h.ordered_words ho) (fun t ht => ?_) (fun t ht => ?_) id
  · obtain ⟨u, rfl⟩ := List.head?_eq_some_iff.1 ht
    simp [Cursor.offset, Cursor.first?, h.rest]
  · simp [h.previousEnd, endOf, ht]

/-- An expression starts where the run that reads it does. -/
theorem Got.start {s s' : Cursor} {w : List Token} {e : Expr} (h : Got s w s' e) :
    e.span.start = s.offset := by
  obtain ⟨t, v, rfl, -⟩ := h.spelled.head rfl
  rw [Expr.span, h.spelled.node.start t rfl, Cursor.offset, h.took.first?]
  rfl

theorem Got.close {s m : Cursor} {w : List Token} {e : Expr} (ht : Took s w m)
    (he : Spelled Placed w m.first? (.expr e)) (hn : Numbered s.nextId m.nextId e.children)
    (hid : e.id = m.nextId) : Got s w { m with nextId := m.nextId + 1 } e :=
  ⟨ht.numbered (Nat.le_succ _), he, hn.close hid ht.nextId_le⟩

/-- What is not tried as a cast is not one. -/
theorem notCast_of_run {s s' : Cursor} {o c : Token} {w : List Token}
    (ht : Took s (o :: (w ++ [c])) s') (ho : o.isPunct "(" = true) (hc : c.isPunct ")" = true)
    (hcast : ∀ a m, readCastType s ≠ .ok (some a, m)) : NotCast w s'.first? := by
  intro c₀ type hc₀ htype
  have hr : s.rest = o :: (w ++ c :: s'.rest) := by simpa using ht.rest
  obtain ⟨type', m, hm, hmr, hb⟩ := htype.run (isPlain_of_isPunct hc₀ (by decide))
    (t := s.advance) (v := w) (r := s'.rest) (by simp [hr]) (.refl w) (bare_eq_of_isPunct hc₀ hc)
  have hp : type.isPrimitiveBased = type'.isPrimitiveBased := by
    rw [← TypeExpr.isPrimitiveBased_bare type, ← TypeExpr.isPrimitiveBased_bare type']
    exact congrArg TypeExpr.isPrimitiveBased hb
  have none_of (hf : type'.isPrimitiveBased = true ∨ s'.rest.head?.any followsCast = true) : False :=
    hcast type' _ (readCastType_eq_some.2 ⟨o, m, c, s'.rest, by simp [hr], ho, hm, hmr, hc, rfl, hf⟩)
  constructor
  · exact Bool.eq_false_iff.2 fun h => none_of (.inl (hp ▸ h))
  · exact Bool.eq_false_iff.2 fun h => none_of (.inr h)

namespace Sound

variable {g : Grammar} (h : Sound g)
include h

/-! ### Arguments -/

theorem argument {s s' : Cursor} {e : Expr} (ho : Ordered s.rest)
    (hs : g.argument s = .ok (e, s')) : ∃ m w, Took s (m ++ w) s' ∧ ArgumentMarks m ∧
      Spelled Placed w s'.first? (.expr e) ∧ Numbered s.nextId s'.nextId [e] := by
  simp only [Grammar.argument, bind_eq_ok, eat2_eq_ok, exists_eq_left] at hs
  obtain ⟨⟨us, m⟩, hm, hs⟩ := hs
  obtain ⟨words, hw, hwords⟩ := (Takes.many (takes_passing? _)) _ _ _ hm
  obtain ⟨name, hn, hname⟩ : ∃ name, Took s name
      (if s.first?.any Token.isIdentifier && s.second?.any (·.isPunct ":") then s.advance.advance
        else s) ∧ (name = [] ∨ ∃ i c, name = [i, c] ∧ i.isIdentifier = true ∧
          c.isPunct ":" = true) := by
    split
    · rename_i hc
      obtain ⟨i, c, hi, hc, ht⟩ := took_second hc
      exact ⟨_, ht, .inr ⟨i, c, rfl, hi, hc⟩⟩
    · exact ⟨[], .refl s, .inl rfl⟩
  have hnw := hn.trans hw
  obtain ⟨-, w, hg⟩ := h.expr _ _ _ (hnw.ordered ho) hs
  exact ⟨name ++ words, w, hnw.trans hg.took, ⟨name, words, rfl, hwords, hname⟩, hg.spelled,
    hg.numbered.widen hnw.nextId_le (Nat.le_refl _)⟩

/-- Further arguments behind the first. -/
theorem further {s s' : Cursor} {es : List Expr} (ho : Ordered s.rest)
    (hs : Rounds (afterComma g.argument) s es s') : ∃ v, Took s v s' ∧
      Numbered s.nextId s'.nextId es ∧ ∀ m w e, ArgumentMarks m →
        Spelled Placed w s.first? (.expr e) →
          Spelled Placed (m ++ w ++ v) s'.first? (.args (e :: es)) := by
  induction hs with
  | @stop s s' hs =>
    obtain ⟨-, rfl⟩ := afterComma_eq_none.1 hs
    refine ⟨[], .refl _, .nil, fun m w e hm he => ?_⟩
    rw [List.append_nil]
    exact .lastArg hm he
  | @next s m s' e es hs _ ih =>
    obtain ⟨c, r, hr, hc, he⟩ := afterComma_eq_some.1 hs
    have ht := Took.advance hr
    obtain ⟨m₁, w₁, hw, hm₁, he₁, hn₁⟩ := h.argument (ht.ordered ho) he
    have hcw := ht.trans hw
    obtain ⟨v, hv, hnv, ih⟩ := ih (hcw.ordered ho)
    refine ⟨_, hcw.trans hv, ?_, fun m₀ w₀ e₀ hm₀ he₀ => ?_⟩
    · exact (hn₁.widen ht.nextId_le (Nat.le_refl _)).append hnv hcw.nextId_le hv.nextId_le
    · rw [ht.first?] at he₀
      exact .moreArgs hm₀ he₀ hc (ih m₁ w₁ e hm₁ he₁) (by simp)

theorem arguments {opening closing : String} {s s' : Cursor} {es : List Expr} (ho : Ordered s.rest)
    (hs : g.arguments opening closing s = .ok (es, s')) : ∃ o w c, Took s (o :: (w ++ [c])) s' ∧
      o.isPunct opening = true ∧ c.isPunct closing = true ∧
        Spelled Placed w (some c) (.args es) ∧ Numbered s.nextId s'.nextId es := by
  simp only [Grammar.arguments, bind_eq_ok (p := expectPunct opening)] at hs
  obtain ⟨⟨_, m⟩, hopen, hs⟩ := hs
  obtain ⟨o, hoc, hto⟩ := took_punct hopen
  obtain ⟨c, r, hr, hc, hs⟩ | ⟨-, hs⟩ := ifEatPunct_eq_ok.1 hs
  · simp only [pure_eq_ok, Prod.mk.injEq] at hs
    obtain ⟨rfl, rfl⟩ := hs
    exact ⟨o, [], c, hto.trans (.advance hr), hoc, hc, .noArgs, .nil⟩
  · simp only [commaList, bind_eq_ok, pure_eq_ok, Prod.exists, Prod.mk.injEq] at hs
    obtain ⟨_, m₂, ⟨e, m₁, he, fs, _, hf, rfl, rfl⟩, _, _, hclose, rfl, rfl⟩ := hs
    obtain ⟨c, hcc, htc⟩ := took_punct hclose
    obtain ⟨m₀, w₀, hw₀, hm₀, he₀, hn₀⟩ := h.argument (hto.ordered ho) he
    obtain ⟨v, hv, hnv, hall⟩ := h.further (hw₀.ordered (hto.ordered ho))
      ((many_eq_ok h.forward.progresses_argument).1 hf)
    refine ⟨o, m₀ ++ w₀ ++ v, c, ?_, hoc, hcc, htc.first? ▸ hall m₀ w₀ e hm₀ he₀, ?_⟩
    · simpa using hto.trans (hw₀.trans (hv.trans htc))
    · have hes := hn₀.append hnv hw₀.nextId_le hv.nextId_le
      exact hes.widen hto.nextId_le htc.nextId_le

/-! ### Primary expressions -/

theorem primary {s s' : Cursor} {e : Expr} (ho : Ordered s.rest) (hs : g.primary s = .ok (e, s'))
    (hcast : ∀ a m, readCastType s ≠ .ok (some a, m)) :
    e.isPrimary = true ∧ ∃ w, Got s w s' e := by
  simp only [Grammar.primary, offset_bind, ask_bind] at hs
  cases ht : s.first? with
  | none => simp [ht] at hs
  | some t =>
    obtain ⟨r, hr⟩ := List.head?_eq_some_iff.1 ht
    simp only [ht] at hs
    cases ha : atom? t with
    | some make =>
      simp only [ha, advance_bind, newNode_bind, pure_eq_ok, Prod.mk.injEq] at hs
      obtain ⟨rfl, rfl⟩ := hs
      have hatom := isAtom_of_atom? ha
      refine ⟨hatom.isPrimary _, [t], .close (.advance hr) (.atom ha ⟨?_, ?_⟩)
        (hatom.children _ ▸ .nil) ?_⟩
      · simp [Token.span]
      · simp
      · rw [Expr.id, hatom.node]
    | none =>
      simp only [ha] at hs
      obtain ⟨o, r, hr, hoc, hs⟩ | ⟨-, hs⟩ := ifEatPunct_eq_ok.1 hs
      · simp only [bind_eq_ok, newNodeFrom_bind, pure_eq_ok, Prod.exists, Prod.mk.injEq] at hs
        obtain ⟨inner, m, hi, _, m', hclose, rfl, rfl⟩ := hs
        have hto := Took.advance hr
        obtain ⟨-, w, hg⟩ := h.expr _ _ _ (hto.ordered ho) hi
        obtain ⟨c, hcc, htc⟩ := took_punct hclose
        have htook : Took s (o :: (w ++ [c])) m' := hto.trans (hg.took.trans htc)
        refine ⟨rfl, _, .close htook (.paren hoc hcc (htc.first? ▸ hg.spelled)
          (notCast_of_run htook hoc hcc hcast) (htook.placed ho _)) ?_ rfl⟩
        exact hg.numbered.widen hto.nextId_le htc.nextId_le
      · obtain ⟨k, r, hr, hk, hs⟩ | ⟨-, hs⟩ := ifEatKeyword_eq_ok.1 hs
        · simp only [Grammar.creation, bind_eq_ok (p := Parser.type), Prod.exists] at hs
          obtain ⟨type, m, htype, hs⟩ := hs
          obtain ⟨o, r', hr', hoc, hs⟩ | ⟨-, hs⟩ := ifAtPunct_eq_ok.1 hs
          · simp only [bind_eq_ok (p := g.arguments _ _), Prod.exists] at hs
            obtain ⟨es, m', hes, hs⟩ := hs
            obtain ⟨b, r'', hr'', hb, hs⟩ | ⟨hb, hs⟩ := ifAtPunct_eq_ok.1 hs
            · simp at hs
            · simp only [newNodeFrom_bind, pure_eq_ok, Prod.mk.injEq] at hs
              obtain ⟨rfl, rfl⟩ := hs
              have htk := Took.advance hr
              obtain ⟨wt, htt, -⟩ := takes_type _ _ _ htype
              obtain ⟨o', w, c, hta, hoc', hcc, hesp, hen⟩ :=
                h.arguments (htt.ordered (htk.ordered ho)) hes
              have htook := htk.trans (htt.trans hta)
              refine ⟨rfl, _, .close htook (.create hk ⟨_, m, htype, htt, hta.first?⟩ hoc' hcc hesp hb
                (htook.placed ho _)) ?_ rfl⟩
              exact hen.widen (htk.trans htt).nextId_le (Nat.le_refl _)
          · simp at hs
        · simp at hs

/-! ### What is attached -/

theorem attachment {s m s' : Cursor} {w : List Token} {e e' : Expr} (ho : Ordered s.rest)
    (hg : Got s w m e) (hpr : e.isPrimary = true)
    (hs : g.attachment s.offset e m = .ok (some e', s')) :
    e'.isPrimary = true ∧ ∃ v, Got s v s' e' := by
  have hom := hg.took.ordered ho
  simp only [Grammar.attachment] at hs
  obtain ⟨d, r, hr, hd, hs⟩ | ⟨-, hs⟩ := ifEatPunct_eq_ok.1 hs
  · simp only [bind_eq_ok (p := expectIdent), newNodeFrom_bind, pure_eq_ok, Prod.exists,
      Prod.mk.injEq, Option.some.injEq] at hs
    obtain ⟨i, m', hi, rfl, rfl⟩ := hs
    obtain ⟨t, ht, rfl, hti⟩ := took_ident hi
    have htd := Took.advance hr
    have htook := hg.took.trans (htd.trans hti)
    refine ⟨rfl, _, .close htook (.member (htd.first? ▸ hg.spelled) hpr hd ht (htook.placed ho _))
      ?_ rfl⟩
    exact hg.numbered.widen (Nat.le_refl _) (htd.trans hti).nextId_le
  obtain ⟨o, r, hr, -, hs⟩ | ⟨-, hs⟩ := ifAtPunct_eq_ok.1 hs
  · simp only [bind_eq_ok (p := g.arguments _ _), newNodeFrom_bind, pure_eq_ok, Prod.exists,
      Prod.mk.injEq, Option.some.injEq] at hs
    obtain ⟨es, m', hes, rfl, rfl⟩ := hs
    obtain ⟨o, wa, c, hta, hoc, hcc, hesp, hen⟩ := h.arguments hom hes
    have htook := hg.took.trans hta
    exact ⟨rfl, _, .close htook (.call (hta.first? ▸ hg.spelled) hpr hoc hcc hesp (htook.placed ho _))
      (hg.numbered.append hen hg.took.nextId_le hta.nextId_le) rfl⟩
  obtain ⟨o, r, hr, -, hs⟩ | ⟨-, hs⟩ := ifAtPunct_eq_ok.1 hs
  · simp only [bind_eq_ok (p := g.arguments _ _), newNodeFrom_bind, pure_eq_ok, Prod.exists,
      Prod.mk.injEq, Option.some.injEq] at hs
    obtain ⟨es, m', hes, rfl, rfl⟩ := hs
    obtain ⟨o, wa, c, hta, hoc, hcc, hesp, hen⟩ := h.arguments hom hes
    have htook := hg.took.trans hta
    exact ⟨rfl, _, .close htook (.index (hta.first? ▸ hg.spelled) hpr hoc hcc hesp (htook.placed ho _))
      (hg.numbered.append hen hg.took.nextId_le hta.nextId_le) rfl⟩
  have step (increment : Bool) {t : Token} {r : List Token} (hr : m.rest = t :: r)
      (ht : t.isPunct (if increment then "++" else "--") = true) (hs : (newNodeFrom s.offset >>=
        fun node => pure (some (Expr.step node increment e))) m.advance = .ok (some e', s')) :
      e'.isPrimary = true ∧ ∃ v, Got s v s' e' := by
    simp only [newNodeFrom_bind, pure_eq_ok, Prod.mk.injEq, Option.some.injEq] at hs
    obtain ⟨rfl, rfl⟩ := hs
    have htt := Took.advance hr
    have htook := hg.took.trans htt
    exact ⟨rfl, _, .close htook (.step (htt.first? ▸ hg.spelled) hpr ht (htook.placed ho _))
      (hg.numbered.widen (Nat.le_refl _) htt.nextId_le) rfl⟩
  obtain ⟨t, r, hr, ht, hs⟩ | ⟨-, hs⟩ := ifEatPunct_eq_ok.1 hs
  · exact step true hr ht hs
  obtain ⟨t, r, hr, ht, hs⟩ | ⟨-, hs⟩ := ifEatPunct_eq_ok.1 hs
  · exact step false hr ht hs
  obtain ⟨t, r, hr, ht, hs⟩ | ⟨-, hs⟩ := ifAt_eq_ok.1 hs <;> simp at hs

omit h in
/-- Nothing is attached only before a token that attaches nothing. -/
theorem attachment_none {m s' : Cursor} {start : Nat} {e : Expr}
    (hs : g.attachment start e m = .ok (none, s')) : s' = m ∧ m.first?.any attaches = false := by
  simp only [Grammar.attachment] at hs
  obtain ⟨d, r, hr, hd, hs⟩ | ⟨h₁, hs⟩ := ifEatPunct_eq_ok.1 hs
  · simp at hs
  obtain ⟨d, r, hr, hd, hs⟩ | ⟨h₂, hs⟩ := ifAtPunct_eq_ok.1 hs
  · simp at hs
  obtain ⟨d, r, hr, hd, hs⟩ | ⟨h₃, hs⟩ := ifAtPunct_eq_ok.1 hs
  · simp at hs
  obtain ⟨d, r, hr, hd, hs⟩ | ⟨h₄, hs⟩ := ifEatPunct_eq_ok.1 hs
  · simp at hs
  obtain ⟨d, r, hr, hd, hs⟩ | ⟨h₅, hs⟩ := ifEatPunct_eq_ok.1 hs
  · simp at hs
  obtain ⟨d, r, hr, hd, hs⟩ | ⟨h₆, hs⟩ := ifAt_eq_ok.1 hs
  · simp at hs
  simp only [pure_eq_ok, Prod.mk.injEq, true_and] at hs
  refine ⟨hs, ?_⟩
  cases hm : m.first? with
  | none => rfl
  | some t =>
    simp only [hm, Option.any_some, Bool.or_eq_false_iff] at h₁ h₂ h₃ h₄ h₅ h₆
    simp only [Option.any_some, attaches, List.any_cons, List.any_nil, h₁, h₂, h₃, h₄, h₅, h₆.1, h₆.2,
      Bool.or_false]

/-- Steps of attaching, from a primary expression on. -/
theorem attachments {s m s' : Cursor} {e e' : Expr} (ho : Ordered s.rest)
    (hg : ∃ w, Got s w m e) (hpr : e.isPrimary = true)
    (hs : Steps (g.attachment s.offset) e m e' s') :
    e'.isPrimary = true ∧ ∃ w, Got s w s' e' := by
  induction hs with
  | refl => exact ⟨hpr, hg⟩
  | head hs _ ih =>
    obtain ⟨w, hg⟩ := hg
    obtain ⟨hpr', hg'⟩ := h.attachment ho hg hpr hs
    exact ih hg' hpr'

/-! ### Operands and operators -/

theorem operandRule {s s' : Cursor} {e : Expr} (ho : Ordered s.rest)
    (hs : g.operandRule s = .ok (e, s')) :
    s'.first?.any attaches = false ∧ e.level = operandLevel ∧ ∃ w, Got s w s' e := by
  simp only [Grammar.operandRule, offset_bind, ask_bind] at hs
  cases hop : s.first?.bind unaryOp? with
  | some op =>
    obtain ⟨t, ht, hop'⟩ := Option.bind_eq_some_iff.1 hop
    obtain ⟨r, hr⟩ := List.head?_eq_some_iff.1 ht
    simp only [hop, advance_bind, bind_eq_ok, newNodeFrom_bind, pure_eq_ok, Prod.exists,
      Prod.mk.injEq] at hs
    obtain ⟨inner, m, hi, rfl, rfl⟩ := hs
    have htt := Took.advance hr
    obtain ⟨hend, hl, w, hg⟩ := h.operand _ _ _ (htt.ordered ho) hi
    have htook := htt.trans hg.took
    exact ⟨hend, rfl, _, .close htook (.unary hop' hg.spelled hl (htook.placed ho _))
      (hg.numbered.widen htt.nextId_le (Nat.le_refl _)) rfl⟩
  | none =>
    simp only [hop, bind_eq_ok (p := castType?), Prod.exists] at hs
    obtain ⟨type, m, hcast, hs⟩ := hs
    cases type with
    | some type =>
      simp only [bind_eq_ok, newNodeFrom_bind, pure_eq_ok, Prod.exists, Prod.mk.injEq] at hs
      obtain ⟨inner, m', hi, rfl, rfl⟩ := hs
      obtain ⟨o, m₁, c, r, hr, hoc, htype, hr₁, hcc, rfl, hf⟩ :=
        readCastType_eq_some.1 (speculate_eq_some.1 hcast)
      obtain ⟨wt, htt, -⟩ := takes_type _ _ _ htype
      have hto := Took.advance hr
      have htc := Took.advance hr₁
      have hpre := hto.trans (htt.trans htc)
      obtain ⟨hend, hl, w, hg⟩ := h.operand _ _ _ (hpre.ordered ho) hi
      have htook : Took s (o :: (wt ++ c :: w)) m' := by simpa using hpre.trans hg.took
      have hf' : type.isPrimitiveBased = true ∨ w.head?.any followsCast = true := by
        refine hf.imp id fun hf => ?_
        obtain ⟨t, v, rfl, -⟩ := hg.spelled.head rfl
        have hr' : r = t :: (v ++ m'.rest) := by simpa [hr₁] using hg.took.rest
        simpa [hr'] using hf
      exact ⟨hend, rfl, _, .close htook (.cast hoc ⟨_, m₁, htype, htt, htc.first?⟩ hcc hf' hg.spelled hl
        (htook.placed ho _)) (hg.numbered.widen hpre.nextId_le (Nat.le_refl _)) rfl⟩
    | none =>
      obtain ⟨rfl, hcast⟩ := speculate_eq_none.1 hcast
      simp only [bind_eq_ok, Prod.exists] at hs
      obtain ⟨e₀, m₀, he₀, hs⟩ := hs
      obtain ⟨hpr, w, hg⟩ := h.primary ho he₀ hcast
      rw [hg.start] at hs
      obtain ⟨m', hsteps, hend⟩ := (grow_eq_ok (h.forward.progresses_attachment _)).1 hs
      obtain ⟨rfl, hend⟩ := attachment_none hend
      obtain ⟨hpr', hg'⟩ := h.attachments ho ⟨w, hg⟩ hpr hsteps
      exact ⟨hend, Expr.level_of_isPrimary hpr', hg'⟩

/-- What links of a chain of at least some precedence keep: the chain so far, and that the next operator,
whatever it is, takes all of it. -/
structure Chain (least : Nat) (s : Cursor) (w : List Token) (m : Cursor) (e : Expr) : Prop
    extends Got s w m e where
  attaches : m.first?.any attaches = false
  level_pos : 0 < e.level
  level : e.level = operandLevel ∨ least ≤ e.level
  reach : ∀ op, m.first?.bind binaryOp? = some op → op.precedence < e.reach

theorem link {least : Nat} {s m s' : Cursor} {w : List Token} {e e' : Expr} (ho : Ordered s.rest)
    (hc : Chain least s w m e) (hs : g.link least e m = .ok (some e', s')) :
    ∃ v, Chain least s v s' e' := by
  simp only [Grammar.link, ask_bind] at hs
  cases hop : m.first?.bind binaryOp? with
  | none => simp [hop] at hs
  | some op =>
    obtain ⟨t, ht, hop'⟩ := Option.bind_eq_some_iff.1 hop
    obtain ⟨r, hr⟩ := List.head?_eq_some_iff.1 ht
    simp only [hop] at hs
    split at hs
    · simp at hs
    · rename_i hl
      simp only [advance_bind, bind_eq_ok, newNode_bind, pure_eq_ok, Prod.exists, Prod.mk.injEq,
        Option.some.injEq] at hs
      obtain ⟨right, m', hright, rfl, rfl⟩ := hs
      have htt := Took.advance hr
      have hpre := hc.took.trans htt
      obtain ⟨hend, -, hrl, v, hg⟩ := h.chain _ _ _ _ (hpre.ordered ho) hright
      have htook : Took s (w ++ t :: v) m' := by simpa using hpre.trans hg.took
      have hlevel : op.rightPrecedence ≤ right.level :=
        hrl.elim (fun he => he ▸ op.rightPrecedence_le_operandLevel) id
      have hplaced := Placed.cover (m := [t]) (by simpa using htook.ordered_words ho)
        hc.spelled.ne_nil hg.spelled.ne_nil hc.spelled.node hg.spelled.node m'.nextId
      refine ⟨_, .close htook (.binary hop' (htt.first? ▸ hc.spelled) hg.spelled (hc.reach op hop) hlevel
        (by simpa [Expr.span] using hplaced)) ?_ rfl, hend.attaches, ?_, .inr (Nat.not_lt.1 hl),
        hend.precedence_lt⟩
      · exact (hc.numbered.widen (Nat.le_refl _) htt.nextId_le).append hg.numbered
          hpre.nextId_le hg.took.nextId_le
      · show 0 < op.precedence
        cases op <;> decide

omit h in
theorem link_none {least : Nat} {m s' : Cursor} {e : Expr} (hs : g.link least e m = .ok (none, s')) :
    s' = m ∧ ∀ op, m.first?.bind binaryOp? = some op → op.precedence < least := by
  simp only [Grammar.link, ask_bind] at hs
  cases hop : m.first?.bind binaryOp? with
  | none => simpa [hop] using hs
  | some op =>
    simp only [hop] at hs
    split at hs
    · rename_i hl
      simp only [pure_eq_ok, Prod.mk.injEq, true_and] at hs
      exact ⟨hs, fun op' h => Option.some.inj h ▸ hl⟩
    · simp [advance_bind] at hs

theorem links {least : Nat} {s m s' : Cursor} {e e' : Expr} (ho : Ordered s.rest)
    (hc : ∃ w, Chain least s w m e) (hs : Steps (g.link least) e m e' s') :
    ∃ w, Chain least s w s' e' := by
  induction hs with
  | refl => exact hc
  | head hs _ ih =>
    obtain ⟨w, hc⟩ := hc
    exact ih (h.link ho hc hs)

theorem chainRule {least : Nat} {s s' : Cursor} {e : Expr} (ho : Ordered s.rest)
    (hs : g.chainRule least s = .ok (e, s')) :
    EndsChain least s'.first? ∧ 0 < e.level ∧ (e.level = operandLevel ∨ least ≤ e.level) ∧
      ∃ w, Got s w s' e := by
  simp only [Grammar.chainRule, bind_eq_ok (p := g.operandRule), Prod.exists] at hs
  obtain ⟨e₀, m₀, he₀, hs⟩ := hs
  rw [bind_eq_ok] at hs
  obtain ⟨⟨e₁, m₁⟩, he₁, hs⟩ := hs
  obtain ⟨hend₀, hl₀, w₀, hg₀⟩ := h.operandRule ho he₀
  obtain ⟨m, hsteps, hlast⟩ := (grow_eq_ok (h.forward.progresses_link least)).1 he₁
  obtain ⟨rfl, hop⟩ := link_none hlast
  have hreach := Expr.reach_of_level hl₀
  have hstart : Chain least s w₀ m₀ e₀ :=
    ⟨hg₀, hend₀, hl₀ ▸ by decide, .inl hl₀, fun op _ => hreach ▸ op.precedence_lt_operandLevel⟩
  obtain ⟨w, hc⟩ := h.links ho ⟨w₀, hstart⟩ hsteps
  obtain ⟨t, r, hr, ht, hs⟩ | ⟨htest, hs⟩ := ifAt_eq_ok.1 hs
  · simp at hs
  · simp only [pure_eq_ok, Prod.mk.injEq] at hs
    obtain ⟨rfl, rfl⟩ := hs
    exact ⟨⟨hc.attaches, htest, hop⟩, hc.level_pos, hc.level, w, hc.toGot⟩

theorem conditional {s s' : Cursor} {e : Expr} (ho : Ordered s.rest)
    (hs : g.conditional s = .ok (e, s')) :
    EndsChain 0 s'.first? ∧ s'.first?.any (·.isPunct "?") = false ∧
      (0 < e.level ∨ s'.first?.bind assignOp? = none) ∧ ∃ w, Got s w s' e := by
  simp only [Grammar.conditional, bind_eq_ok (p := g.chainRule 0), Prod.exists] at hs
  obtain ⟨c, m, hc, hs⟩ := hs
  obtain ⟨hend, hl, -, wc, hg⟩ := h.chainRule ho hc
  obtain ⟨q, r, hr, hq, hs⟩ | ⟨hq, hs⟩ := ifEatPunct_eq_ok.1 hs
  · simp only [bind_eq_ok, newNode_bind, pure_eq_ok, Prod.exists, Prod.mk.injEq] at hs
    obtain ⟨a, m₁, ha, _, m₂, hcolon, b, m₃, hb, rfl, rfl⟩ := hs
    have htq := Took.advance hr
    have hpre := hg.took.trans htq
    obtain ⟨-, wa, hga⟩ := h.expr _ _ _ (hpre.ordered ho) ha
    obtain ⟨k, hk, htk⟩ := took_punct hcolon
    have hmid := hpre.trans (hga.took.trans htk)
    obtain ⟨hendb, wb, hgb⟩ := h.expr _ _ _ (hmid.ordered ho) hb
    have htook : Took s (wc ++ q :: (wa ++ k :: wb)) m₃ := by simpa using hmid.trans hgb.took
    have hplaced := Placed.cover (m := q :: (wa ++ [k])) (by simpa using htook.ordered_words ho)
      hg.spelled.ne_nil hgb.spelled.ne_nil hg.spelled.node hgb.spelled.node m₃.nextId
    refine ⟨hendb.chain, hendb.question, .inr hendb.assign, _, .close htook (.conditional
      (htq.first? ▸ hg.spelled) hl hq (htk.first? ▸ hga.spelled) hk hgb.spelled
      (by simpa [Expr.span] using hplaced)) ?_ rfl⟩
    have hab := (hga.numbered.widen (Nat.le_refl _) htk.nextId_le).append hgb.numbered
      (hga.took.trans htk).nextId_le hgb.took.nextId_le
    exact (hg.numbered.widen (Nat.le_refl _) htq.nextId_le).append hab hpre.nextId_le
      ((hga.took.trans htk).trans hgb.took).nextId_le
  · simp only [pure_eq_ok, Prod.mk.injEq] at hs
    obtain ⟨rfl, rfl⟩ := hs
    exact ⟨hend, hq, .inl hl, wc, hg⟩

theorem exprRule {s s' : Cursor} {e : Expr} (ho : Ordered s.rest)
    (hs : g.exprRule s = .ok (e, s')) : Ends s'.first? ∧ ∃ w, Got s w s' e := by
  simp only [Grammar.exprRule, bind_eq_ok (p := g.conditional), ask_bind, Prod.exists] at hs
  obtain ⟨target, m, ht, hs⟩ := hs
  obtain ⟨hend, hq, hl, w, hg⟩ := h.conditional ho ht
  cases hop : m.first?.bind assignOp? with
  | none =>
    simp only [hop, pure_eq_ok, Prod.mk.injEq] at hs
    obtain ⟨rfl, rfl⟩ := hs
    exact ⟨⟨hend, hq, hop⟩, w, hg⟩
  | some op =>
    obtain ⟨t, ht, hop'⟩ := Option.bind_eq_some_iff.1 hop
    obtain ⟨r, hr⟩ := List.head?_eq_some_iff.1 ht
    simp only [hop, advance_bind, bind_eq_ok, newNode_bind, pure_eq_ok, Prod.exists,
      Prod.mk.injEq] at hs
    obtain ⟨value, m', hv, rfl, rfl⟩ := hs
    have htt := Took.advance hr
    have hpre := hg.took.trans htt
    obtain ⟨hendv, v, hgv⟩ := h.expr _ _ _ (hpre.ordered ho) hv
    have htook : Took s (w ++ t :: v) m' := by simpa using hpre.trans hgv.took
    have hplaced := Placed.cover (m := [t]) (by simpa using htook.ordered_words ho)
      hg.spelled.ne_nil hgv.spelled.ne_nil hg.spelled.node hgv.spelled.node m'.nextId
    have hl' : 0 < target.level := hl.resolve_right (by simp [hop])
    exact ⟨hendv, _, .close htook (.assignment hop' (htt.first? ▸ hg.spelled) hl' hgv.spelled
      (by simpa [Expr.span] using hplaced))
      ((hg.numbered.widen (Nat.le_refl _) htt.nextId_le).append hgv.numbered hpre.nextId_le
        hgv.took.nextId_le) rfl⟩

theorem above : Sound g.above where
  forward := h.forward.above
  expr _ _ _ ho hs := h.exprRule ho hs
  operand _ _ _ ho hs := h.operandRule ho hs
  chain _ _ _ _ ho hs := h.chainRule ho hs

end Sound

/-- Every layer of the grammar reads only what the grammar spells. -/
theorem sound_layered (n : Nat) : Sound (layered n) := by
  induction n with
  | zero => exact ⟨goesForward_layered 0, by simp [layered, refusing], by simp [layered, refusing],
      by simp [layered, refusing]⟩
  | succ n ih => exact ih.above

end CultureLint
