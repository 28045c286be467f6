import CultureLint.Proofs.Parser.Lines

/-! The rules for expressions and statements mirror a change. For expressions that is the grammar itself:
what is read is spelled, and what is spelled is read. For statements it is the combinators, and one
argument of its own: no change makes the beginning of an expression look like a local declaration. -/

namespace CultureLint

open CultureLint.Parser CultureLint.Grammar

/-! ### Lawful changes -/

/-- The marks behind the name of a declared variable. -/
def localMarks : List String := ["=", ";", ","]

/-- A change that the grammar of expressions and the lists of `using` lines can follow. -/
structure Change.Lawful (c : Change) : Prop extends c.Local where
  /-- What becomes of an expression is spelled by what becomes of its tokens. -/
  spelled : ∀ w n e, Spelled Placed w n (.expr e) → Ordered w → c.Fits w [.expr e] →
    Spelled Begins (c.tokens w) n (.expr (c.expr e))
  /-- What looks like a local declaration afterwards did so before. -/
  heads : ∀ w e h k r, Laid w [.expr e] → Ordered w → c.Fits w [.expr e] →
    c.tokens w = h ++ k :: r → (∀ t ∈ h, t.isPunct "(" = false) → localMarks.any k.isPunct = true →
    ∃ r', w = h ++ k :: r'
  usings : ∀ bound, Mirrors c bound Agree Agree [] [] Parser.usings Parser.usings

/-! ### Expressions -/

/-- One grammar reads after a change what the other reads before. -/
structure Grammar.Follows (c : Change) (bound : Nat) (g g' : Grammar) : Prop where
  lawful : c.Lawful
  pos : 0 < bound
  forward : g.GoesForward
  forward' : g'.GoesForward
  expr : ∀ b, b ≤ bound → Mirrors c b Agree Near [] [] g.expr g'.expr
  stmt : ∀ b, b < bound → Mirrors c b Near Near [] [] g.stmt g'.stmt

theorem mirrors_expr {c : Change} (hc : c.Lawful) (k : Nat) {bound b : Nat} (hb : b ≤ bound + 1) :
    Mirrors c b Agree Near [] [] (layered k).expr (layered bound).expr := by
  intro s e s' hs ho
  obtain ⟨hends, w, hw⟩ := (sound_layered k).expr s e s' ho hs
  refine ⟨w, [.expr e], rfl, hw.took, .single ⟨_, hw.spelled⟩, hw.numbered, fun hfit hF => ?_⟩
  have hsp := hc.spelled _ _ _ hw.spelled (hw.took.ordered_words ho) hfit
  have hts : c.tokens s.rest = c.tokens w ++ c.tokens s'.rest := by rw [hw.took.rest, c.tokens_append]
  refine ⟨.inr ⟨?_, ?_⟩, fun t ht hlt => ?_⟩
  · obtain ⟨a, v, rfl, ha⟩ := hw.spelled.head rfl
    simp [hw.took.rest, ha]
  · obtain ⟨a, v, hv, ha⟩ := hsp.head rfl
    simp [hts, hv, ha]
  · have hlen := ht.length_eq
    rw [hts] at ht
    rw [hts, List.length_append] at hlen
    have hot : Ordered t.rest := ht.ordered
    obtain ⟨v, r, hv, hwv, hr⟩ := ht.append_left
    obtain ⟨y, t', hy, ht', hxy⟩ := hsp.complete hends (k := bound) (by omega) t v r
      ⟨hv, hwv.alike, (hF.trans_alike hr.alike).head⟩
    obtain ⟨-, v', hv'⟩ := (sound_layered bound).expr t y t' hot hy
    obtain rfl : v' = v := by
      have := hv'.took.rest
      rw [ht', hv] at this
      exact (List.append_cancel_right this).symm
    exact ⟨y, t', [.expr y], hy, by rwa [ht'], hxy, rfl,
      .cons (.expr (hw.took.ordered_words ho) hw.spelled hv'.spelled hfit hwv) .nil⟩

/-! ### Local declarations -/

theorem not_mark_of_inType {t : Token} (h : inType t = true) {mark : String} (hm : mark ∉ typeMarks) :
    t.isPunct mark = false :=
  Bool.eq_false_iff.2 fun hp => by simp [inType_of_not_mark hp hm] at h

/-- The type of a local declaration holds neither of the marks that decide whether it is one. -/
theorem takes_readLocalType :
    Takes (fun t => t.isPunct "(" = false ∧ t.isPunct ";" = false) readLocalType := by
  have type {t : Token} (h : inType t = true) : t.isPunct "(" = false ∧ t.isPunct ";" = false :=
    ⟨not_mark_of_inType h (by decide), not_mark_of_inType h (by decide)⟩
  refine Takes.bind (.eat fun t ht => ⟨isPunct_of_isKeyword ht, isPunct_of_isKeyword ht⟩) fun _ => ?_
  refine Takes.bind (fun s x s' hs => ?_) fun _ => (Takes.ask _).bind fun _ => .ite (.pure _) (.pure _)
  simp only [varOrType, bind_eq_ok, at2?_eq_ok, exists_eq_left] at hs
  split at hs
  · rename_i hvar
    obtain ⟨t, ht, hw⟩ := took_first (Bool.and_eq_true_iff.1 hvar).1
    simp only [bind_eq_ok, offset_eq_ok, advance_eq_ok, spanFrom_eq_ok, pure_eq_ok, exists_eq_left,
      Prod.mk.injEq] at hs
    obtain ⟨-, rfl⟩ := hs
    exact ⟨[t], hw, by simpa using type (inType_of_spells ht)⟩
  · obtain ⟨w, hw, hin⟩ := takes_type _ _ _ hs
    exact ⟨w, hw, fun t ht => type (hin t ht)⟩

theorem readLocalType_next {s s' : Cursor} {type : TypeExpr} (h : readLocalType s = .ok (some type, s')) :
    ∃ i k r, s'.rest = i :: k :: r ∧ i.isIdentifier = true ∧ localMarks.any k.isPunct = true := by
  simp only [readLocalType, bind_eq_ok, at2?_eq_ok, exists_eq_left, Prod.exists] at h
  obtain ⟨_, _, -, type', m, -, h⟩ := h
  split at h
  · rename_i hnext
    simp only [pure_eq_ok, Prod.mk.injEq] at h
    obtain ⟨-, rfl⟩ := h
    simp only [Bool.and_eq_true, Cursor.first?, Cursor.second?] at hnext
    obtain hr | ⟨i, hr⟩ | ⟨i, k, r, hr⟩ :
        s'.rest = [] ∨ (∃ i, s'.rest = [i]) ∨ ∃ i k r, s'.rest = i :: k :: r := by
      rcases s'.rest with _ | ⟨i, _ | ⟨k, r⟩⟩ <;> simp
    · simp [hr] at hnext
    · simp [hr] at hnext
    · simp only [hr, List.head?_cons, Option.any_some, List.tail_cons] at hnext
      exact ⟨i, k, r, hr, hnext.1, by simpa [localMarks, or_assoc] using hnext.2⟩
  · simp at h

/-- The expression before a semicolon that is not tried as a local declaration is not one after the
change either: all that such a declaration begins with stands before the first parenthesis. -/
theorem not_local_after {c : Change} (hc : c.Lawful) {s : Cursor} {w r : List Token} {semi : Token}
    {e : Expr} (hr : s.rest = w ++ semi :: r) (hsemi : semi.isPunct ";" = true)
    (hl : Laid w [.expr e]) (ho : Ordered (w ++ [semi])) (hf : c.Fits (w ++ [semi]) [.expr e])
    (hno : ∀ a m, readLocalType s ≠ .ok (some a, m)) {t : Cursor} (ht : Alike (c.tokens s.rest) t.rest)
    (a : TypeExpr) (m : Cursor) : readLocalType t ≠ .ok (some a, m) := by
  intro hrun
  obtain ⟨v, hv, hmarks⟩ := takes_readLocalType t _ m hrun
  obtain ⟨i, k, x, hx, hi, hk⟩ := readLocalType_next hrun
  have hlaid : Laid (w ++ [semi]) [.expr e] := hl.append_right [semi]
  -- what is taken and the two tokens behind it, as they stand in the changed tokens
  have hrest : t.rest = (v ++ [i]) ++ k :: x := by simp [hv.rest, hx]
  have hsplit : c.tokens s.rest = c.tokens (w ++ [semi]) ++ c.tokens r := by
    rw [← c.tokens_append, hr]
    simp
  rw [hsplit, hrest] at ht
  obtain ⟨h, y, hhy, hvh, hky⟩ := Alike.append_left.1 ht.symm
  obtain ⟨k', x', rfl, hkk, -⟩ := Alike.cons_left.1 hky
  have hmarks' : ∀ t ∈ h, (t.isPunct "(" || t.isPunct ";") = false := by
    have := hvh.forall (p := fun t => !(t.isPunct "(" || t.isPunct ";")) (fun _ => rfl) fun t ht => by
      obtain ht | ht := List.mem_append.1 ht
      · simp [hmarks t ht]
      · simp [List.mem_singleton.1 ht, isPunct_of_isIdentifier hi]
    exact fun t ht => by simpa using this t ht
  simp only [Bool.or_eq_false_iff] at hmarks'
  have hout := (hc.fits_append hl (.nil [semi]) ho (by simpa using hf)).2.outside
  rw [c.tokens_append, hc.tokens_outside hout] at hhy
  have hsemi' : semi ∉ h := fun hmem => by simp [(hmarks' semi hmem).2] at hsemi
  obtain ⟨z, hz⟩ : ∃ z, c.tokens w ++ [semi] = h ++ k' :: z := by
    obtain ⟨z, rfl, -⟩ | ⟨z, hz, hzr⟩ := List.append_eq_append_iff.1 hhy
    · exact absurd (by simp) hsemi'
    · cases z with
      | nil =>
        rw [List.append_nil] at hz
        exact absurd (hz ▸ by simp) hsemi'
      | cons b z =>
        obtain ⟨rfl, -⟩ := List.cons.inj hzr
        exact ⟨z, hz⟩
  have hk' : localMarks.any k'.isPunct = true :=
    (Token.congr hkk (fun t => localMarks.any t.isPunct) fun _ => rfl) ▸ hk
  obtain ⟨r', hr'⟩ := hc.heads (w ++ [semi]) e h k' z hlaid ho hf
    (by rw [c.tokens_append, hc.tokens_outside hout, hz]) (fun t ht => (hmarks' t ht).1) hk'
  -- so the same words stand before the change, and are a local declaration there too
  obtain ⟨v₀, i₀, rfl, hv₀, hi₀⟩ := Alike.append_left.1 hvh
  obtain ⟨i₀, _, rfl, hii, hnil⟩ := Alike.cons_left.1 hi₀
  obtain rfl := Alike.nil_left.1 hnil
  obtain ⟨v', hv', hsteady⟩ := steady_readLocalType t _ m hrun
  obtain rfl := hv'.unique hv
  have hs : s.rest = v₀ ++ i₀ :: k' :: (r' ++ r) := by
    rw [hr, ← List.singleton_append, ← List.append_assoc, hr']
    simp
  obtain ⟨y, s', hy, -, hb⟩ := hsteady s v₀ _ hs hv₀ (by
    rw [hx]
    exact .inl (by simp [Alike, hii, hkk]))
  cases y with
  | none => simp at hb
  | some y => exact hno y s' hy

/-- What is made of an expression has that one part. -/
theorem parts_map_expr {α : Type} [Outline α] {f : Expr → α} (hf : ∀ e, parts (f e) = [.expr e])
    {p : Parser Expr} (s : Cursor) (a : α) (s' : Cursor) (h : (f <$> p) s = .ok (a, s')) :
    ∃ e, parts a = [.expr e] := by
  simp only [map_eq_ok, Prod.mk.injEq] at h
  obtain ⟨⟨e, m⟩, -, rfl, rfl⟩ := h
  exact ⟨e, hf e⟩

namespace Grammar.Follows

variable {c : Change} {bound b : Nat} {g g' : Grammar} (h : Follows c bound g g')
include h

theorem isLocal : c.Local := h.lawful.toLocal

theorem declarator (hb : b ≤ bound) {name name' : Ident} (hn : bare name = bare name') :
    Mirrors c b Agree Agree [] [] (g.declarator name) (g'.declarator name') := by
  refine .ifPunct h.isLocal (by decide) (M := Near) ?_ (.pure rfl rfl (congrArg (Declarator.mk · none) hn))
  refine .bind h.isLocal (h.expr _ (by omega)) fun e e' he => .pure rfl rfl ?_
  exact congrArg₂ Declarator.mk hn (congrArg some he)

theorem declarators (hb : b ≤ bound) {name name' : Ident} (hn : bare name = bare name') :
    Mirrors c b Agree Agree [] [] (g.declarators name) (g'.declarators name') := by
  refine .bind h.isLocal (h.declarator hb hn) fun d d' hd => .bind h.isLocal (M := Agree) ?_
    fun ds ds' hds => .pure (by simp) (by simp) (congrArg₂ List.cons hd hds)
  refine .many h.isLocal (.afterComma h.isLocal (M := Agree) ?_) h.forward.progresses_declarator
    h.forward'.progresses_declarator
  exact .past h.isLocal .expectIdent fun _ _ => h.declarator (by omega)

theorem localDeclarators (hb : b ≤ bound) :
    Mirrors c b Agree Agree [] [] g.localDeclarators g'.localDeclarators :=
  .past h.isLocal .expectIdent fun _ _ => h.declarators hb

/-- A local declaration, or an expression that stands there, up to the semicolon. -/
theorem localsOr {α : Type} [Bare α] [Outline α] (hb : b ≤ bound)
    {locals : TypeExpr → List Declarator → Span → α} {other other' : Parser α}
    (hparts : ∀ type ds span, parts (locals type ds span) = parts ds)
    (hlocals : ∀ type type' ds ds' span span', bare type = bare type' →
      bare (c.apply ds) = bare ds' → bare (c.apply (locals type ds span)) = bare (locals type' ds' span'))
    (hexpr : ∀ s a s', other s = .ok (a, s') → ∃ e, parts a = [.expr e])
    (hother : Mirrors c b Agree Near [] [] other other') :
    Mirrors c b Near Near [] [] (g.localsOr locals other) (g'.localsOr locals other') := by
  have hc := h.isLocal
  have hdecl (start start' : Nat) (type type' : TypeExpr) (ht : bare (c.apply type) = bare type') :
      Mirrors c b Near Agree [] [] (g.localsEnd locals start type) (g'.localsEnd locals start' type') :=
    .bind hc (h.localDeclarators hb) fun ds ds' hds => .bind hc .spanFrom fun span span' _ =>
      .expect hc (by decide) (.pure (by simp [hparts]; rfl) (by simp [hparts]; rfl) (hlocals _ _ _ _ _ _ ht hds))
  have hend : Mirrors c b Near Near [] [] (withSemicolon other) (withSemicolon other') :=
    .bind hc hother fun a a' ha => .expect hc (by decide) (.pure rfl rfl ha)
  have hread : Mirrors c b Agree Agree [] [] readLocalType readLocalType :=
    .steady hc steady_readLocalType
  refine .bind hc .offset fun start start' _ s x s' hs ho => ?_
  obtain ⟨⟨type?, m⟩, hm, hx⟩ := bind_eq_ok.1 hs
  cases type? with
  | some type =>
    refine Mirrors.tried hc hread.toNear (hdecl start start') (speculate_eq_some.1 hm) hx ho
      fun type t n ht => ?_
    change Except.bind _ _ = _
    rw [show localType? t = .ok (some type, n) from speculate_eq_some.2 ht]
    rfl
  | none =>
    obtain ⟨rfl, hno⟩ := speculate_eq_none.1 hm
    obtain ⟨w, ps, hps, hw⟩ := hend m x s' hx ho
    refine ⟨w, ps, hps, hw.took, hw.laid, hw.numbered, fun hfit hF => ?_⟩
    obtain ⟨hN, hrun⟩ := hw.mirror hfit hF
    refine ⟨hN, fun t ht hlt => ?_⟩
    obtain ⟨y, t', qs', hy, hrest⟩ := hrun t ht hlt
    refine ⟨y, t', qs', bind_eq_ok.2 ⟨(none, t), speculate_eq_none.2 ⟨rfl, ?_⟩, hy⟩, hrest⟩
    -- the words of what was read and the semicolon behind them
    obtain ⟨⟨a, n⟩, ha, hx⟩ := bind_eq_ok.1 hx
    obtain ⟨⟨_, n'⟩, hn, hx⟩ := bind_eq_ok.1 hx
    simp only [pure_eq_ok, Prod.mk.injEq] at hx
    obtain ⟨rfl, rfl⟩ := hx
    obtain ⟨semi, hsemi, hsw⟩ := took_punct hn
    obtain ⟨v, qs, hqs, hv⟩ := hother m x n ha ho
    obtain rfl : w = v ++ [semi] := hw.took.unique (hv.took.trans hsw)
    obtain rfl : qs = ps := hqs.symm.trans hps
    obtain ⟨e, he⟩ := hexpr m x n ha
    obtain rfl : qs = [.expr e] := hqs.symm.trans he
    exact not_local_after h.lawful (by rw [hw.took.rest, List.append_assoc]; rfl) hsemi hv.laid
      (hw.took.ordered_words ho) hfit hno ht.alike

/-! ### Statements -/

theorem stmt? (hb : b < bound) : Mirrors c b Near Near [] [] g.stmt? g'.stmt? := by
  refine .ifPunctNear h.isLocal (by decide) (by decide) (.pure rfl rfl rfl) ?_
  refine .bind h.isLocal (.atEnd fun _ _ => Near.isEmpty_eq) fun a a' haa => ?_
  obtain rfl : a = a' := haa
  exact .ite (fun _ => .fail) fun _ => (h.stmt b hb).map (fun _ => rfl) (fun _ => rfl) fun _ _ => congrArg some

theorem block (hb : b ≤ bound) : Mirrors c b Near Agree [] [] g.block g'.block := by
  have := h.pos
  exact .expect h.isLocal (by decide) (.many h.isLocal (h.stmt? (by omega)) h.forward.progresses_stmt?
    h.forward'.progresses_stmt?)

theorem valueBeforeSemicolon (hb : b ≤ bound) :
    Mirrors c b Agree Near [] [] g.valueBeforeSemicolon g'.valueBeforeSemicolon :=
  .ifAt h.isLocal (fun _ => rfl) (.near_isPunct (by decide)) (Mirrors.pure rfl rfl rfl).toNear
    ((h.expr b hb).map (fun _ => rfl) (fun _ => rfl) fun _ _ => congrArg some)

theorem ifRule (hb : b < bound) {start start' : Nat} :
    Mirrors c b Near Agree [] [] (g.ifRule start) (g'.ifRule start') := by
  refine .expect h.isLocal (by decide) <| .bind h.isLocal (h.expr _ (by omega)) fun e e' he => ?_
  refine .expect h.isLocal (by decide) <| .bind h.isLocal (h.stmt _ (by omega)) fun a a' ha => ?_
  refine .ifKeywordNear h.isLocal (by decide) (by decide) (M := Near) ?_ ?_
  · refine .bind h.isLocal (h.stmt _ (by omega)) fun d d' hd => .spanned h.isLocal (fun _ => rfl) (fun _ => rfl) ?_
    exact fun _ _ => congrFun (congr (congrArg₂ Stmt.ifElse he ha) hd) (Span.empty 0)
  · exact .spanned h.isLocal (fun _ => rfl) (fun _ => rfl) fun _ _ =>
      congrFun (congrArg₂ Stmt.ifThen he ha) (Span.empty 0)

theorem whileRule (hb : b < bound) {start start' : Nat} :
    Mirrors c b Near Agree [] [] (g.whileRule start) (g'.whileRule start') := by
  refine .expect h.isLocal (by decide) <| .bind h.isLocal (h.expr _ (by omega)) fun e e' he => ?_
  refine .expect h.isLocal (by decide) <| .bind h.isLocal (h.stmt _ (by omega)) fun a a' ha => ?_
  exact .spanned h.isLocal (fun _ => rfl) (fun _ => rfl) fun _ _ =>
    congrFun (congrArg₂ Stmt.whileLoop he ha) (Span.empty 0)

theorem forStart (hb : b ≤ bound) : Mirrors c b Near Near [] [] g.forStart g'.forStart := by
  refine .ifPunctNear h.isLocal (by decide) (by decide) (.pure rfl rfl rfl) ?_
  refine h.localsOr hb (fun _ _ _ => rfl) (fun _ _ _ _ _ _ ht hds => ?_) ?_ ?_
  · exact congrFun (congrArg₂ ForStart.locals ht hds) (Span.empty 0)
  · exact parts_map_expr fun _ => rfl
  · exact (h.expr b hb).map (fun _ => rfl) (fun _ => rfl) fun _ _ => congrArg ForStart.expression

theorem iterator? (hb : b ≤ bound) : Mirrors c b Agree Agree [] [] g.iterator? g'.iterator? := by
  refine .ifPunct h.isLocal (by decide) (M := Near) ?_ (.pure rfl rfl rfl)
  exact .ifAt h.isLocal (fun _ => rfl) (.near_isPunct (by decide)) (Mirrors.pure rfl rfl rfl).toNear
    ((h.expr _ (by omega)).map (fun _ => rfl) (fun _ => rfl) fun _ _ => congrArg some)

theorem iterators (hb : b ≤ bound) : Mirrors c b Agree Near [] [] g.iterators g'.iterators := by
  refine .ifAt h.isLocal (fun _ => rfl) (.near_isPunct (by decide)) (Mirrors.pure rfl rfl rfl).toNear ?_
  refine .bind h.isLocal (h.expr b hb) fun e e' he => .bind h.isLocal ?_ fun es es' hes =>
    .pure rfl rfl (congrArg₂ List.cons he hes)
  exact .many h.isLocal (h.iterator? hb) h.forward.progresses_iterator? h.forward'.progresses_iterator?

theorem forRule (hb : b < bound) {start start' : Nat} :
    Mirrors c b Near Agree [] [] (g.forRule start) (g'.forRule start') := by
  refine .expect h.isLocal (by decide) <| .bind h.isLocal (h.forStart (by omega)) fun f f' hf => ?_
  refine .bind h.isLocal (h.valueBeforeSemicolon (by omega)) fun v v' hv => ?_
  refine .expect h.isLocal (by decide) <| .bind h.isLocal (h.iterators (by omega)) fun es es' hes => ?_
  refine .expect h.isLocal (by decide) <| .bind h.isLocal (h.stmt _ (by omega)) fun a a' ha => ?_
  exact .spanned h.isLocal (fun _ => rfl) (fun _ => rfl) fun _ _ =>
    congrFun (congr (congr (congrArg₂ Stmt.forLoop hf hv) hes) ha) (Span.empty 0)

/-- A statement, given the rule for the expression that it may be. -/
theorem stmtRule (he : Mirrors c bound Agree Near [] [] g.exprRule g'.exprRule) :
    Mirrors c bound Near Near [] [] g.stmtRule g'.stmtRule := by
  have := h.pos
  refine .bind h.isLocal .offset fun start start' _ => ?_
  refine .ifAt h.isLocal (fun _ => rfl) (.near_isPunct (by decide)) ?_ ?_
  · refine Mirrors.toNear <| .bind h.isLocal (h.block (Nat.le_refl _)) fun a a' ha => ?_
    refine .spanned h.isLocal (fun _ => Stmt.partsAll_eq _) (fun _ => Stmt.partsAll_eq _) fun _ _ =>
      congrArg (Stmt.block · (Span.empty 0)) ?_
    rw [Stmt.mapPartsAll_eq, Stmt.bareAll_eq, Stmt.bareAll_eq]
    exact ha
  refine .ifPunctNear h.isLocal (by decide) (by decide)
    (.spanned h.isLocal (fun _ => rfl) (fun _ => rfl) fun _ _ => rfl) ?_
  refine .ifKeywordNear h.isLocal (by decide) (by decide) (M := Near) ?_ ?_
  · refine .bind h.isLocal (h.valueBeforeSemicolon (by omega)) fun v v' hv => ?_
    exact .expect h.isLocal (by decide) (.spanned h.isLocal (fun _ => rfl) (fun _ => rfl) fun _ _ =>
      congrArg (Stmt.ret · (Span.empty 0)) hv)
  refine .ifKeywordNear h.isLocal (by decide) (by decide) (h.ifRule (by omega)) ?_
  refine .ifKeywordNear h.isLocal (by decide) (by decide) (h.whileRule (by omega)) ?_
  refine .ifKeywordNear h.isLocal (by decide) (by decide) (h.forRule (by omega)) ?_
  refine h.localsOr (Nat.le_refl _) (fun _ _ _ => rfl) (fun _ _ _ _ _ _ ht hds => ?_) ?_ ?_
  · exact congrFun (congrArg₂ Stmt.locals ht hds) (Span.empty 0)
  · exact parts_map_expr fun _ => rfl
  · exact he.map (fun _ => rfl) (fun _ => rfl) fun _ _ => congrArg Stmt.expression

end Grammar.Follows

/-! ### All layers -/

/-- Every grammar of at least as many layers as there are tokens left follows the change. -/
theorem follows_layered {c : Change} (hc : c.Lawful) (k n : Nat) :
    Follows c (n + 1) (layered k) (layered n) := by
  refine ⟨hc, Nat.succ_pos n, goesForward_layered k, goesForward_layered n,
    fun b hb => mirrors_expr hc k hb, ?_⟩
  induction k generalizing n with
  | zero => exact fun b _ => .fail
  | succ k ih =>
    have rule (n : Nat) : Mirrors c (n + 1) Near Near [] [] (layered k).stmtRule (layered n).stmtRule := by
      refine Follows.stmtRule ⟨hc, Nat.succ_pos n, goesForward_layered k, goesForward_layered n,
        fun b hb => mirrors_expr hc k hb, ih n⟩ ?_
      exact @mirrors_expr c hc (k + 1) (n + 1) _ (Nat.le_succ _)
    intro b hb
    cases n with
    | zero =>
      obtain rfl : b = 0 := by omega
      exact ((rule 0).mono (Nat.zero_le _) (fun _ _ h => h) fun _ _ h => h).any_right _
    | succ n => exact (rule n).mono (by omega) (fun _ _ h => h) fun _ _ h => h

end CultureLint
