import CultureLint.Proofs.Document.Fits

/-! Everything is read where it stands: the code of a document fits between the places where its tokens
begin and end. -/

namespace CultureLint

open CultureLint.Parser

/-! ### Places -/

namespace Cursor

variable {base : Nat} {s s' : Cursor} {w : List Token}

/-- How far the text is read, from a place on. -/
def place (base : Nat) (s : Cursor) : Nat := max base s.previousEnd

/-- The tokens that are left stand behind what is read. -/
structure Behind (base : Nat) (s : Cursor) : Prop where
  ordered : Ordered s.rest
  le : ∀ t ∈ s.rest, s.place base ≤ t.start

namespace Behind

theorem stop_le_place (hs : s.Behind base) (h : Took s w s') {t : Token} (ht : t ∈ w) :
    t.span.stop ≤ s'.previousEnd := by
  obtain ⟨last, hlast⟩ : ∃ last, w.getLast? = some last :=
    Option.ne_none_iff_exists'.1 (by simpa using List.ne_nil_of_mem ht)
  obtain ⟨first, hfirst⟩ : ∃ first, w.head? = some first :=
    Option.ne_none_iff_exists'.1 (by simpa using List.ne_nil_of_mem ht)
  have ho : Ordered w := (h.rest ▸ hs.ordered).left
  have := (ho.bounds hfirst hlast ht).2
  rw [h.previousEnd, endOf, hlast]
  exact this

theorem place_le (hs : s.Behind base) (h : Took s w s') : s.place base ≤ s'.place base := by
  cases w with
  | nil =>
    have := h.previousEnd
    rw [endOf_nil] at this
    simp [place, this]
  | cons t w =>
    have ht : t ∈ s.rest := h.rest ▸ List.mem_append_left _ List.mem_cons_self
    have := hs.le t ht
    have := hs.ordered.nonempty t ht
    have := hs.stop_le_place h List.mem_cons_self
    exact Nat.le_trans (by omega) (Nat.le_max_right _ _)

theorem took (hs : s.Behind base) (h : Took s w s') : s'.Behind base := by
  refine ⟨(h.rest ▸ hs.ordered).right, fun u hu => ?_⟩
  have hmem : u ∈ s.rest := h.rest ▸ List.mem_append_right _ hu
  have hbase : base ≤ u.start := Nat.le_trans (Nat.le_max_left _ _) (hs.le u hmem)
  refine Nat.max_le.2 ⟨hbase, ?_⟩
  cases hw : w.getLast? with
  | none =>
    rw [h.previousEnd, endOf, hw]
    exact Nat.le_trans (Nat.le_max_right _ _) (hs.le u hmem)
  | some last =>
    rw [h.previousEnd, endOf, hw]
    exact (Ordered.append_iff.1 (h.rest ▸ hs.ordered)).2.2 last (List.mem_of_mem_getLast? hw) u hu

/-- Where the next token starts, all tokens are left. -/
theorem offset (hs : s.Behind base) : s.Behind s.offset := by
  refine ⟨hs.ordered, fun t ht => Nat.max_le.2 ⟨?_, ?_⟩⟩
  · obtain ⟨rest, previousEnd, size, nextId⟩ := s
    cases rest with
    | nil => simp at ht
    | cons first rest =>
      obtain ⟨last, hlast⟩ : ∃ last, (first :: rest).getLast? = some last :=
        Option.ne_none_iff_exists'.1 (by simp)
      exact (hs.ordered.bounds rfl hlast ht).1
  · exact Nat.le_trans (Nat.le_max_right _ _) (hs.le t ht)

theorem place_le_offset (hs : s.Behind base) {t : Token} (ht : s.first? = some t) :
    s.place base ≤ s.offset := by
  have := hs.le t (List.mem_of_mem_head? ht)
  simpa [Cursor.offset, ht] using this

end Behind

end Cursor

namespace Parser

variable {α β : Type} {base : Nat} {P P' : Nat → Nat → α → Prop} {Q : Nat → Nat → β → Prop}

/-- What is read stands between the place where the parser starts and the one where it ends. -/
def Fills (base : Nat) (P : Nat → Nat → α → Prop) (p : Parser α) : Prop :=
  ∀ s a s', s.Behind base → p s = .ok (a, s') →
    (∃ w, Took s w s') ∧ P (s.place base) (s'.place base) a

namespace Fills

variable {p : Parser α} {k : α → Parser β}

theorem pure {a : α} (h : ∀ lo, P lo lo a) : Fills base P (pure a : Parser α) := by
  intro s x s' _ hs
  simp only [pure_eq_ok, Prod.mk.injEq] at hs
  obtain ⟨rfl, rfl⟩ := hs
  exact ⟨⟨[], .refl _⟩, h _⟩

theorem fail (c : Complaint) : Fills base P (fail c : Parser α) := by
  intro s x s' _ hs
  simp at hs

theorem imp (h : Fills base P p) (hP : ∀ lo hi a, P lo hi a → P' lo hi a) : Fills base P' p :=
  fun s a s' hb hs => (h s a s' hb hs).imp_right (hP _ _ _)

/-- Nothing stands before the place that is counted from. -/
theorem ofBase (h : Fills base (fun lo hi a => base ≤ lo → P lo hi a) p) : Fills base P p :=
  fun s a s' hb hs => (h s a s' hb hs).imp_right fun hP => hP (Nat.le_max_left _ _)

/-- A parser of which only matters that it goes forward. -/
theorem inert (h : Forward p) : Fills base (fun lo hi _ => lo ≤ hi) p := by
  intro s a s' hb hs
  obtain ⟨w, hw, -⟩ := h s a s' hs
  exact ⟨⟨w, hw⟩, hb.place_le hw⟩

/-- What is read first stands before what is read next. -/
theorem bind (hp : Fills base P p)
    (hk : ∀ a, Fills base (fun mid hi b => ∀ lo, P lo mid a → Q lo hi b) (k a)) :
    Fills base Q (p >>= k) := by
  intro s b s' hb hs
  simp only [bind_eq_ok] at hs
  obtain ⟨⟨a, m⟩, ha, hs⟩ := hs
  obtain ⟨⟨w, hw⟩, hP⟩ := hp s a m hb ha
  obtain ⟨⟨v, hv⟩, hQ⟩ := hk a m b s' (hb.took hw) hs
  exact ⟨⟨w ++ v, hw.trans hv⟩, hQ _ hP⟩

theorem map {f : α → β} (hp : Fills base P p) (hf : ∀ lo hi a, P lo hi a → Q lo hi (f a)) :
    Fills base Q (f <$> p) := by
  rw [← bind_pure_comp]
  exact hp.bind fun a => .pure fun hi lo h => hf lo hi a h

theorem ite {c : Prop} [Decidable c] {q : Parser α} (hp : Fills base P p) (hq : Fills base P q) :
    Fills base P (if c then p else q) := by
  split
  · exact hp
  · exact hq

/-- A question to the cursor. -/
theorem ask {f : Cursor → α} (hk : ∀ a, Fills base Q (k a)) : Fills base Q (Parser.ask f >>= k) :=
  fun s b s' hb hs => hk (f s) s b s' hb hs

/-- Tokens in front. -/
theorem skip [Located β] (hp : Forward p) (hk : ∀ a, Fills base Fits (k a)) :
    Fills base Fits (p >>= k) :=
  (inert hp).bind fun a => (hk a).imp fun _ _ _ h _ hle => Located.widen h hle (Nat.le_refl _)

/-- Tokens in front of what begins at a place of its own. -/
theorem pass {R : Nat → β → Prop} (hp : Forward p) (hk : ∀ a, Fills base (fun _ => R) (k a)) :
    Fills base (fun _ => R) (p >>= k) :=
  (inert hp).bind fun a => (hk a).imp fun _ _ _ h _ _ => h

theorem spanFrom : Fills base (fun lo hi span => base = span.start ∧ lo = span.stop ∧ hi = span.stop)
    (spanFrom base) := by
  intro s a s' _ hs
  simp only [spanFrom_eq_ok, Prod.mk.injEq] at hs
  obtain ⟨rfl, rfl⟩ := hs
  exact ⟨⟨[], .refl _⟩, rfl, rfl, rfl⟩

/-- A result with a span that ends with the last token read. -/
theorem span {f : Span → α} (h : ∀ span, base = span.start → P span.stop span.stop (f span)) :
    Fills base P (Parser.spanFrom base >>= fun span => Pure.pure (f span)) := by
  refine spanFrom.bind fun span => .pure fun hi lo hspan => ?_
  obtain ⟨hbase, rfl, rfl⟩ := hspan
  exact h span hbase

/-- What is counted from its first token on. -/
theorem atOffset [Located β] {k : Nat → Parser β} (ha : Advances (offset >>= k))
    (hk : ∀ start, Fills start (fun _ hi b => Fits start hi b) (k start)) :
    Fills base Fits (offset >>= k) := by
  intro s b s' hb hs
  obtain ⟨w, hw, hne⟩ := ha s b s' hs
  obtain ⟨t, w, rfl⟩ := List.exists_cons_of_ne_nil hne
  simp only [bind_eq_ok, offset_eq_ok, exists_eq_left] at hs
  obtain ⟨-, hfits⟩ := hk s.offset s b s' hb.offset hs
  have hlo := hb.place_le_offset hw.first?
  have hstop := hb.stop_le_place hw List.mem_cons_self
  have hstart : s.offset = t.start := by simp [Cursor.offset, hw.first?]
  have := hb.ordered.nonempty t (hw.rest ▸ List.mem_append_left _ List.mem_cons_self)
  refine ⟨⟨_, hw⟩, Located.widen hfits hlo ?_⟩
  unfold Cursor.place
  omega

theorem expectIdent : Fills base Fits expectIdent := by
  intro s i s' hb hs
  obtain ⟨t, -, rfl, hw⟩ := took_ident hs
  have ht : t ∈ s.rest := hw.rest ▸ List.mem_append_left _ List.mem_cons_self
  exact ⟨⟨_, hw⟩, hb.le t ht, Nat.le_trans (hb.stop_le_place hw List.mem_cons_self) (Nat.le_max_right _ _)⟩

theorem many [Located α] {p : Parser (Option α)} (hp : Fills base Fits p) : Fills base Fits (many p) := by
  have upTo (bound : Nat) : Fills base Fits (manyUpTo p bound) := by
    induction bound with
    | zero => exact .pure fun _ => Nat.le_refl _
    | succ bound ih =>
      refine hp.bind fun a => ?_
      cases a with
      | none => exact .pure fun _ _ h => h
      | some a => exact ih.bind fun as => .pure fun hi mid has lo ha => ⟨mid, ha, has⟩
  exact fun s as s' => upTo (s.rest.length + 1) s as s'

theorem afterComma [Located α] (hp : Fills base Fits p) : Fills base Fits (afterComma p) :=
  .skip (forward_eat _) fun _ => .ite (hp.map fun _ _ _ h => h) (.pure fun _ => Nat.le_refl _)

end Fills

end Parser

namespace Grammar

/-- The rules that nest read expressions and statements where they stand. -/
structure Fills (g : Grammar) : Prop where
  forward : g.GoesForward
  expr : ∀ base, Parser.Fills base Fits g.expr
  exprRule : ∀ base, Parser.Fills base Fits g.exprRule
  stmt : ∀ base, Parser.Fills base Fits g.stmt

namespace Fills

variable {g : Grammar} (h : g.Fills) {base : Nat}
include h

/-! ### Statements -/

theorem declarator (name : Ident) :
    Parser.Fills base (fun mid hi d => ∀ lo, Fits lo mid name → Fits lo hi d) (g.declarator name) := by
  refine .bind (.inert (forward_eat _)) fun _ => .ite ?_ ?_
  · refine (h.expr base).bind fun value => .pure fun hi mid hvalue lo hle lo' hname => ?_
    exact ⟨mid, Located.widen hname (Nat.le_refl _) hle, hvalue⟩
  · exact .pure fun hi lo hle lo' hname => ⟨lo, hname, hle⟩

theorem declarators (name : Ident) :
    Parser.Fills base (fun mid hi ds => ∀ lo, Fits lo mid name → Fits lo hi ds) (g.declarators name) := by
  have next : Parser.Fills base Fits (expectIdent >>= fun name => g.declarator name) :=
    .bind .expectIdent fun name => h.declarator name
  refine (h.declarator name).bind fun d => next.afterComma.many.bind fun ds => ?_
  exact .pure fun hi mid hds lo hd lo' hname => ⟨mid, hd lo' hname, hds⟩

theorem localDeclarators : Parser.Fills base Fits g.localDeclarators :=
  .bind .expectIdent fun name => h.declarators name

theorem stmt? : Parser.Fills base Fits g.stmt? :=
  .skip (forward_eat _) fun _ => .ite (.pure fun _ => Nat.le_refl _) <| .ask fun _ =>
    .ite (.fail _) ((h.stmt base).map fun _ _ _ h => h)

theorem block : Parser.Fills base Fits g.block := .skip (forward_expectPunct _) fun _ => h.stmt?.many

theorem valueBeforeSemicolon : Parser.Fills base Fits g.valueBeforeSemicolon :=
  .skip (forward_at _) fun _ => .ite (.pure fun _ => Nat.le_refl _) ((h.expr base).map fun _ _ _ h => h)

theorem ifRule (start : Nat) : Parser.Fills start (fun _ hi s => Fits start hi s) (g.ifRule start) := by
  refine .ofBase <| .bind (.inert (forward_expectPunct _)) fun _ => (h.expr start).bind fun condition =>
    .bind (.inert (forward_expectPunct _)) fun _ => (h.stmt start).bind fun whenTrue =>
      .bind (.inert (forward_eat _)) fun _ => .ite ((h.stmt start).bind fun whenFalse => ?_) ?_
  · refine .span fun span hspan f hfalse e he d htrue c hc b hcondition a ha hstart => ?_
    have hcondition : Fits span.start c condition := Located.widen hcondition (by omega) (Nat.le_refl _)
    exact ⟨⟨Nat.le_of_eq hspan, Nat.le_refl _⟩, c, f, hcondition, Located.widen htrue hc he, hfalse⟩
  · refine .span fun span hspan e he d htrue c hc b hcondition a ha hstart => ?_
    have hcondition : Fits span.start c condition := Located.widen hcondition (by omega) (Nat.le_refl _)
    exact ⟨⟨Nat.le_of_eq hspan, Nat.le_refl _⟩, c, hcondition, Located.widen htrue hc he⟩

theorem whileRule (start : Nat) : Parser.Fills start (fun _ hi s => Fits start hi s) (g.whileRule start) := by
  refine .ofBase <| .bind (.inert (forward_expectPunct _)) fun _ => (h.expr start).bind fun condition =>
    .bind (.inert (forward_expectPunct _)) fun _ => (h.stmt start).bind fun body => ?_
  refine .span fun span hspan d hbody c hc b hcondition a ha hstart => ?_
  have hcondition : Fits span.start c condition := Located.widen hcondition (by omega) (Nat.le_refl _)
  exact ⟨⟨Nat.le_of_eq hspan, Nat.le_refl _⟩, c, hcondition, Located.widen hbody hc (Nat.le_refl _)⟩

/-- A local declaration, or something else before a semicolon. -/
theorem localsOr {α : Type} [Located α] (locals : TypeExpr → List Declarator → Span → α) {other : Parser α}
    (hlocals : ∀ {lo hi type ds} {span : Span}, span.FitsIn lo hi → Fits span.start span.stop ds →
      Fits lo hi (locals type ds span)) (hforward : Forward other)
    (hother : ∀ base, Parser.Fills base Fits other) : Parser.Fills base Fits (g.localsOr locals other) := by
  refine .atOffset (h.forward.localsOr hforward) fun start => .pass forward_localType? fun type => ?_
  cases type with
  | some type =>
    refine .ofBase <| h.localDeclarators.bind fun ds => Parser.Fills.spanFrom.bind fun span =>
      .bind (.inert (forward_expectPunct _)) fun _ => .pure fun hi b hb a hspan lo hds hstart => ?_
    obtain ⟨hbase, rfl, rfl⟩ := hspan
    exact hlocals ⟨Nat.le_of_eq hbase, hb⟩ (Located.widen hds (by omega) (Nat.le_refl _))
  | none =>
    refine .ofBase <| (hother start).bind fun a => .bind (.inert (forward_expectPunct _)) fun _ => ?_
    exact .pure fun hi mid hle lo ha hstart => Located.widen ha hstart hle

theorem forStart : Parser.Fills base Fits g.forStart := by
  refine .skip (forward_eat _) fun _ => .ite (.pure fun _ => Nat.le_refl _) ?_
  have first (base : Nat) : Parser.Fills base Fits (ForStart.expression <$> g.expr) :=
    (h.expr base).map fun _ _ _ h => h
  exact h.localsOr ForStart.locals (fun hspan hds => And.intro hspan hds) h.forward.expr.map first

theorem iterator? : Parser.Fills base Fits g.iterator? :=
  .skip (forward_eat _) fun _ => .ite
    (.skip (forward_at _) fun _ => .ite (.pure fun _ => Nat.le_refl _) ((h.expr base).map fun _ _ _ h => h))
    (.pure fun _ => Nat.le_refl _)

theorem iterators : Parser.Fills base Fits g.iterators := by
  refine .skip (forward_at _) fun _ => .ite (.pure fun _ => Nat.le_refl _) ?_
  exact (h.expr base).bind fun first => h.iterator?.many.bind fun rest =>
    .pure fun hi mid hrest lo hfirst => ⟨mid, hfirst, hrest⟩

theorem forRule (start : Nat) : Parser.Fills start (fun _ hi s => Fits start hi s) (g.forRule start) := by
  refine .ofBase <| .bind (.inert (forward_expectPunct _)) fun _ => h.forStart.bind fun first =>
    h.valueBeforeSemicolon.bind fun condition => .bind (.inert (forward_expectPunct _)) fun _ =>
      h.iterators.bind fun iterators => .bind (.inert (forward_expectPunct _)) fun _ =>
        (h.stmt start).bind fun body => ?_
  refine .span fun span hspan g hbody f hf e hiterators d hd c hcondition b hfirst a ha hstart => ?_
  have hfirst : Fits span.start c first := Located.widen hfirst (by omega) (Nat.le_refl _)
  have hiterators : Fits d g iterators := Located.widen hiterators hd hf
  exact ⟨⟨Nat.le_of_eq hspan, Nat.le_refl _⟩, c, d, g, hfirst, hcondition, hiterators, hbody⟩

theorem stmtRule : Parser.Fills base Fits g.stmtRule := by
  refine .atOffset h.forward.stmtRule fun start => .pass (forward_at _) fun _ => .ite ?_ ?_
  · refine .ofBase <| h.block.bind fun statements => .span fun span hspan lo hstatements hstart => ?_
    refine ⟨⟨Nat.le_of_eq hspan, Nat.le_refl _⟩, Stmt.allFitIn_iff.2 ?_⟩
    exact Located.widen hstatements (by omega) (Nat.le_refl _)
  refine .pass (forward_eat _) fun _ => .ite ?_ <| .pass (forward_eat _) fun _ => .ite ?_ <|
    .pass (forward_eat _) fun _ => .ite (h.ifRule start) <| .pass (forward_eat _) fun _ =>
      .ite (h.whileRule start) <| .pass (forward_eat _) fun _ => .ite (h.forRule start) ?_
  · exact .span fun span hspan => ⟨Nat.le_of_eq hspan, Nat.le_refl _⟩
  · refine .ofBase <| h.valueBeforeSemicolon.bind fun value => .bind (.inert (forward_expectPunct _)) fun _ => ?_
    refine .span fun span hspan b hb a hvalue hstart => ⟨⟨Nat.le_of_eq hspan, Nat.le_refl _⟩, ?_⟩
    exact Located.widen hvalue (by omega) hb
  · have value (base : Nat) : Parser.Fills base Fits (Stmt.expression <$> g.exprRule) :=
      (h.exprRule base).map fun _ _ _ h => h
    refine .ofBase (.imp ?_ fun _ _ _ hs hstart => Located.widen hs hstart (Nat.le_refl _))
    exact h.localsOr Stmt.locals (fun hspan hds => And.intro hspan hds) h.forward.exprRule.map value

/-! ### Declarations -/

theorem body : Parser.Fills base Fits g.body := by
  have braces : Parser.Fills base Fits (do
      let start ← offset
      let statements ← g.block
      return some (Body.block statements (← spanFrom start))) := by
    refine .atOffset ?_ fun start => .ofBase <| h.block.bind fun statements => .span fun span hspan lo hs hlo => ?_
    · exact .after (.ask _) fun _ => ((Advances.expectPunct _).bind fun _ => h.forward.stmt?.many).bind
        fun _ => forward_span _ _
    · exact ⟨⟨Nat.le_of_eq hspan, Nat.le_refl _⟩, Located.widen hs (by omega) (Nat.le_refl _)⟩
  refine .skip (forward_eat _) fun _ => .ite (.pure fun _ => Nat.le_refl _) <| .skip (forward_eat _) fun _ =>
    .ite ?_ braces
  exact (h.expr base).bind fun value => .bind (.inert (forward_expectPunct _)) fun _ =>
    .pure fun hi mid hle lo hvalue => Located.widen hvalue (Nat.le_refl _) hle

theorem accessor? : Parser.Fills base Fits g.accessor? := by
  refine .skip (forward_eat _) fun _ => .ite (.pure fun _ => Nat.le_refl _) <|
    .skip Steady.attributes.forward fun _ => .skip Steady.modifiers.forward fun _ => .ask fun kind => ?_
  cases kind with
  | none => exact .fail _
  | some kind => exact .skip forward_advance fun _ => h.body.bind fun body => .pure fun hi lo hbody => hbody

theorem accessors : Parser.Fills base Fits g.accessors :=
  .skip (forward_expectPunct _) fun _ => h.accessor?.many

theorem propertyValue? : Parser.Fills base Fits g.propertyValue? := by
  refine .skip (forward_eat _) fun _ => .ite ?_ (.pure fun _ => Nat.le_refl _)
  exact (h.expr base).bind fun value => .bind (.inert (forward_expectPunct _)) fun _ =>
    .pure fun hi mid hle lo hvalue => Located.widen hvalue (Nat.le_refl _) hle

theorem memberRest (start : Nat) (attributes : List Attribute) (modifiers : List String) (type : TypeExpr)
    (name : Ident) : Parser.Fills base (fun mid hi m => ∀ lo, Fits lo mid name → Fits lo hi m)
      (g.memberRest start attributes modifiers type name) := by
  refine .ask fun _ => .ite ?_ <| .bind (.inert (forward_eat _)) fun _ => .ite ?_ <| .ask fun _ => .ite ?_ ?_
  · refine .bind (.inert h.forward.parameters) fun _ => h.body.bind fun body => .ask fun _ => ?_
    refine .pure fun hi b hbody a hab lo hname => ?_
    exact Located.widen hbody (Nat.le_trans (Located.le hname) hab) (Nat.le_refl _)
  · refine (h.expr base).bind fun value => .bind (.inert (forward_expectPunct _)) fun _ => .ask fun _ => ?_
    refine .pure fun hi c hc b hvalue a hab lo hname => ?_
    exact ⟨b, c, Located.widen hname (Nat.le_refl _) hab, hvalue, hc⟩
  · refine h.accessors.bind fun items => h.propertyValue?.bind fun value => .ask fun _ => ?_
    refine .pure fun hi c hvalue b hitems a hab lo hname => ?_
    exact ⟨b, c, Located.widen hname (Nat.le_refl _) hab, hitems, hvalue⟩
  · refine (h.declarators name).bind fun ds => .bind (.inert (forward_expectPunct _)) fun _ => .ask fun _ => ?_
    refine .pure fun hi c hc b hds a hab lo hname => ?_
    exact Located.widen (hds lo (Located.widen hname (Nat.le_refl _) hab)) (Nat.le_refl _) hc

theorem memberDecl (typeName : String) : Parser.Fills base Fits (g.memberDecl typeName) := by
  refine .ask fun _ => .skip Steady.attributes.forward fun _ => .skip Steady.modifiers.forward fun _ =>
    .ask fun _ => .ite (.fail _) <| .ask fun _ => .ite ?_ ?_
  · have initializer : Forward initializer := (forward_eat _).bind fun _ => .ite
      (forward_advance.bind fun _ => forward_skipGroup _ _) (.pure _)
    exact .skip forward_expectIdent fun _ => .skip h.forward.parameters fun _ => .skip initializer fun _ =>
      h.body.bind fun body => .ask fun _ => .pure fun hi lo hbody => hbody
  · exact .skip takes_type.forward fun _ => .bind .expectIdent fun name => h.memberRest _ _ _ _ name

theorem member? (typeName : String) : Parser.Fills base Fits (g.member? typeName) :=
  .skip (forward_eat _) fun _ => .ite (.pure fun _ => Nat.le_refl _) <| .ask fun _ => .ite (.fail _) <|
    (h.memberDecl typeName).map fun _ _ _ h => h

theorem typeDecl : Parser.Fills base Fits g.typeDecl := by
  have form : Forward typeForm := (forward_eat _).bind fun _ => .ite (.pure _) <|
    (forward_eat _).bind fun _ => .ite (.pure _) <| (forward_eat _).bind fun _ => .ite (.pure _) (.fail _)
  refine .ask fun _ => .skip Steady.attributes.forward fun _ => .skip Steady.modifiers.forward fun _ =>
    .skip form fun _ => .skip forward_expectIdent fun name => .skip Steady.bases.forward fun _ =>
      .skip (forward_expectPunct _) fun _ => (h.member? name.name).many.bind fun members => ?_
  exact .bind (.inert (forward_eat _)) fun _ => .ask fun _ =>
    .pure fun hi mid hle lo hmembers => Located.widen hmembers (Nat.le_refl _) hle

omit h in
theorem namespaceDecl {members : Parser (List NamespaceMember)} (hm : Parser.Fills base Fits members) :
    Parser.Fills base Fits (namespaceDecl members) := by
  refine .ask fun _ => .skip forward_advance fun _ => .skip advances_qualifiedName.forward fun _ =>
    .skip forward_namespaceOpening fun fileScoped => .skip Steady.usings.forward fun _ => hm.bind fun members => ?_
  refine .bind (.inert (forward_namespaceEnd fileScoped)) fun _ => .ask fun _ => ?_
  refine .pure fun hi mid hle lo hmembers => ?_
  exact NamespaceMember.allFitIn_iff.2 (Located.widen hmembers (Nat.le_refl _) hle)

theorem namespaceMembers (depth : Nat) : Parser.Fills base Fits (g.namespaceMembers depth) := by
  induction depth with
  | zero => exact .fail _
  | succ depth ih =>
    refine Parser.Fills.many <| .ask fun _ => .ask fun _ => .ite (.pure fun _ => Nat.le_refl _) <| .ask fun _ =>
      .ite ((namespaceDecl ih).map fun _ _ _ h => h) ?_
    have declared : Parser.Fills base Fits (NamespaceMember.typeDecl <$> g.typeDecl) :=
      h.typeDecl.map fun _ _ _ h => h
    exact declared.map fun _ _ _ h => h

end Fills

end Grammar

/-! ### Documents -/

namespace Grammar

theorem fills_expr {g : Grammar} (h : Sound g) (base : Nat) : Parser.Fills base Fits g.expr := by
  intro s e s' hb hs
  obtain ⟨-, w, hgot⟩ := h.expr s e s' hb.ordered hs
  have ho : Ordered w := (hgot.took.rest ▸ hb.ordered).left
  obtain ⟨⟨first, hfirst, hstart⟩, last, hlast, hstop⟩ := hgot.spelled.node.ends hgot.spelled.ne_nil
  have hlo := hb.le first (hgot.took.rest ▸ List.mem_append_left _ hfirst)
  have hhi := hb.stop_le_place hgot.took hlast
  refine ⟨⟨w, hgot.took⟩, ⟨hstart ▸ hlo, hstop ▸ Nat.le_trans hhi (Nat.le_max_right _ _)⟩, fun d hd => ?_⟩
  obtain ⟨u, v, x, n, rfl, hv⟩ := hgot.spelled.inner hd
  exact hv.orderly ho.left.right

theorem fills_layered (n : Nat) : (layered n).Fills := by
  induction n with
  | zero => exact ⟨goesForward_layered 0, fills_expr (sound_layered 0), fills_expr (sound_layered 1),
      fun _ => .fail _⟩
  | succ n ih => exact ⟨goesForward_layered (n + 1), fills_expr (sound_layered (n + 1)),
      fills_expr (sound_layered (n + 2)), fun _ => ih.stmtRule⟩

end Grammar

theorem Parser.fits_compilationUnit {tokens : List Token} {size : Nat} {unit : CompilationUnit}
    (ho : Ordered tokens) (h : runOn compilationUnit tokens size = .ok unit) : ∃ hi, Fits 0 hi unit.members := by
  have fills (depth : Nat) : Fills 0 (fun lo hi unit => Located.Fits lo hi unit.members) (compilationUnit depth) := by
    refine .bind (.inert Steady.usings.forward) fun usings =>
      ((Grammar.fills_layered depth).namespaceMembers depth).bind fun members => .ask fun _ => .ite ?_ (.fail _)
    exact .ask fun _ => .pure fun hi mid hmembers lo hle => Located.widen hmembers hle (Nat.le_refl _)
  obtain ⟨s', hs⟩ := runOn_eq_ok.1 h
  obtain ⟨-, hfits⟩ := fills _ (Cursor.ofTokens tokens size) unit s' ⟨ho, fun t _ => Nat.zero_le _⟩ hs
  exact ⟨_, hfits⟩

/-- The code of a document stands in it from first to last. -/
theorem SourceTree.fits_ofText {text : String} {tree : SourceTree} (h : ofText text = .ok tree) :
    ∃ hi, Fits 0 hi tree.unit.members := by
  obtain ⟨lexed, hl, hu, -⟩ := ofText_eq_ok.1 h
  exact Parser.fits_compilationUnit (readFrom hl hu).2 hu

end CultureLint
