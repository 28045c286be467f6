import CultureLint.Proofs.Parser.Forward
import CultureLint.Proofs.Parser.Spelling

/-! What a constructor calls first. Behind the colon the parser takes one token, whichever it is, and then
passes over a group in parentheses without a look at whether one begins there. `parenDepth` is the counter of
that pass. It stays above zero inside a group that begins with its parenthesis; where a closing parenthesis
comes first, it falls below zero, and the pass goes on to where the counter is back at zero. -/

namespace CultureLint

open CultureLint.Parser

/-! ### The counter of a group -/

/-- How many more parentheses some tokens open than they close. -/
def parenDepth (w : List Token) : Int := w.countP (·.isPunct "(") - w.countP (·.isPunct ")")

section

variable {t : Token} {w v : List Token}

@[simp] theorem parenDepth_nil : parenDepth [] = 0 := rfl

theorem parenDepth_append (w v : List Token) : parenDepth (w ++ v) = parenDepth w + parenDepth v := by
  simp only [parenDepth, List.countP_append]
  omega

theorem not_opens_of_closes (ht : t.isPunct ")" = true) : t.isPunct "(" = false := isPunct_unique ht

theorem parenDepth_cons_opening (ht : t.isPunct "(" = true) (w : List Token) :
    parenDepth (t :: w) = parenDepth w + 1 := by
  have hc : t.isPunct ")" = false := isPunct_unique ht
  simp only [parenDepth, List.countP_cons, ht, hc, if_true, Bool.false_eq_true, if_false]
  omega

theorem parenDepth_cons_closing (ht : t.isPunct ")" = true) (w : List Token) :
    parenDepth (t :: w) = parenDepth w - 1 := by
  simp only [parenDepth, List.countP_cons, ht, not_opens_of_closes ht, if_true, Bool.false_eq_true, if_false]
  omega

theorem parenDepth_cons_plain (ho : ¬ t.isPunct "(" = true) (hc : ¬ t.isPunct ")" = true) (w : List Token) :
    parenDepth (t :: w) = parenDepth w := by
  simp [parenDepth, ho, hc]

end

/-- No token closes the last group that is open, with some groups open before them. -/
def StaysOpen (depth : Int) (w : List Token) : Prop :=
  ∀ v c u, w = v ++ c :: u → c.isPunct ")" = true → depth + parenDepth v ≠ 1

namespace StaysOpen

variable {depth : Int} {t : Token} {w v : List Token}

theorem nil (depth : Int) : StaysOpen depth [] := fun v c u h => by simp at h

theorem of_append (h : StaysOpen depth (w ++ v)) : StaysOpen depth w := fun a c u ha =>
  h a c (u ++ v) (by simp [ha])

/-- The first of some tokens, and the others with what it opens or closes. -/
theorem cons_iff {n : Int} (hn : ∀ w, depth + parenDepth (t :: w) = n + parenDepth w) :
    StaysOpen depth (t :: w) ↔ (t.isPunct ")" = true → depth ≠ 1) ∧ StaysOpen n w := by
  refine ⟨fun h => ⟨fun ht => by simpa using h [] t w rfl ht, fun v c u hw hc => ?_⟩, fun ⟨ht, h⟩ => ?_⟩
  · rw [← hn]
    exact h (t :: v) c u (by simp [hw]) hc
  · rintro (_ | ⟨a, v⟩) c u hw hc
    · obtain ⟨rfl, rfl⟩ := List.cons.inj hw
      simpa using ht hc
    · obtain ⟨rfl, rfl⟩ := List.cons.inj hw
      rw [hn]
      exact h v c u rfl hc

theorem cons_opening (ht : t.isPunct "(" = true) :
    StaysOpen depth (t :: w) ↔ StaysOpen (depth + 1) w := by
  have hc : t.isPunct ")" = false := isPunct_unique ht
  rw [cons_iff (n := depth + 1) fun w => by rw [parenDepth_cons_opening ht]; omega]
  simp [hc]

theorem cons_closing (ht : t.isPunct ")" = true) :
    StaysOpen depth (t :: w) ↔ depth ≠ 1 ∧ StaysOpen (depth - 1) w := by
  rw [cons_iff (n := depth - 1) fun w => by rw [parenDepth_cons_closing ht]; omega]
  simp [ht]

theorem cons_plain (ho : ¬ t.isPunct "(" = true) (hc : ¬ t.isPunct ")" = true) :
    StaysOpen depth (t :: w) ↔ StaysOpen depth w := by
  rw [cons_iff (n := depth) fun w => by rw [parenDepth_cons_plain ho hc]]
  simp [hc]

end StaysOpen

/-- Behind tokens that do not close the group, `parenDepth` is what the counter has grown by. -/
theorem closeGroup?_append {depth : Int} {w : List Token} (h : StaysOpen depth w) (r : List Token) :
    closeGroup? "(" ")" depth (w ++ r) = closeGroup? "(" ")" (depth + parenDepth w) r := by
  induction w generalizing depth with
  | nil => simp
  | cons t w ih =>
    rw [List.cons_append, closeGroup?]
    split
    · rename_i ho
      rw [ih ((StaysOpen.cons_opening ho).1 h), parenDepth_cons_opening ho]
      congr 1
      omega
    split
    · rename_i hc
      obtain ⟨hd, hw⟩ := (StaysOpen.cons_closing hc).1 h
      rw [if_neg hd, ih hw, parenDepth_cons_closing hc]
      congr 1
      omega
    · rename_i ho hc
      rw [ih ((StaysOpen.cons_plain ho hc).1 h), parenDepth_cons_plain ho hc]

/-- A group ends at the first closing parenthesis in front of which one is open. -/
theorem closeGroup?_eq_some {depth : Int} {l r : List Token} {c : Token} :
    closeGroup? "(" ")" depth l = some (c, r) ↔ ∃ w, l = w ++ c :: r ∧
      StaysOpen depth w ∧ depth + parenDepth w = 1 ∧ c.isPunct ")" = true := by
  constructor
  · intro h
    induction l generalizing depth with
    | nil => simp [closeGroup?] at h
    | cons t l ih =>
      rw [closeGroup?] at h
      split at h
      · rename_i ho
        obtain ⟨w, rfl, hw, hd, hc⟩ := ih h
        refine ⟨t :: w, rfl, (StaysOpen.cons_opening ho).2 hw, ?_, hc⟩
        rw [parenDepth_cons_opening ho]
        omega
      split at h
      · rename_i ht
        split at h
        · obtain ⟨rfl, rfl⟩ := by simpa using h
          exact ⟨[], rfl, .nil _, by simpa, ht⟩
        · rename_i hne
          obtain ⟨w, rfl, hw, hd, hc⟩ := ih h
          refine ⟨t :: w, rfl, (StaysOpen.cons_closing ht).2 ⟨hne, hw⟩, ?_, hc⟩
          rw [parenDepth_cons_closing ht]
          omega
      · rename_i ho ht
        obtain ⟨w, rfl, hw, hd, hc⟩ := ih h
        refine ⟨t :: w, rfl, (StaysOpen.cons_plain ho ht).2 hw, ?_, hc⟩
        rwa [parenDepth_cons_plain ho ht]
  · rintro ⟨w, rfl, hw, hd, hc⟩
    rw [closeGroup?_append hw, closeGroup?, if_neg (by simp [not_opens_of_closes hc]), if_pos hc, if_pos hd]

/-- A pass over a group takes some tokens and the closing parenthesis behind them. -/
structure PassedOver (group : List Token) (c : Token) : Prop where
  closing : c.isPunct ")" = true
  staysOpen : StaysOpen 0 group
  depth : parenDepth group = 1

theorem skipGroup_parens {s s' : Cursor} {u : Unit} : skipGroup "(" ")" s = .ok (u, s') ↔
    ∃ group c r, s.rest = group ++ c :: r ∧ PassedOver group c ∧
      s' = { s with rest := r, previousEnd := c.span.stop } := by
  rw [skipGroup_eq_ok]
  constructor
  · rintro ⟨c, r, hclose, rfl⟩
    obtain ⟨group, hgroup, hopen, hd, hc⟩ := closeGroup?_eq_some.1 hclose
    exact ⟨group, c, r, hgroup, ⟨hc, hopen, by simpa using hd⟩, rfl⟩
  · rintro ⟨group, c, r, hgroup, h, rfl⟩
    exact ⟨c, r, closeGroup?_eq_some.2 ⟨group, hgroup, h.staysOpen, by simp [h.depth], h.closing⟩, rfl⟩

theorem took_skipGroup {s s' : Cursor} {u : Unit} (h : skipGroup "(" ")" s = .ok (u, s')) :
    ∃ group c, Took s (group ++ [c]) s' ∧ PassedOver group c := by
  obtain ⟨group, c, r, hs, hpass, rfl⟩ := skipGroup_parens.1 h
  exact ⟨group, c, ⟨by simp [hs], (endOf_concat ..).symm, Nat.le_refl _⟩, hpass⟩

/-! ### Groups that begin with their parenthesis -/

/-- With some parentheses open, none closes that was not open as long as the counter stays above zero. -/
theorem openAfter_eq_some {depth final : Nat} {w : List Token} :
    openAfter depth w = some final ↔ StaysOpen (depth + 1) w ∧ depth + parenDepth w = final := by
  induction w generalizing depth with
  | nil =>
    simp only [openAfter, StaysOpen.nil, parenDepth_nil, Option.some.injEq, true_and]
    omega
  | cons t w ih =>
    unfold openAfter
    split
    · rename_i ho
      rw [ih, StaysOpen.cons_opening ho, parenDepth_cons_opening ho, Int.natCast_succ]
      refine and_congr_right fun _ => ?_
      omega
    split
    · rename_i hc
      rw [StaysOpen.cons_closing hc, parenDepth_cons_closing hc]
      cases depth with
      | zero => simp
      | succ depth =>
        rw [ih, Int.natCast_succ, Int.add_sub_cancel]
        constructor
        · rintro ⟨hw, hd⟩
          exact ⟨⟨by omega, hw⟩, by omega⟩
        · rintro ⟨⟨-, hw⟩, hd⟩
          exact ⟨hw, by omega⟩
    · rename_i ho hc
      rw [ih, StaysOpen.cons_plain ho hc, parenDepth_cons_plain ho hc]

/-- Once a parenthesis is open, the counter stays above zero. -/
theorem StaysOpen.pos {depth : Int} {w : List Token} (h : StaysOpen depth w) (hd : 1 ≤ depth) :
    1 ≤ depth + parenDepth w := by
  induction w generalizing depth with
  | nil => simpa
  | cons t w ih =>
    by_cases ho : t.isPunct "(" = true
    · have := ih ((cons_opening ho).1 h) (by omega)
      rw [parenDepth_cons_opening ho]
      omega
    by_cases hc : t.isPunct ")" = true
    · obtain ⟨hne, hw⟩ := (cons_closing hc).1 h
      have := ih hw (by omega)
      rw [parenDepth_cons_closing hc]
      omega
    · rw [parenDepth_cons_plain ho hc]
      exact ih ((cons_plain ho hc).1 h) hd

theorem StaysOpen.deeper {w : List Token} (h : StaysOpen 1 w) (depth : Nat) : StaysOpen (depth + 1) w := by
  rintro v c u rfl hc
  have hpos : 1 ≤ 1 + parenDepth v := h.of_append.pos (by omega)
  have hne : 1 + parenDepth v ≠ 1 := h v c u rfl hc
  omega

theorem balanced_iff {w : List Token} : Balanced w ↔ StaysOpen 1 w ∧ parenDepth w = 0 :=
  ⟨fun h => by simpa using openAfter_eq_some.1 (h 0),
    fun ⟨h, hd⟩ depth => openAfter_eq_some.2 ⟨h.deeper depth, by omega⟩⟩

/-- A group that begins with its parenthesis is passed over exactly. -/
theorem passedOver_cons {o c : Token} {w : List Token} (ho : o.isPunct "(" = true) :
    PassedOver (o :: w) c ↔ Balanced w ∧ c.isPunct ")" = true := by
  rw [balanced_iff]
  refine ⟨fun ⟨hc, hopen, hd⟩ => ?_, fun ⟨⟨hopen, hd⟩, hc⟩ => ⟨hc, (StaysOpen.cons_opening ho).2 hopen, ?_⟩⟩
  · rw [parenDepth_cons_opening ho] at hd
    exact ⟨⟨(StaysOpen.cons_opening ho).1 hopen, by omega⟩, hc⟩
  · rw [parenDepth_cons_opening ho, hd, Int.zero_add]

/-! ### Where the counter falls below zero -/

/-- On its way through the tokens, the counter of a group falls below zero. -/
def FallsBelowZero (l : List Token) : Prop := ∃ w, w <+: l ∧ StaysOpen 0 w ∧ parenDepth w < 0

/-- The first parenthesis among the tokens is a closing one. -/
def ClosesFirst (l : List Token) : Prop :=
  ∃ w c u, l = w ++ c :: u ∧ c.isPunct ")" = true ∧ ∀ t ∈ w, t.isPunct "(" = false ∧ t.isPunct ")" = false

theorem parenDepth_of_forall {w : List Token}
    (h : ∀ t ∈ w, t.isPunct "(" = false ∧ t.isPunct ")" = false) : parenDepth w = 0 :=
  (balanced_iff.1 (.of_forall h)).2

theorem fallsBelowZero_iff {l : List Token} : FallsBelowZero l ↔ ClosesFirst l := by
  constructor
  · intro h
    induction l with
    | nil =>
      obtain ⟨w, hw, -, hd⟩ := h
      obtain rfl := List.prefix_nil.1 hw
      simp at hd
    | cons t l ih =>
      obtain ⟨w, hw, hopen, hd⟩ := h
      cases w with
      | nil => simp at hd
      | cons a w =>
      obtain ⟨rfl, hwl⟩ := List.cons_prefix_cons.1 hw
      by_cases ho : a.isPunct "(" = true
      · -- from here on the counter stays above zero
        have := ((StaysOpen.cons_opening ho).1 hopen).pos (by omega)
        rw [parenDepth_cons_opening ho] at hd
        omega
      by_cases hc : a.isPunct ")" = true
      · exact ⟨[], a, l, rfl, hc, by simp⟩
      · rw [StaysOpen.cons_plain ho hc] at hopen
        rw [parenDepth_cons_plain ho hc] at hd
        obtain ⟨v, c, u, rfl, hcu, hv⟩ := ih ⟨w, hwl, hopen, hd⟩
        exact ⟨a :: v, c, u, rfl, hcu, List.forall_mem_cons.2 ⟨by simp [ho, hc], hv⟩⟩
  · rintro ⟨w, c, u, rfl, hc, hw⟩
    refine ⟨w ++ [c], ⟨u, by simp⟩, fun v d r hv hd => ?_, ?_⟩
    · have hfront : v <+: w := (List.prefix_concat_iff.1 ⟨d :: r, hv.symm⟩).resolve_left fun h => by simp [h] at hv
      rw [parenDepth_of_forall fun t ht => hw t (hfront.subset ht)]
      omega
    · rw [parenDepth_append, parenDepth_of_forall hw, parenDepth_cons_closing hc]
      simp

theorem not_fallsBelowZero {o : Token} (ho : o.isPunct "(" = true) (l : List Token) :
    ¬ FallsBelowZero (o :: l) := by
  rw [fallsBelowZero_iff]
  rintro ⟨w, c, u, hl, hc, hw⟩
  cases w with
  | nil =>
    obtain ⟨rfl, -⟩ := List.cons.inj hl
    simp [not_opens_of_closes hc] at ho
  | cons a w =>
    obtain ⟨rfl, -⟩ := List.cons.inj hl
    simp [(hw o List.mem_cons_self).1] at ho

/-- The arguments of an attribute are a group in parentheses, which is passed over exactly. -/
theorem oneAttribute_group {s s' : Cursor} {a : Attribute} (h : oneAttribute s = .ok (a, s')) :
    ∃ m, qualifiedName s = .ok (a.name, m) ∧ (m.first?.any (·.isPunct "(") = false ∧ s' = m ∨
      ∃ o w c, Took m (o :: (w ++ [c])) s' ∧ o.isPunct "(" = true ∧ Balanced w ∧ c.isPunct ")" = true ∧
        ¬ FallsBelowZero (o :: (w ++ [c]))) := by
  rw [oneAttribute, offset_bind] at h
  obtain ⟨⟨name, m⟩, hname, h⟩ := bind_eq_ok.1 h
  obtain ⟨o, l, hm, ho, h⟩ | ⟨hno, h⟩ := ifAtPunct_eq_ok.1 h
  · obtain ⟨⟨⟨⟩, n⟩, hskip, h⟩ := bind_eq_ok.1 h
    obtain ⟨rfl, rfl⟩ := Prod.mk.inj (pure_eq_ok.1 h)
    obtain ⟨group, c, htook, hpass⟩ := took_skipGroup hskip
    cases group with
    | nil => simpa using hpass.depth
    | cons o' w =>
      obtain ⟨rfl, -⟩ := List.cons.inj (hm.symm.trans htook.rest)
      obtain ⟨hw, hc⟩ := (passedOver_cons ho).1 hpass
      exact ⟨m, hname, .inr ⟨o, w, c, htook, ho, hw, hc, not_fallsBelowZero ho _⟩⟩
  · obtain ⟨rfl, rfl⟩ := Prod.mk.inj (pure_eq_ok.1 h)
    exact ⟨s', hname, .inl ⟨hno, rfl⟩⟩

/-! ### Constructors -/

/-- An initializer as it is meant: `base` or `this`, and right behind it arguments in parentheses. -/
def IsInitializer (w : List Token) : Prop :=
  ∃ word o inner c, w = word :: o :: (inner ++ [c]) ∧ (word.isKeyword "base" = true ∨ word.isKeyword "this" = true) ∧
    o.isPunct "(" = true ∧ Balanced inner ∧ c.isPunct ")" = true

/-- What the parser takes is an initializer as soon as the first two of its tokens are those of one. -/
theorem PassedOver.isInitializer_iff {word c : Token} {group : List Token} (h : PassedOver group c) :
    IsInitializer (word :: (group ++ [c])) ↔
      (word.isKeyword "base" = true ∨ word.isKeyword "this" = true) ∧ group.head?.any (·.isPunct "(") = true := by
  constructor
  · rintro ⟨word', o, inner, d, hw, hword, ho, -, -⟩
    obtain ⟨rfl, hgroup⟩ := List.cons.inj hw
    have hgroup : group = o :: inner :=
      (List.append_inj' (show group ++ [c] = (o :: inner) ++ [d] from hgroup) rfl).1
    exact ⟨hword, by simpa [hgroup] using ho⟩
  · rintro ⟨hword, ho⟩
    cases group with
    | nil => simp at ho
    | cons o inner =>
      obtain ⟨hinner, hc⟩ := (passedOver_cons ho).1 h
      exact ⟨word, o, inner, c, rfl, hword, ho, hinner, hc⟩

namespace Grammar

/-- Behind the colon one token is taken, and then a group. -/
theorem took_initializer {s s' : Cursor} {u : Unit} (h : initializer s = .ok (u, s')) :
    s.first?.any (·.isPunct ":") = false ∧ s' = s ∨
      ∃ colon word group c, Took s (colon :: word :: (group ++ [c])) s' ∧ colon.isPunct ":" = true ∧
        PassedOver group c := by
  obtain ⟨colon, l, hs, hcolon, h⟩ | ⟨hno, h⟩ := ifEatPunct_eq_ok.1 h
  · rw [advance_bind] at h
    obtain ⟨group, c, htook, hpass⟩ := took_skipGroup h
    cases l with
    | nil => simpa [hs] using htook.rest
    | cons word l =>
      have hword : s.advance.rest = word :: l := by simp [hs]
      exact .inr ⟨colon, word, group, c, ((Took.advance hs).trans (.advance hword)).trans htook, hcolon, hpass⟩
  · exact .inl ⟨hno, (Prod.mk.inj (pure_eq_ok.1 h)).2⟩

variable {g : Grammar} {typeName : String} {s s' : Cursor} {m : MethodDecl}

/-- Behind a type and a name no constructor is read. -/
theorem returns_of_memberRest {start : Nat} {as : List Attribute} {ms : List String} {type : TypeExpr}
    {name : Ident} (h : g.memberRest start as ms type name s = .ok (.method m, s')) : m.returns = some type := by
  rw [memberRest] at h
  obtain ⟨-, -, -, -, h⟩ | ⟨-, h⟩ := ifAtPunct_eq_ok.1 h
  · simp only [bind_eq_ok, spanFrom_eq_ok, pure_eq_ok, exists_eq_left, Prod.mk.injEq,
      MemberDecl.method.injEq] at h
    obtain ⟨-, -, -, -, rfl, -⟩ := h
    rfl
  obtain ⟨-, -, -, -, h⟩ | ⟨-, h⟩ := ifEatPunct_eq_ok.1 h
  · simp at h
  obtain ⟨-, -, -, -, h⟩ | ⟨-, h⟩ := ifAtPunct_eq_ok.1 h
  · simp at h
  · simp at h

/-- What is read of a constructor up to its parameters. -/
def constructorFront (g : Grammar) : Parser (List Parameter) := do
  let _ ← attributes
  let _ ← modifiers
  let _ ← expectIdent
  g.parameters

/-- A constructor is read as what stands up to its parameters, its initializer and its body. -/
theorem memberDecl_constructor (h : g.memberDecl typeName s = .ok (.method m, s')) (hm : m.returns = none) :
    ∃ s₁ s₂, g.constructorFront s = .ok (m.parameters, s₁) ∧ initializer s₁ = .ok ((), s₂) ∧
      g.body s₂ = .ok (m.body, s') := by
  rw [memberDecl, offset_bind] at h
  obtain ⟨⟨as, sa⟩, has, h⟩ := bind_eq_ok.1 h
  obtain ⟨⟨ms, sm⟩, hms, h⟩ := bind_eq_ok.1 h
  rw [atKeywords, at?, ask_bind] at h
  split at h
  · simp at h
  rw [at2?, ask_bind] at h
  split at h
  · obtain ⟨⟨name, sn⟩, hname, h⟩ := bind_eq_ok.1 h
    obtain ⟨⟨ps, s₁⟩, hps, h⟩ := bind_eq_ok.1 h
    obtain ⟨⟨⟨⟩, s₂⟩, hinit, h⟩ := bind_eq_ok.1 h
    obtain ⟨⟨b, s₃⟩, hb, h⟩ := bind_eq_ok.1 h
    rw [spanFrom_bind] at h
    obtain ⟨hdecl, rfl⟩ := Prod.mk.inj (pure_eq_ok.1 h)
    cases hdecl
    have hfront : g.constructorFront s = .ok (ps, s₁) :=
      bind_eq_ok.2 ⟨_, has, bind_eq_ok.2 ⟨_, hms, bind_eq_ok.2 ⟨_, hname, hps⟩⟩⟩
    exact ⟨s₁, s₂, hfront, hinit, hb⟩
  · obtain ⟨⟨type, st⟩, -, h⟩ := bind_eq_ok.1 h
    obtain ⟨⟨name, sn⟩, -, h⟩ := bind_eq_ok.1 h
    simp [returns_of_memberRest h] at hm

/-- What stands between the parameters of a constructor and its body: nothing, or a colon, any one token, and a
group that ends where its parentheses have closed as often as they opened. It is an initializer exactly if its
first two tokens look like one, and the counter falls below zero exactly if a closing parenthesis comes first. -/
theorem memberDecl_initializer (h : g.memberDecl typeName s = .ok (.method m, s')) (hm : m.returns = none) :
    ∃ s₁ s₂, g.constructorFront s = .ok (m.parameters, s₁) ∧ g.body s₂ = .ok (m.body, s') ∧
      (s₁.first?.any (·.isPunct ":") = false ∧ s₂ = s₁ ∨
        ∃ colon word group c, Took s₁ (colon :: word :: (group ++ [c])) s₂ ∧ colon.isPunct ":" = true ∧
          PassedOver group c ∧
          (IsInitializer (word :: (group ++ [c])) ↔
            (word.isKeyword "base" = true ∨ word.isKeyword "this" = true) ∧
              group.head?.any (·.isPunct "(") = true) ∧
          (FallsBelowZero (group ++ [c]) ↔ ClosesFirst (group ++ [c]))) := by
  obtain ⟨s₁, s₂, hfront, hinit, hb⟩ := memberDecl_constructor h hm
  refine ⟨s₁, s₂, hfront, hb, (took_initializer hinit).imp_right ?_⟩
  rintro ⟨colon, word, group, c, htook, hcolon, hpass⟩
  exact ⟨colon, word, group, c, htook, hcolon, hpass, hpass.isInitializer_iff, fallsBelowZero_iff⟩

/-- The tokens of a constructor that calls the one of its base type. -/
def callsBase : List Token := (Lexed.ofText "C():base(1,(2))\x7b\x7d").toOption.elim [] Lexed.tokens

theorem memberDecl_initializer_base : ∃ (m : MethodDecl) (s' s₁ s₂ : Cursor) (colon word : Token)
    (group : List Token) (c : Token), (layered 20).memberDecl "C" (.ofTokens callsBase 17) = .ok (.method m, s') ∧
    m.returns = none ∧ (layered 20).constructorFront (.ofTokens callsBase 17) = .ok (m.parameters, s₁) ∧
    (layered 20).body s₂ = .ok (m.body, s') ∧ Took s₁ (colon :: word :: (group ++ [c])) s₂ ∧
    colon.isPunct ":" = true ∧ PassedOver group c ∧ IsInitializer (word :: (group ++ [c])) ∧
    ¬ FallsBelowZero (group ++ [c]) := by
  have found : ((layered 20).memberDecl "C" (.ofTokens callsBase 17)).toOption.any (fun r => match r.1 with
    | .method m => m.returns.isNone
    | _ => false) = true := by decide +kernel
  -- behind the parameters stand a colon, a keyword and a parenthesis
  have front : ((layered 20).constructorFront (.ofTokens callsBase 17)).toOption.any (fun r =>
    r.2.rest[0]?.any (·.isPunct ":") && r.2.rest[1]?.any (·.isKeyword "base") &&
      r.2.rest[2]?.any (·.isPunct "(")) = true := by decide +kernel
  cases h : (layered 20).memberDecl "C" (.ofTokens callsBase 17) with
  | error e => simp [h, Except.toOption] at found
  | ok r =>
    obtain ⟨decl, s'⟩ := r
    cases decl with
    | field | property => simp [h, Except.toOption] at found
    | method m =>
      have hm : m.returns = none := by simpa [h, Except.toOption] using found
      obtain ⟨s₁, s₂, hfront, hb, hinit⟩ := memberDecl_initializer h hm
      rw [hfront] at front
      obtain ⟨colon', word', o, rest, hrest, hcolon', hword', ho⟩ : ∃ colon word o rest,
          s₁.rest = colon :: word :: o :: rest ∧ colon.isPunct ":" = true ∧ word.isKeyword "base" = true ∧
            o.isPunct "(" = true := by
        rcases hrest : s₁.rest with _ | ⟨colon, _ | ⟨word, _ | ⟨o, rest⟩⟩⟩
        case cons.cons.cons => exact ⟨colon, word, o, rest, rfl, by simpa [Except.toOption, hrest, and_assoc] using front⟩
        all_goals simp [Except.toOption, hrest] at front
      obtain ⟨hno, -⟩ | ⟨colon, word, group, c, htook, hcolon, hpass, hmeant, -⟩ := hinit
      · simp [Cursor.first?, hrest, hcolon'] at hno
      · have hsame := hrest.symm.trans htook.rest
        cases group with
        | nil => simpa using hpass.depth
        | cons o' group =>
          obtain ⟨rfl, rfl, rfl, -⟩ : colon' = colon ∧ word' = word ∧ o = o' ∧ _ := by simpa using hsame
          exact ⟨m, s', s₁, s₂, colon', word', o :: group, c, rfl, hm, hfront, hb, htook, hcolon, hpass,
            hmeant.2 ⟨.inl hword', by simpa using ho⟩, not_fallsBelowZero ho _⟩

/-- A constructor with two names and arguments behind its colon. -/
def namesText : String := "class C\x7bC():x y(1)\x7b\x7d\x7d"

/-- A constructor with a closing parenthesis behind its colon that nothing opened. -/
def closingText : String := "class C\x7bC():x)(()\x7b\x7d\x7d"

/-- Documents are read in which no initializer stands behind the colon of a constructor: other words, and a
closing parenthesis at which the counter falls below zero. -/
theorem ofText_initializer_unread :
    (∃ lexed tree, Lexed.ofText namesText = .ok lexed ∧
      SourceTree.ofText namesText = .ok tree ∧
      lexed.tokens.map Token.text =
        ["class", "C", "\x7b", "C", "(", ")", ":", "x", "y", "(", "1", ")", "\x7b", "\x7d", "\x7d"]) ∧
    ∃ lexed tree, Lexed.ofText closingText = .ok lexed ∧
      SourceTree.ofText closingText = .ok tree ∧
      lexed.tokens.map Token.text =
        ["class", "C", "\x7b", "C", "(", ")", ":", "x", ")", "(", "(", ")", "\x7b", "\x7d", "\x7d"] ∧
      FallsBelowZero (lexed.tokens.drop 8) := by
  have reads (text : String) (p : List Token → Bool)
      (found : (Lexed.ofText text).toOption.any (fun lexed => p lexed.tokens) = true)
      (read : (SourceTree.ofText text).toOption.isSome = true) :
      ∃ lexed tree, Lexed.ofText text = .ok lexed ∧ SourceTree.ofText text = .ok tree ∧ p lexed.tokens = true := by
    cases hl : Lexed.ofText text with
    | error e => simp [hl, Except.toOption] at found
    | ok lexed =>
    cases ht : SourceTree.ofText text with
    | error e => simp [ht, Except.toOption] at read
    | ok tree => exact ⟨lexed, tree, rfl, rfl, by simpa [hl, Except.toOption] using found⟩
  constructor
  · obtain ⟨lexed, tree, hl, ht, hwords⟩ := reads namesText
      (fun tokens => tokens.map Token.text =
        ["class", "C", "\x7b", "C", "(", ")", ":", "x", "y", "(", "1", ")", "\x7b", "\x7d", "\x7d"])
      (by decide +kernel) (by decide +kernel)
    exact ⟨lexed, tree, hl, ht, of_decide_eq_true hwords⟩
  · obtain ⟨lexed, tree, hl, ht, hwords⟩ := reads closingText
      (fun tokens => tokens.map Token.text =
        ["class", "C", "\x7b", "C", "(", ")", ":", "x", ")", "(", "(", ")", "\x7b", "\x7d", "\x7d"] &&
          (tokens.drop 8).head?.any (·.isPunct ")")) (by decide +kernel) (by decide +kernel)
    obtain ⟨hwords, hclosing⟩ := Bool.and_eq_true_iff.1 hwords
    obtain ⟨c, hc, hclosing⟩ := Option.any_eq_true _ _ |>.1 hclosing
    obtain ⟨u, hu⟩ := List.head?_eq_some_iff.1 hc
    exact ⟨lexed, tree, hl, ht, of_decide_eq_true hwords,
      fallsBelowZero_iff.2 ⟨[], c, u, hu, hclosing, by simp⟩⟩

end Grammar

end CultureLint
