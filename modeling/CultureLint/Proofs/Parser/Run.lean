import CultureLint.Parser.Cursor

/-! Successful runs of parsers. Each combinator has one equation that says what a run of it that
succeeds is made of, so that a run of a rule of the grammar comes apart into the runs of its parts.
`Took` says which tokens lie between two cursors. -/

namespace CultureLint

/-- The end of the last of some tokens, or else a given offset. -/
def endOf (w : List Token) (offset : Nat) : Nat := (w.getLast?.map (·.span.stop)).getD offset

@[simp] theorem endOf_nil (offset : Nat) : endOf [] offset = offset := rfl

@[simp] theorem endOf_singleton (t : Token) (offset : Nat) : endOf [t] offset = t.span.stop := rfl

theorem endOf_append (w v : List Token) (offset : Nat) :
    endOf (w ++ v) offset = endOf v (endOf w offset) := by
  simp only [endOf, List.getLast?_append]
  cases v.getLast? <;> simp

@[simp] theorem endOf_concat (w : List Token) (t : Token) (offset : Nat) :
    endOf (w ++ [t]) offset = t.span.stop := by rw [endOf_append, endOf_singleton]

@[simp] theorem Cursor.rest_advance (s : Cursor) : s.advance.rest = s.rest.tail := by
  unfold Cursor.advance
  cases h : s.rest <;> simp [h]

/-- Between two cursors lie exactly the given tokens. -/
structure Took (s : Cursor) (w : List Token) (s' : Cursor) : Prop where
  rest : s.rest = w ++ s'.rest
  previousEnd : s'.previousEnd = endOf w s.previousEnd
  nextId_le : s.nextId ≤ s'.nextId

namespace Took

variable {s m s' : Cursor} {w v : List Token}

theorem refl (s : Cursor) : Took s [] s := ⟨rfl, rfl, Nat.le_refl _⟩

theorem trans (h : Took s w m) (h' : Took m v s') : Took s (w ++ v) s' :=
  ⟨by rw [h.rest, h'.rest, List.append_assoc],
    by rw [h'.previousEnd, h.previousEnd, endOf_append], Nat.le_trans h.nextId_le h'.nextId_le⟩

theorem advance {t : Token} {r : List Token} (h : s.rest = t :: r) : Took s [t] s.advance := by
  constructor <;> simp [Cursor.advance, h]

theorem numbered (h : Took s w m) {n : Nat} (hn : m.nextId ≤ n) :
    Took s w { m with nextId := n } := ⟨h.rest, h.previousEnd, Nat.le_trans h.nextId_le hn⟩

theorem first? {t : Token} (h : Took s (t :: w) s') : s.first? = some t := by
  simp [Cursor.first?, h.rest]

theorem length_lt {t : Token} (h : Took s (t :: w) s') : s'.rest.length < s.rest.length := by
  simp only [h.rest, List.length_append, List.length_cons]
  omega

/-- The tokens between two cursors are determined. -/
theorem unique (h : Took s w s') (h' : Took s v s') : w = v :=
  List.append_cancel_right (h.rest.symm.trans h'.rest)

theorem length_le (h : Took s w s') : s'.rest.length ≤ s.rest.length := by
  simp [h.rest]

end Took

namespace Parser

variable {α β : Type}

/-! ### Plain combinators -/

@[simp] theorem bind_eq_ok {p : Parser α} {f : α → Parser β} {s : Cursor} {b : β × Cursor} :
    (p >>= f) s = .ok b ↔ ∃ a, p s = .ok a ∧ f a.1 a.2 = .ok b := by
  change Except.bind (p s) _ = _ ↔ _
  cases p s <;> simp [Except.bind]

@[simp] theorem pure_eq_ok {a : α} {s : Cursor} {b : α × Cursor} :
    (pure a : Parser α) s = .ok b ↔ b = (a, s) := by
  change Except.ok (a, s) = _ ↔ _
  simp [eq_comm]

@[simp] theorem map_eq_ok {p : Parser α} {f : α → β} {s : Cursor} {b : β × Cursor} :
    (f <$> p) s = .ok b ↔ ∃ a, p s = .ok a ∧ b = (f a.1, a.2) := by
  change Except.bind (p s) _ = _ ↔ _
  cases p s <;> simp [Except.bind, pure, Except.pure, eq_comm]

@[simp] theorem ask_eq_ok {f : Cursor → α} {s : Cursor} {b : α × Cursor} :
    ask f s = .ok b ↔ b = (f s, s) := by simp [ask, eq_comm]

@[simp] theorem fail_eq_ok {c : Complaint} {s : Cursor} {b : α × Cursor} :
    (fail c : Parser α) s = .ok b ↔ False := by simp [fail]

@[simp] theorem advance_eq_ok {s : Cursor} {b : Unit × Cursor} :
    advance s = .ok b ↔ b = ((), s.advance) := by
  change Except.ok ((), s.advance) = _ ↔ _
  simp [eq_comm]

@[simp] theorem offset_eq_ok {s : Cursor} {b : Nat × Cursor} :
    offset s = .ok b ↔ b = (s.offset, s) := ask_eq_ok

@[simp] theorem spanFrom_eq_ok {start : Nat} {s : Cursor} {b : Span × Cursor} :
    spanFrom start s = .ok b ↔ b = (Span.upTo start s.previousEnd, s) := ask_eq_ok

@[simp] theorem newNode_eq_ok {span : Span} {s : Cursor} {b : Node × Cursor} :
    newNode span s = .ok b ↔ b = (⟨s.nextId, span⟩, { s with nextId := s.nextId + 1 }) := by
  simp [newNode, eq_comm]

@[simp] theorem newNodeFrom_eq_ok {start : Nat} {s : Cursor} {b : Node × Cursor} :
    newNodeFrom start s = .ok b ↔
      b = (⟨s.nextId, Span.upTo start s.previousEnd⟩, { s with nextId := s.nextId + 1 }) := by
  simp [newNodeFrom]

/-! ### Steps that never fail -/

section

variable (s : Cursor)

theorem ask_bind (f : Cursor → α) (k : α → Parser β) : (ask f >>= k) s = k (f s) s := rfl

theorem offset_bind (k : Nat → Parser β) : (offset >>= k) s = k s.offset s := rfl

theorem advance_bind (k : Unit → Parser β) : (advance >>= k) s = k () s.advance := rfl

theorem spanFrom_bind (start : Nat) (k : Span → Parser β) :
    (spanFrom start >>= k) s = k (Span.upTo start s.previousEnd) s := rfl

theorem newNode_bind (span : Span) (k : Node → Parser β) :
    (newNode span >>= k) s = k ⟨s.nextId, span⟩ { s with nextId := s.nextId + 1 } := rfl

theorem newNodeFrom_bind (start : Nat) (k : Node → Parser β) :
    (newNodeFrom start >>= k) s = k ⟨s.nextId, Span.upTo start s.previousEnd⟩
      { s with nextId := s.nextId + 1 } := rfl

end

/-! ### One token -/

@[simp] theorem at?_eq_ok {p : Token → Bool} {s : Cursor} {b : Bool × Cursor} :
    at? p s = .ok b ↔ b = (s.first?.any p, s) := ask_eq_ok

@[simp] theorem at2?_eq_ok {p q : Token → Bool} {s : Cursor} {b : Bool × Cursor} :
    at2? p q s = .ok b ↔ b = (s.first?.any p && s.second?.any q, s) := ask_eq_ok

@[simp] theorem atPunct_eq_ok {c : String} {s : Cursor} {b : Bool × Cursor} :
    atPunct c s = .ok b ↔ b = (s.first?.any (·.isPunct c), s) := at?_eq_ok

@[simp] theorem atKeyword_eq_ok {c : String} {s : Cursor} {b : Bool × Cursor} :
    atKeyword c s = .ok b ↔ b = (s.first?.any (·.isKeyword c), s) := at?_eq_ok

@[simp] theorem atKeywords_eq_ok {ws : List String} {s : Cursor} {b : Bool × Cursor} :
    atKeywords ws s = .ok b ↔ b = (s.first?.any (fun t => ws.any t.isKeyword), s) := at?_eq_ok

@[simp] theorem atEnd_eq_ok {s : Cursor} {b : Bool × Cursor} :
    atEnd s = .ok b ↔ b = (s.rest.isEmpty, s) := ask_eq_ok

theorem eat_eq_ok {p : Token → Bool} {s : Cursor} {b : Bool × Cursor} :
    eat p s = .ok b ↔ b = (s.first?.any p, if s.first?.any p then s.advance else s) := by
  simp only [eat, bind_eq_ok, at?_eq_ok, exists_eq_left]
  cases s.first?.any p <;> simp

@[simp] theorem eatPunct_eq_ok {c : String} {s : Cursor} {b : Bool × Cursor} :
    eatPunct c s = .ok b ↔
      b = (s.first?.any (·.isPunct c), if s.first?.any (·.isPunct c) then s.advance else s) :=
  eat_eq_ok

@[simp] theorem eatKeyword_eq_ok {c : String} {s : Cursor} {b : Bool × Cursor} :
    eatKeyword c s = .ok b ↔
      b = (s.first?.any (·.isKeyword c), if s.first?.any (·.isKeyword c) then s.advance else s) :=
  eat_eq_ok

@[simp] theorem eat2_eq_ok {p q : Token → Bool} {s : Cursor} {b : Bool × Cursor} :
    eat2 p q s = .ok b ↔ b = (s.first?.any p && s.second?.any q,
      if s.first?.any p && s.second?.any q then s.advance.advance else s) := by
  simp only [eat2, bind_eq_ok, at2?_eq_ok, exists_eq_left]
  cases (s.first?.any p && s.second?.any q) <;> simp

theorem first?_any {s : Cursor} {p : Token → Bool} :
    s.first?.any p = true ↔ ∃ t r, s.rest = t :: r ∧ p t = true := by
  unfold Cursor.first?
  cases s.rest with
  | nil => simp
  | cons t r => simp

@[simp] theorem expectPunct_eq_ok {c : String} {s : Cursor} {b : Unit × Cursor} :
    expectPunct c s = .ok b ↔ s.first?.any (·.isPunct c) = true ∧ b = ((), s.advance) := by
  simp only [expectPunct, bind_eq_ok, eatPunct_eq_ok, exists_eq_left]
  cases s.first?.any (·.isPunct c) <;> simp

@[simp] theorem expectIdent_eq_ok {s : Cursor} {b : Ident × Cursor} :
    expectIdent s = .ok b ↔
      ∃ t r, s.rest = t :: r ∧ t.isIdentifier = true ∧ b = (⟨t.name, t.span⟩, s.advance) := by
  simp only [expectIdent, bind_eq_ok, ask_eq_ok, exists_eq_left, Cursor.first?]
  cases h : s.rest with
  | nil => simp
  | cons t r => cases hi : t.isIdentifier <;> simp [hi]

/-! ### Choices -/

theorem ifAt_eq_ok {f : Token → Bool} {p q : Parser α} {s : Cursor} {b : α × Cursor} :
    (at? f >>= fun c => if c = true then p else q) s = .ok b ↔
      (∃ t r, s.rest = t :: r ∧ f t = true ∧ p s = .ok b) ∨
        s.first?.any f = false ∧ q s = .ok b := by
  simp only [bind_eq_ok, at?_eq_ok, exists_eq_left, Cursor.first?]
  cases hr : s.rest with
  | nil => simp
  | cons t r => cases ht : f t <;> simp [ht]

theorem ifEat_eq_ok {f : Token → Bool} {p q : Parser α} {s : Cursor} {b : α × Cursor} :
    (eat f >>= fun c => if c = true then p else q) s = .ok b ↔
      (∃ t r, s.rest = t :: r ∧ f t = true ∧ p s.advance = .ok b) ∨
        s.first?.any f = false ∧ q s = .ok b := by
  simp only [bind_eq_ok, eat_eq_ok, exists_eq_left]
  by_cases h : s.first?.any f = true
  · obtain ⟨t, r, hr, ht⟩ := first?_any.1 h
    simp only [h, if_true, Bool.true_eq_false, false_and, or_false]
    exact ⟨fun hp => ⟨t, r, hr, ht, hp⟩, fun ⟨_, _, _, _, hp⟩ => hp⟩
  · rw [if_neg h, if_neg h]
    refine ⟨fun hq => .inr ⟨Bool.eq_false_iff.2 h, hq⟩, ?_⟩
    rintro (⟨t, r, hr, ht, -⟩ | ⟨-, hq⟩)
    · exact absurd (first?_any.2 ⟨t, r, hr, ht⟩) h
    · exact hq

theorem ifAtPunct_eq_ok {c : String} {p q : Parser α} {s : Cursor} {b : α × Cursor} :
    (atPunct c >>= fun c => if c = true then p else q) s = .ok b ↔
      (∃ t r, s.rest = t :: r ∧ t.isPunct c = true ∧ p s = .ok b) ∨
        s.first?.any (·.isPunct c) = false ∧ q s = .ok b := ifAt_eq_ok

theorem ifEatPunct_eq_ok {c : String} {p q : Parser α} {s : Cursor} {b : α × Cursor} :
    (eatPunct c >>= fun c => if c = true then p else q) s = .ok b ↔
      (∃ t r, s.rest = t :: r ∧ t.isPunct c = true ∧ p s.advance = .ok b) ∨
        s.first?.any (·.isPunct c) = false ∧ q s = .ok b := ifEat_eq_ok

theorem ifEatKeyword_eq_ok {c : String} {p q : Parser α} {s : Cursor} {b : α × Cursor} :
    (eatKeyword c >>= fun c => if c = true then p else q) s = .ok b ↔
      (∃ t r, s.rest = t :: r ∧ t.isKeyword c = true ∧ p s.advance = .ok b) ∨
        s.first?.any (·.isKeyword c) = false ∧ q s = .ok b := ifEat_eq_ok

theorem afterComma_eq_some {p : Parser α} {s s' : Cursor} {a : α} :
    afterComma p s = .ok (some a, s') ↔
      ∃ t r, s.rest = t :: r ∧ t.isPunct "," = true ∧ p s.advance = .ok (a, s') := by
  simp only [afterComma, ifEatPunct_eq_ok, map_eq_ok, Prod.mk.injEq, Option.some.injEq, pure_eq_ok,
    reduceCtorEq, false_and, and_false, or_false]
  refine exists_congr fun t => exists_congr fun r => and_congr_right fun _ => and_congr_right fun _ => ?_
  exact ⟨fun ⟨⟨_, _⟩, h, rfl, rfl⟩ => h, fun h => ⟨_, h, rfl, rfl⟩⟩

theorem afterComma_eq_none {p : Parser α} {s s' : Cursor} :
    afterComma p s = .ok (none, s') ↔ s.first?.any (·.isPunct ",") = false ∧ s' = s := by
  simp only [afterComma, ifEatPunct_eq_ok, map_eq_ok, pure_eq_ok, Prod.mk.injEq, true_and,
    reduceCtorEq, false_and, and_false, exists_false, false_or]

/-! ### Going forward -/

/-- A parser that never goes back, and takes only tokens with a property. -/
def Takes (f : Token → Prop) (p : Parser α) : Prop :=
  ∀ s x s', p s = .ok (x, s') → ∃ w, Took s w s' ∧ ∀ t ∈ w, f t

/-- A parser that never goes back. -/
abbrev Forward (p : Parser α) : Prop := Takes (fun _ => True) p

/-- The token that a test has been made on is taken. -/
theorem took_first {s : Cursor} {p : Token → Bool} (h : s.first?.any p = true) :
    ∃ t, p t = true ∧ Took s [t] s.advance := by
  obtain ⟨t, r, hr, ht⟩ := first?_any.1 h
  exact ⟨t, ht, .advance hr⟩

theorem took_second {s : Cursor} {p q : Token → Bool}
    (h : (s.first?.any p && s.second?.any q) = true) :
    ∃ t u, p t = true ∧ q u = true ∧ Took s [t, u] s.advance.advance := by
  simp only [Bool.and_eq_true] at h
  obtain ⟨t, ht, hw⟩ := took_first h.1
  have h2 : s.advance.first?.any q = true := by simpa [Cursor.first?, Cursor.second?] using h.2
  obtain ⟨u, hu, hw'⟩ := took_first h2
  exact ⟨t, u, ht, hu, hw.trans hw'⟩

theorem took_ident {s s' : Cursor} {i : Ident} (h : expectIdent s = .ok (i, s')) :
    ∃ t, t.isIdentifier = true ∧ i = ⟨t.name, t.span⟩ ∧ Took s [t] s' := by
  simp only [expectIdent_eq_ok, Prod.mk.injEq] at h
  obtain ⟨t, r, hr, ht, rfl, rfl⟩ := h
  exact ⟨t, ht, rfl, .advance hr⟩

theorem took_punct {s s' : Cursor} {c : String} {u : Unit} (h : expectPunct c s = .ok (u, s')) :
    ∃ t, t.isPunct c = true ∧ Took s [t] s' := by
  simp only [expectPunct_eq_ok, Prod.mk.injEq] at h
  obtain ⟨hc, -, rfl⟩ := h
  exact took_first hc

namespace Takes

variable {f : Token → Prop}

theorem forward {p : Parser α} (h : Takes f p) : Forward p := fun s x s' hp =>
  (h s x s' hp).imp fun _ hw => ⟨hw.1, fun _ _ => trivial⟩

theorem pure (a : α) : Takes f (pure a : Parser α) := by
  intro s x s' h
  simp only [pure_eq_ok, Prod.mk.injEq] at h
  exact ⟨[], h.2 ▸ .refl s, by simp⟩

theorem ask (g : Cursor → α) : Takes f (ask g) := by
  intro s x s' h
  simp only [ask_eq_ok, Prod.mk.injEq] at h
  exact ⟨[], h.2 ▸ .refl s, by simp⟩

theorem fail (c : Complaint) : Takes f (fail c : Parser α) := by
  intro s x s' h
  simp at h

theorem bind {p : Parser α} {k : α → Parser β} (hp : Takes f p) (hk : ∀ a, Takes f (k a)) :
    Takes f (p >>= k) := by
  intro s x s' h
  simp only [bind_eq_ok] at h
  obtain ⟨⟨a, m⟩, ha, hx⟩ := h
  obtain ⟨w, hw, hf⟩ := hp s a m ha
  obtain ⟨v, hv, hf'⟩ := hk a m x s' hx
  exact ⟨w ++ v, hw.trans hv, fun t ht => (List.mem_append.1 ht).elim (hf t) (hf' t)⟩

theorem map {p : Parser α} {g : α → β} (hp : Takes f p) : Takes f (g <$> p) := by
  intro s x s' h
  simp only [map_eq_ok, Prod.mk.injEq] at h
  obtain ⟨⟨a, m⟩, ha, rfl, rfl⟩ := h
  exact hp s a _ ha

theorem ite {c : Prop} [Decidable c] {p q : Parser α} (hp : Takes f p) (hq : Takes f q) :
    Takes f (if c then p else q) := by
  split
  · exact hp
  · exact hq

theorem eat {g : Token → Bool} (hg : ∀ t, g t = true → f t) : Takes f (eat g) := by
  intro s x s' h
  simp only [eat_eq_ok, Prod.mk.injEq] at h
  obtain ⟨-, rfl⟩ := h
  split
  · rename_i hc
    obtain ⟨t, ht, hw⟩ := took_first hc
    exact ⟨[t], hw, by simpa using hg t ht⟩
  · exact ⟨[], .refl s, by simp⟩

theorem eat2 {g h : Token → Bool} (hg : ∀ t, g t = true → f t) (hh : ∀ t, h t = true → f t) :
    Takes f (eat2 g h) := by
  intro s x s' h
  simp only [eat2_eq_ok, Prod.mk.injEq] at h
  obtain ⟨-, rfl⟩ := h
  split
  · rename_i hc
    obtain ⟨t, u, ht, hu, hw⟩ := took_second hc
    exact ⟨[t, u], hw, by simpa using ⟨hg t ht, hh u hu⟩⟩
  · exact ⟨[], .refl s, by simp⟩

theorem expectPunct {c : String} (hc : ∀ t, t.isPunct c = true → f t) : Takes f (expectPunct c) :=
  (eat hc).bind fun _ => .ite (pure _) (fail _)

theorem expectIdent (hf : ∀ t, t.isIdentifier = true → f t) : Takes f expectIdent := by
  intro s x s' h
  obtain ⟨t, ht, -, hw⟩ := took_ident h
  exact ⟨[t], hw, by simpa using hf t ht⟩

/-- A token that is taken after a test of it. -/
theorem ifAsk {c : Cursor → Bool} {p q : Parser α}
    (hc : ∀ s, c s = true → ∃ t r, s.rest = t :: r ∧ f t) (hp : Takes f p) (hq : Takes f q) :
    Takes f (Parser.ask c >>= fun b => if b = true then advance >>= fun _ => p else q) := by
  intro s x s' h
  simp only [bind_eq_ok, ask_eq_ok, exists_eq_left] at h
  split at h
  · rename_i hs
    obtain ⟨t, r, hr, ht⟩ := hc s hs
    simp only [bind_eq_ok, advance_eq_ok, exists_eq_left] at h
    obtain ⟨w, hw, hf⟩ := hp _ _ _ h
    exact ⟨t :: w, (Took.advance hr).trans hw, by simpa using ⟨ht, hf⟩⟩
  · exact hq _ _ _ h

theorem newNode (span : Span) : Takes f (newNode span) := by
  intro s x s' h
  simp only [newNode_eq_ok, Prod.mk.injEq] at h
  exact ⟨[], h.2 ▸ (Took.refl s).numbered (Nat.le_succ _), by simp⟩

theorem many {p : Parser (Option α)} (hp : Takes f p) : Takes f (many p) := by
  have upTo (bound : Nat) : Takes f (manyUpTo p bound) := by
    induction bound with
    | zero => exact .pure _
    | succ bound ih =>
      refine hp.bind fun a => ?_
      cases a with
      | none => exact .pure _
      | some a => exact ih.bind fun _ => .pure _
  exact (ask _).bind fun _ => upTo _

theorem grow {step : α → Parser (Option α)} (hs : ∀ a, Takes f (step a)) (a : α) :
    Takes f (grow step a) := by
  have upTo (bound : Nat) (a : α) : Takes f (growUpTo step bound a) := by
    induction bound generalizing a with
    | zero => exact .pure _
    | succ bound ih =>
      refine (hs a).bind fun b => ?_
      cases b with
      | none => exact .pure _
      | some b => exact ih b
  exact (ask _).bind fun _ => upTo _ a

end Takes

theorem forward_advance : Forward advance := by
  intro s x s' h
  simp only [advance_eq_ok, Prod.mk.injEq] at h
  obtain ⟨-, rfl⟩ := h
  cases hr : s.rest with
  | nil => exact ⟨[], by simpa [Cursor.advance, hr] using .refl s, by simp⟩
  | cons t r => exact ⟨[t], .advance hr, by simp⟩

theorem rest_ne_nil_of_at {s : Cursor} {p : Token → Bool} (h : s.first?.any p = true) :
    s.rest ≠ [] := by
  obtain ⟨t, r, hr, -⟩ := first?_any.1 h
  simp [hr]

theorem rest_ne_nil_of_at2 {s : Cursor} {p q : Token → Bool}
    (h : (s.first?.any p && s.second?.any q) = true) : s.rest ≠ [] :=
  rest_ne_nil_of_at (Bool.and_eq_true_iff.1 h).1

/-! ### Repetition -/

/-- A parser that takes a token whenever it gives something. -/
def Progresses (p : Parser (Option α)) : Prop :=
  ∀ s a s', p s = .ok (some a, s') → s'.rest.length < s.rest.length

namespace Progresses

theorem none : Progresses (pure none : Parser (Option α)) := by
  intro s a s' h
  simp at h

theorem fail (c : Complaint) : Progresses (fail c : Parser (Option α)) := by
  intro s a s' h
  simp at h

theorem ite {c : Prop} [Decidable c] {p q : Parser (Option α)} (hp : Progresses p)
    (hq : Progresses q) : Progresses (if c then p else q) := by
  split
  · exact hp
  · exact hq

theorem bind {p : Parser β} {f : β → Parser (Option α)} (hp : Forward p)
    (hf : ∀ b, Progresses (f b)) : Progresses (p >>= f) := by
  intro s a s' h
  simp only [bind_eq_ok] at h
  obtain ⟨⟨b, m⟩, hb, ha⟩ := h
  obtain ⟨w, hw, -⟩ := hp s b m hb
  have := hw.length_le
  have := hf b m a s' ha
  omega

/-- Something read behind a token that was there, or nothing read. -/
theorem ifEat {f : Token → Bool} {p q : Parser (Option α)} (hp : Forward p) (hq : Progresses q) :
    Progresses (eat f >>= fun b => if b = true then p else q) := by
  intro s a s' h
  simp only [bind_eq_ok, eat_eq_ok, exists_eq_left] at h
  split at h
  · rename_i hc
    obtain ⟨t, -, ht⟩ := took_first hc
    obtain ⟨w, hw, -⟩ := hp _ _ _ h
    have := ht.length_lt
    have := hw.length_le
    omega
  · exact hq _ _ _ h

/-- The same with a test first and the token taken after it. -/
theorem ifAsk {c : Cursor → Bool} {p q : Parser (Option α)} (hc : ∀ s, c s = true → s.rest ≠ [])
    (hp : Forward p) (hq : Progresses q) :
    Progresses (ask c >>= fun b => if b = true then advance >>= fun _ => p else q) := by
  intro s a s' h
  simp only [bind_eq_ok, ask_eq_ok, exists_eq_left] at h
  split at h
  · rename_i ht
    obtain ⟨t, r, hr⟩ := List.exists_cons_of_ne_nil (hc s ht)
    simp only [bind_eq_ok, advance_eq_ok, exists_eq_left] at h
    obtain ⟨w, hw, -⟩ := hp _ _ _ h
    have := (Took.advance hr).length_lt
    have := hw.length_le
    omega
  · exact hq _ _ _ h

end Progresses

/-- The rounds of a repeated parser, up to the round that gives nothing. -/
inductive Rounds (p : Parser (Option α)) : Cursor → List α → Cursor → Prop
  | stop {s s' : Cursor} (h : p s = .ok (none, s')) : Rounds p s [] s'
  | next {s m s' : Cursor} {a : α} {as : List α} (h : p s = .ok (some a, m)) (hs : Rounds p m as s') :
      Rounds p s (a :: as) s'

theorem rounds_of_manyUpTo {p : Parser (Option α)} (hp : Progresses p) {bound : Nat} {s s' : Cursor}
    {as : List α} (hb : s.rest.length < bound) (h : manyUpTo p bound s = .ok (as, s')) :
    Rounds p s as s' := by
  induction bound generalizing s as with
  | zero => omega
  | succ bound ih =>
    simp only [manyUpTo, bind_eq_ok] at h
    obtain ⟨⟨a, m⟩, ha, h⟩ := h
    cases a with
    | none =>
      simp only [pure_eq_ok, Prod.mk.injEq] at h
      obtain ⟨rfl, rfl⟩ := h
      exact .stop ha
    | some a =>
      simp only [bind_eq_ok, pure_eq_ok, Prod.mk.injEq] at h
      obtain ⟨⟨as, m'⟩, hs, rfl, rfl⟩ := h
      have := hp s a m ha
      exact .next ha (ih (by omega) hs)

theorem manyUpTo_of_rounds {p : Parser (Option α)} (hp : Progresses p) {s s' : Cursor} {as : List α}
    (h : Rounds p s as s') {bound : Nat} (hb : s.rest.length < bound) :
    manyUpTo p bound s = .ok (as, s') := by
  induction h generalizing bound with
  | stop h =>
    obtain ⟨bound, rfl⟩ : ∃ k, bound = k + 1 := ⟨bound - 1, by omega⟩
    simp only [manyUpTo, bind_eq_ok]
    exact ⟨_, h, by simp⟩
  | next h _ ih =>
    obtain ⟨bound, rfl⟩ : ∃ k, bound = k + 1 := ⟨bound - 1, by omega⟩
    have := hp _ _ _ h
    simp only [manyUpTo, bind_eq_ok]
    refine ⟨_, h, ?_⟩
    simp only [bind_eq_ok, pure_eq_ok]
    exact ⟨_, ih (by omega), rfl⟩

theorem many_eq_ok {p : Parser (Option α)} (hp : Progresses p) {s s' : Cursor} {as : List α} :
    many p s = .ok (as, s') ↔ Rounds p s as s' := by
  simp only [many, bind_eq_ok, ask_eq_ok, exists_eq_left]
  exact ⟨rounds_of_manyUpTo hp (Nat.lt_succ_self _),
    fun h => manyUpTo_of_rounds hp h (Nat.lt_succ_self _)⟩

/-- Some steps of growth, all of which gave something. -/
inductive Steps (step : α → Parser (Option α)) : α → Cursor → α → Cursor → Prop
  | refl (a : α) (s : Cursor) : Steps step a s a s
  | head {a b c : α} {s m s' : Cursor} (h : step a s = .ok (some b, m)) (hs : Steps step b m c s') :
      Steps step a s c s'

theorem Steps.tail {step : α → Parser (Option α)} {a b c : α} {s m s' : Cursor}
    (h : Steps step a s b m) (hs : step b m = .ok (some c, s')) : Steps step a s c s' := by
  induction h with
  | refl => exact .head hs (.refl ..)
  | head h _ ih => exact .head h (ih hs)

theorem growUpTo_of_steps {step : α → Parser (Option α)} (hp : ∀ a, Progresses (step a)) {a b : α}
    {s m s' : Cursor} (h : Steps step a s b m) (hn : step b m = .ok (none, s')) {bound : Nat}
    (hb : s.rest.length < bound) : growUpTo step bound a s = .ok (b, s') := by
  induction h generalizing bound with
  | refl =>
    obtain ⟨bound, rfl⟩ : ∃ k, bound = k + 1 := ⟨bound - 1, by omega⟩
    simp only [growUpTo, bind_eq_ok]
    exact ⟨_, hn, by simp⟩
  | head h _ ih =>
    obtain ⟨bound, rfl⟩ : ∃ k, bound = k + 1 := ⟨bound - 1, by omega⟩
    have := hp _ _ _ _ h
    simp only [growUpTo, bind_eq_ok]
    exact ⟨_, h, ih hn (by omega)⟩

theorem steps_of_growUpTo {step : α → Parser (Option α)} (hp : ∀ a, Progresses (step a)) {a b : α}
    {s s' : Cursor} {bound : Nat} (hb : s.rest.length < bound)
    (h : growUpTo step bound a s = .ok (b, s')) :
    ∃ m, Steps step a s b m ∧ step b m = .ok (none, s') := by
  induction bound generalizing a s with
  | zero => omega
  | succ bound ih =>
    simp only [growUpTo, bind_eq_ok] at h
    obtain ⟨⟨c, m⟩, hc, h⟩ := h
    cases c with
    | none =>
      simp only [pure_eq_ok, Prod.mk.injEq] at h
      obtain ⟨rfl, rfl⟩ := h
      exact ⟨s, .refl .., hc⟩
    | some c =>
      have hm : m.rest.length < bound := by have := hp _ _ _ _ hc; omega
      obtain ⟨m', hs, hn⟩ := ih hm h
      exact ⟨m', .head hc hs, hn⟩

theorem grow_eq_ok {step : α → Parser (Option α)} (hp : ∀ a, Progresses (step a)) {a b : α}
    {s s' : Cursor} :
    grow step a s = .ok (b, s') ↔ ∃ m, Steps step a s b m ∧ step b m = .ok (none, s') := by
  simp only [grow, bind_eq_ok, ask_eq_ok, exists_eq_left]
  exact ⟨steps_of_growUpTo hp (Nat.lt_succ_self _),
    fun ⟨_, h, hn⟩ => growUpTo_of_steps hp h hn (Nat.lt_succ_self _)⟩

/-! ### Speculation -/

theorem speculate_eq_some {p : Parser (Option α)} {s s' : Cursor} {a : α} :
    speculate p s = .ok (some a, s') ↔ p s = .ok (some a, s') := by
  unfold speculate
  split <;> simp_all

theorem speculate_eq_none {p : Parser (Option α)} {s s' : Cursor} :
    speculate p s = .ok (none, s') ↔ s' = s ∧ ∀ a m, p s ≠ .ok (some a, m) := by
  unfold speculate
  split <;> simp_all [eq_comm]

end Parser

end CultureLint
