import CultureLint.Parser.Document
import CultureLint.Proofs.Parser.Run
import CultureLint.Proofs.Tree.Bare

/-! Parsers that read by the words alone. A steady parser that reads some tokens reads any others with
the same words too, wherever they stand and whatever follows them beyond the next two tokens, and gives
the same tree up to places. Steadiness is closed under the combinators, so that the rules for names,
types, attributes and modifiers have it by the way they are written. -/

namespace CultureLint

/-! ### Tokens with the same words -/

/-- What does not look at the place of a token is the same for tokens with the same words. -/
theorem Token.congr {β : Sort _} {t u : Token} (h : bare t = bare u) (f : Token → β)
    (hf : ∀ t, f (bare t) = f t) : f t = f u := by rw [← hf t, h, hf u]

/-- Token lists with the same classes and texts. -/
def Alike (w v : List Token) : Prop := bare w = bare v

namespace Alike

variable {a : Token} {w w' v : List Token}

theorem refl (w : List Token) : Alike w w := rfl

theorem symm (h : Alike w v) : Alike v w := Eq.symm h

theorem length_eq (h : Alike w v) : w.length = v.length := by
  have := congrArg List.length h
  simpa [bare] using this

theorem nil_left : Alike [] v ↔ v = [] := by
  cases v <;> simp [Alike]

theorem cons_left : Alike (a :: w) v ↔ ∃ a' v', v = a' :: v' ∧ bare a = bare a' ∧ Alike w v' := by
  cases v with
  | nil => simp [Alike]
  | cons b v =>
    simp only [Alike, bare_cons, List.cons.injEq]
    exact ⟨fun h => ⟨b, v, ⟨rfl, rfl⟩, h⟩, fun ⟨_, _, ⟨rfl, rfl⟩, h⟩ => h⟩

theorem append_left :
    Alike (w ++ w') v ↔ ∃ u u', v = u ++ u' ∧ Alike w u ∧ Alike w' u' := by
  constructor
  · intro h
    have h' : List.map bare (w ++ w') = List.map bare v := h
    rw [List.map_append] at h'
    obtain ⟨u, u', rfl, hu, hu'⟩ := List.map_eq_append_iff.1 h'.symm
    exact ⟨u, u', rfl, hu.symm, hu'.symm⟩
  · rintro ⟨u, u', rfl, hu, hu'⟩
    simp only [Alike, bare_append] at *
    rw [hu, hu']

theorem append {u : List Token} (h : Alike w v) (h' : Alike w' u) : Alike (w ++ w') (v ++ u) :=
  append_left.2 ⟨_, _, rfl, h, h'⟩

end Alike

/-- Whether no rule that sees the token looks behind it before it is taken. -/
def Token.isPlain (t : Token) : Bool :=
  !(t.isIdentifier || t.isPunct "." || t.isPunct "?" || t.isPunct "[" ||
    Parser.contextualModifiers.contains t.text)

/-- Texts that no rule tells apart at their beginning: their first two tokens have the same words, or
the first ones have and no rule looks behind them. -/
def Agree (r r' : List Token) : Prop :=
  Alike (r.take 2) (r'.take 2) ∨
    ∃ a u a' u', r = a :: u ∧ r' = a' :: u' ∧ bare a = bare a' ∧ a.isPlain = true

namespace Agree

variable {r r' : List Token}

theorem refl (r : List Token) : Agree r r := .inl rfl

theorem of_alike (h : Alike r r') : Agree r r' := by
  refine .inl ?_
  have h' : List.map bare r = List.map bare r' := h
  change List.map bare _ = List.map bare _
  rw [List.map_take, List.map_take, h']

theorem plain {a a' : Token} {u u' : List Token} (h : bare a = bare a') (hp : a.isPlain = true) :
    Agree (a :: u) (a' :: u') := .inr ⟨a, u, a', u', rfl, rfl, h, hp⟩

theorem head (h : Agree r r') : bare r.head? = bare r'.head? := by
  obtain h | ⟨a, u, a', u', rfl, rfl, ha, _⟩ := h
  · cases r <;> cases r' <;> simp_all [Alike]
  · simp [ha]

/-- Tokens in front of texts that agree. -/
theorem append {w v : List Token} (hw : Alike w v) (h : Agree r r') : Agree (w ++ r) (v ++ r') := by
  have hh : bare r.head? = bare r'.head? := h.head
  match w, v, hw with
  | [], v, hw => obtain rfl := Alike.nil_left.1 hw; exact h
  | [a], v, hw =>
    obtain ⟨a', v', rfl, ha, hv⟩ := Alike.cons_left.1 hw
    obtain rfl := Alike.nil_left.1 hv
    refine .inl ?_
    cases r <;> cases r' <;> simp_all [Alike]
  | a :: b :: w, v, hw =>
    obtain ⟨a', v', rfl, ha, hv⟩ := Alike.cons_left.1 hw
    obtain ⟨b', v', rfl, hb, -⟩ := Alike.cons_left.1 hv
    exact .inl (by simp [Alike, ha, hb])

theorem any_congr {a b : Option Token} (h : bare a = bare b) {p : Token → Bool}
    (hp : ∀ t, p (bare t) = p t) : a.any p = b.any p := by
  revert h
  cases a <;> cases b <;> simp only [bare_none, bare_some, Option.some.injEq, reduceCtorEq,
    false_implies, Option.any_some, Option.any_none, implies_true]
  intro ht
  exact Token.congr ht p hp

theorem bind_congr {α : Type} {a b : Option Token} (h : bare a = bare b) {f : Token → Option α}
    (hf : ∀ t, f (bare t) = f t) : a.bind f = b.bind f := by
  revert h
  cases a <;> cases b <;> simp only [bare_none, bare_some, Option.some.injEq, reduceCtorEq,
    false_implies, Option.bind_some, Option.bind_none, implies_true]
  intro ht
  exact Token.congr ht f hf

theorem any_head (h : Agree r r') {p : Token → Bool} (hp : ∀ t, p (bare t) = p t) :
    r.head?.any p = r'.head?.any p := any_congr h.head hp

/-- The second tokens have the same words too, unless no rule looks at them. -/
theorem second (h : Agree r r') (hp : ∀ t, r.head? = some t → t.isPlain = false) :
    bare r.tail.head? = bare r'.tail.head? := by
  obtain h | ⟨a, u, a', u', rfl, rfl, -, hc⟩ := h
  · match r, r', h with
    | [], [], _ => rfl
    | [], b :: r', h => simp [Alike] at h
    | b :: r, [], h => simp [Alike] at h
    | [a], [a'], h => rfl
    | [a], a' :: b' :: r', h => simp [Alike] at h
    | a :: b :: r, [a'], h => simp [Alike] at h
    | a :: b :: r, a' :: b' :: r', h =>
      simp only [Alike, List.take_succ_cons, bare_cons, List.cons.injEq] at h
      simp [h.2.1]
  · simp [hp a rfl] at hc

/-- Two tests for the first two tokens, the first of which no plain token passes. -/
theorem any_two (h : Agree r r') {p q : Token → Bool} (hp : ∀ t, p (bare t) = p t)
    (hq : ∀ t, q (bare t) = q t) (hpl : ∀ t, t.isPlain = true → p t = false) :
    (r.head?.any p && r.tail.head?.any q) = (r'.head?.any p && r'.tail.head?.any q) := by
  rw [h.any_head hp]
  by_cases hpl' : r.head?.any p = true
  · have : bare r.tail.head? = bare r'.tail.head? := by
      refine h.second fun t ht => ?_
      rw [ht, Option.any_some] at hpl'
      exact Bool.eq_false_iff.2 fun hc => by simp [hpl t hc] at hpl'
    rw [any_congr this hq]
  · rw [h.any_head hp] at hpl'
    simp [Bool.eq_false_iff.2 hpl']

end Agree

namespace Parser

variable {α β : Type} [Bare α] [Bare β]

/-! ### Steady parsers -/

/-- Whatever `p` reads, `q` reads too where the same words stand, with the same result up to places. -/
def Steady (p q : Parser α) : Prop :=
  ∀ s x s', p s = .ok (x, s') → ∃ w, Took s w s' ∧
    ∀ t v r, t.rest = v ++ r → Alike w v → Agree s'.rest r →
      ∃ y t', q t = .ok (y, t') ∧ t'.rest = r ∧ bare x = bare y

namespace Steady

variable {p p' : Parser α}

theorem forward (h : Steady p p') : Forward p := fun s x s' hp =>
  (h s x s' hp).imp fun _ hw => ⟨hw.1, fun _ _ => trivial⟩

/-- A parser that takes nothing. -/
theorem idle (h : ∀ s x s', p s = .ok (x, s') → Took s [] s' ∧ ∀ t, Agree s.rest t.rest →
    ∃ y t', p' t = .ok (y, t') ∧ t'.rest = t.rest ∧ bare x = bare y) : Steady p p' := by
  intro s x s' hs
  obtain ⟨ht, h⟩ := h s x s' hs
  refine ⟨[], ht, fun t v r hr hv ha => ?_⟩
  obtain rfl := Alike.nil_left.1 hv
  have hs' : s.rest = s'.rest := ht.rest
  obtain ⟨y, t', hy, hr', hb⟩ := h t (by rw [hs']; simpa [hr] using ha)
  exact ⟨y, t', hy, by simpa [hr] using hr', hb⟩

theorem pure {a b : α} (h : bare a = bare b) : Steady (pure a : Parser α) (pure b) := by
  apply idle
  intro s x s' hs
  simp only [pure_eq_ok, Prod.mk.injEq] at hs
  obtain ⟨rfl, rfl⟩ := hs
  exact ⟨.refl s', fun t _ => ⟨b, t, by simp, rfl, h⟩⟩

theorem ask {f g : Cursor → α} (h : ∀ s t : Cursor, Agree s.rest t.rest → bare (f s) = bare (g t)) :
    Steady (ask f) (ask g) := by
  apply idle
  intro s x s' hs
  simp only [ask_eq_ok, Prod.mk.injEq] at hs
  obtain ⟨rfl, rfl⟩ := hs
  exact ⟨.refl s', fun t ht => ⟨g t, t, by simp, rfl, h s' t ht⟩⟩

theorem fail {c : Complaint} : Steady (fail c : Parser α) p' := by
  intro s x s' hs
  simp at hs

theorem bind {f f' : α → Parser β} (hp : Steady p p')
    (hf : ∀ a b, bare a = bare b → Steady (f a) (f' b)) : Steady (p >>= f) (p' >>= f') := by
  intro s x s' hs
  simp only [bind_eq_ok] at hs
  obtain ⟨⟨a, m⟩, ha, hx⟩ := hs
  obtain ⟨w, hw, hp⟩ := hp s a m ha
  obtain ⟨w', hw', -⟩ := hf a a rfl m x s' hx
  refine ⟨w ++ w', hw.trans hw', fun t v r hr hv hag => ?_⟩
  obtain ⟨v, v', rfl, hv, hv'⟩ := Alike.append_left.1 hv
  obtain ⟨b, n, hb, hn, hab⟩ := hp t v (v' ++ r) (by rw [hr, List.append_assoc]) hv
    (by rw [hw'.rest]; exact hag.append hv')
  obtain ⟨u, hu, hf⟩ := hf a b hab m x s' hx
  obtain rfl : u = w' := hu.unique hw'
  obtain ⟨y, t', hy, hr', hxy⟩ := hf n v' r hn hv' hag
  exact ⟨y, t', bind_eq_ok.2 ⟨_, hb, hy⟩, hr', hxy⟩

theorem map {f f' : α → β} (hp : Steady p p') (hf : ∀ a b, bare a = bare b → bare (f a) = bare (f' b)) :
    Steady (f <$> p) (f' <$> p') := by
  intro s x s' hs
  simp only [map_eq_ok, Prod.mk.injEq] at hs
  obtain ⟨⟨a, m⟩, ha, rfl, rfl⟩ := hs
  obtain ⟨w, hw, hp⟩ := hp s a _ ha
  refine ⟨w, hw, fun t v r hr hv hag => ?_⟩
  obtain ⟨b, n, hb, hn, hab⟩ := hp t v r hr hv hag
  exact ⟨f' b, n, map_eq_ok.2 ⟨_, hb, rfl⟩, hn, hf a b hab⟩

theorem ite {c : Prop} [Decidable c] {q q' : Parser α} (hp : c → Steady p p')
    (hq : ¬ c → Steady q q') : Steady (if c then p else q) (if c then p' else q') := by
  split
  · exact hp ‹_›
  · exact hq ‹_›

/-- Something that is done, or not, before the rest. -/
theorem when {c : Bool} {q q' : Parser Unit} (hq : Steady q q') (hp : Steady p p') :
    Steady (if c then q >>= fun _ => p else p) (if c then q' >>= fun _ => p' else p') :=
  .ite (fun _ => hq.bind fun _ _ _ => hp) fun _ => hp

/-! ### Steady reading of one token -/

theorem advance : Steady advance advance := by
  intro s x s' hs
  simp only [advance_eq_ok, Prod.mk.injEq, true_and] at hs
  subst hs
  cases hr : s.rest with
  | nil =>
    have ha : s.advance = s := by simp [Cursor.advance, hr]
    refine ⟨[], by rw [ha]; exact .refl s, fun t v r ht hv hag => ?_⟩
    obtain rfl := Alike.nil_left.1 hv
    have hr' : r = [] := by
      rw [ha, hr] at hag
      have := hag.head
      cases r <;> simp_all
    exact ⟨(), t.advance, by simp, by simp [Cursor.advance, ht, hr'], rfl⟩
  | cons a u =>
    refine ⟨[a], .advance hr, fun t v r ht hv _ => ?_⟩
    obtain ⟨b, v', rfl, -, hv'⟩ := Alike.cons_left.1 hv
    obtain rfl := Alike.nil_left.1 hv'
    exact ⟨(), t.advance, by simp, by simp [Cursor.advance, ht], rfl⟩

theorem at? {f : Token → Bool} (hf : ∀ t, f (bare t) = f t) : Steady (at? f) (at? f) :=
  ask fun _ _ h => h.any_head hf

theorem at2? {f g : Token → Bool} (hf : ∀ t, f (bare t) = f t) (hg : ∀ t, g (bare t) = g t)
    (hpl : ∀ t, t.isPlain = true → f t = false) : Steady (at2? f g) (at2? f g) :=
  ask fun _ _ h => h.any_two hf hg hpl

theorem eat {f : Token → Bool} (hf : ∀ t, f (bare t) = f t) : Steady (eat f) (eat f) := by
  unfold Parser.eat
  refine (at? hf).bind fun a b hab => ?_
  obtain rfl : a = b := hab
  exact .ite (fun _ => advance.bind fun _ _ _ => .pure rfl) fun _ => .pure rfl

theorem eat2 {f g : Token → Bool} (hf : ∀ t, f (bare t) = f t) (hg : ∀ t, g (bare t) = g t)
    (hpl : ∀ t, t.isPlain = true → f t = false) : Steady (eat2 f g) (eat2 f g) := by
  unfold Parser.eat2
  refine (at2? hf hg hpl).bind fun a b hab => ?_
  obtain rfl : a = b := hab
  exact .ite (fun _ => advance.bind fun _ _ _ => advance.bind fun _ _ _ => .pure rfl)
    fun _ => .pure rfl

theorem atPunct {c : String} : Steady (atPunct c) (atPunct c) := at? fun _ => rfl

theorem eatPunct {c : String} : Steady (eatPunct c) (eatPunct c) := eat fun _ => rfl

theorem eatKeyword {c : String} : Steady (eatKeyword c) (eatKeyword c) := eat fun _ => rfl

theorem expectPunct {c : String} : Steady (expectPunct c) (expectPunct c) := by
  unfold Parser.expectPunct
  refine eatPunct.bind fun a b hab => ?_
  obtain rfl : a = b := hab
  exact .ite (fun _ => .pure rfl) fun _ => .fail

theorem first : Steady (Parser.ask Cursor.first?) (Parser.ask Cursor.first?) :=
  ask fun _ _ h => h.head

theorem offset : Steady offset offset := ask fun _ _ _ => rfl

theorem spanFrom {a b : Nat} : Steady (spanFrom a) (spanFrom b) := ask fun _ _ _ => rfl

theorem newNode {a b : Span} : Steady (newNode a) (newNode b) := by
  apply idle
  intro s x s' hs
  simp only [newNode_eq_ok, Prod.mk.injEq] at hs
  obtain ⟨rfl, rfl⟩ := hs
  exact ⟨(Took.refl s).numbered (Nat.le_succ _), fun t _ => ⟨_, _, newNode_eq_ok.2 rfl, rfl, rfl⟩⟩

theorem expectIdent : Steady expectIdent expectIdent := by
  unfold Parser.expectIdent
  refine first.bind fun a b hab => ?_
  cases a <;> cases b <;> simp only [bare_none, bare_some, Option.some.injEq, reduceCtorEq] at hab
  · exact .fail
  · rename_i t u
    have hi := Token.congr hab Token.isIdentifier fun _ => rfl
    have hn := Token.congr hab Token.name fun _ => rfl
    simp only [hi]
    exact .ite (fun _ => advance.bind fun _ _ _ => .pure (by simp [bare, hn])) fun _ => .fail

/-! ### Steady repetition -/

theorem many {p p' : Parser (Option α)} (hp : Steady p p') (hg : Progresses p)
    (hg' : Progresses p') : Steady (many p) (many p') := by
  intro s xs s' hs
  rw [many_eq_ok hg] at hs
  induction hs with
  | @stop s s' h =>
    obtain ⟨w, hw, hp⟩ := hp _ _ _ h
    refine ⟨w, hw, fun t v r hr hv hag => ?_⟩
    obtain ⟨y, t', hy, hr', hb⟩ := hp t v r hr hv hag
    cases y with
    | some y => simp at hb
    | none => exact ⟨[], t', (many_eq_ok hg').2 (.stop hy), hr', rfl⟩
  | @next s m s' a as h _ ih =>
    obtain ⟨w, hw, hp⟩ := hp _ _ _ h
    obtain ⟨w', hw', ih⟩ := ih
    refine ⟨w ++ w', hw.trans hw', fun t v r hr hv hag => ?_⟩
    obtain ⟨v, v', rfl, hv, hv'⟩ := Alike.append_left.1 hv
    obtain ⟨b, n, hb, hn, hab⟩ := hp t v (v' ++ r) (by rw [hr, List.append_assoc]) hv
      (by rw [hw'.rest]; exact hag.append hv')
    obtain ⟨ys, t', hy, hr', hxy⟩ := ih n v' r hn hv' hag
    cases b with
    | none => simp at hab
    | some b =>
      refine ⟨b :: ys, t', (many_eq_ok hg').2 (.next hb ((many_eq_ok hg').1 hy)), hr', ?_⟩
      simp only [bare_some, Option.some.injEq] at hab
      simp [hab, hxy]

theorem grow {f f' : α → Parser (Option α)} (hf : ∀ a b, bare a = bare b → Steady (f a) (f' b))
    (hg : ∀ a, Progresses (f a)) (hg' : ∀ a, Progresses (f' a)) {a b : α} (hab : bare a = bare b) :
    Steady (grow f a) (grow f' b) := by
  intro s x s' hx
  obtain ⟨m, hs, hn⟩ := (grow_eq_ok hg).1 hx
  clear hx
  induction hs generalizing b with
  | refl a s =>
    obtain ⟨w, hw, hp⟩ := hf a b hab _ _ _ hn
    refine ⟨w, hw, fun t v r hr hv hag => ?_⟩
    obtain ⟨y, t', hy, hr', hb⟩ := hp t v r hr hv hag
    cases y with
    | some y => simp at hb
    | none => exact ⟨b, t', (grow_eq_ok hg').2 ⟨t, .refl .., hy⟩, hr', hab⟩
  | @head a c d s m m' h _ ih =>
    obtain ⟨w, hw, hp⟩ := hf a b hab _ _ _ h
    obtain ⟨w', hw', -⟩ := ih (b := c) rfl hn
    refine ⟨w ++ w', hw.trans hw', fun t v r hr hv hag => ?_⟩
    obtain ⟨v, v', rfl, hv, hv'⟩ := Alike.append_left.1 hv
    obtain ⟨y, n, hy, hn', hcy⟩ := hp t v (v' ++ r) (by rw [hr, List.append_assoc]) hv
      (by rw [hw'.rest]; exact hag.append hv')
    cases y with
    | none => simp at hcy
    | some y =>
      simp only [bare_some, Option.some.injEq] at hcy
      obtain ⟨u, hu, ih⟩ := ih hcy hn
      obtain rfl : u = w' := hu.unique hw'
      obtain ⟨z, t', hz, hr', hdz⟩ := ih n v' r hn' hv' hag
      obtain ⟨m'', hsteps, hstop⟩ := (grow_eq_ok hg').1 hz
      exact ⟨z, t', (grow_eq_ok hg').2 ⟨m'', .head hy hsteps, hstop⟩, hr', hdz⟩

end Steady

end Parser

end CultureLint
