import CultureLint.Proofs.Parser.Mirror

/-! The `using` lines of a document: where they stand, and how they follow a change. -/

namespace CultureLint

open CultureLint.Parser CultureLint.Grammar

/-! ### Reading whatever follows -/

namespace Parser

variable {α β : Type} [Bare α] [Bare β]

/-- The tokens are enough to tell texts that begin with them from others. -/
def Marked (w : List Token) : Prop := ∀ v r r', Alike w v → Agree (w ++ r) (v ++ r')

theorem Marked.of_plain {t : Token} (h : t.isPlain = true) (w : List Token) : Marked (t :: w) := by
  intro v r r' hv
  obtain ⟨t', v', rfl, ht, -⟩ := Alike.cons_left.1 hv
  exact .plain ht h

theorem Marked.append_left {w : List Token} (h : Marked w) (u : List Token) : Marked (u ++ w) := by
  intro v r r' hv
  obtain ⟨a, b, rfl, ha, hb⟩ := Alike.append_left.1 hv
  rw [List.append_assoc, List.append_assoc]
  exact (h b r r' hb).append ha

/-- What `p` reads with such a result, `q` reads where the same words stand, whatever follows. -/
def Settled (P : α → Prop) (p q : Parser α) : Prop :=
  ∀ s x s', p s = .ok (x, s') → P x → ∃ w, Took s w s' ∧ Marked w ∧
    ∀ t v r, t.rest = v ++ r → Alike w v → ∃ y t', q t = .ok (y, t') ∧ t'.rest = r ∧ bare x = bare y

namespace Settled

variable {P : α → Prop} {Q : β → Prop} {p p' : Parser α}

theorem bind {f f' : α → Parser β} (hp : Steady p p')
    (hf : ∀ a b, bare a = bare b → Settled Q (f a) (f' b)) : Settled Q (p >>= f) (p' >>= f') := by
  intro s x s' hs hx
  obtain ⟨⟨a, m⟩, ha, hxs⟩ := bind_eq_ok.1 hs
  obtain ⟨w, hw, hp⟩ := hp s a m ha
  obtain ⟨w', hw', hmark, -⟩ := hf a a rfl m x s' hxs hx
  refine ⟨w ++ w', hw.trans hw', hmark.append_left w, fun t v r hr hv => ?_⟩
  obtain ⟨v, v', rfl, hv, hv'⟩ := Alike.append_left.1 hv
  obtain ⟨b, n, hb, hn, hab⟩ := hp t v (v' ++ r) (by rw [hr, List.append_assoc]) hv
    (by rw [hw'.rest]; exact hmark v' _ _ hv')
  obtain ⟨u, hu, -, hf⟩ := hf a b hab m x s' hxs hx
  obtain rfl : u = w' := hu.unique hw'
  obtain ⟨y, t', hy, hr', hxy⟩ := hf n v' r hn hv'
  exact ⟨y, t', bind_eq_ok.2 ⟨_, hb, hy⟩, hr', hxy⟩

theorem map {f f' : α → β} (hp : Settled P p p') (hP : ∀ a, Q (f a) → P a)
    (hf : ∀ a b, bare a = bare b → bare (f a) = bare (f' b)) : Settled Q (f <$> p) (f' <$> p') := by
  intro s x s' hs hx
  simp only [map_eq_ok, Prod.mk.injEq] at hs
  obtain ⟨⟨a, m⟩, ha, rfl, rfl⟩ := hs
  obtain ⟨w, hw, hmark, hp⟩ := hp s a _ ha (hP a hx)
  refine ⟨w, hw, hmark, fun t v r hr hv => ?_⟩
  obtain ⟨b, n, hb, hn, hab⟩ := hp t v r hr hv
  exact ⟨f' b, n, map_eq_ok.2 ⟨_, hb, rfl⟩, hn, hf a b hab⟩

theorem ite {c : Prop} [Decidable c] {q q' : Parser α} (hp : c → Settled P p p')
    (hq : ¬ c → Settled P q q') : Settled P (if c then p else q) (if c then p' else q') := by
  split
  · exact hp ‹_›
  · exact hq ‹_›

theorem when {c : Bool} {q q' : Parser Unit} (hq : Steady q q') (hp : Settled P p p') :
    Settled P (if c then q >>= fun _ => p else p) (if c then q' >>= fun _ => p' else p') :=
  .ite (fun _ => .bind hq fun _ _ _ => hp) fun _ => hp

/-- A last mark, behind which nothing is read any more. -/
theorem expectPunct {c : String} (hc : Token.isPlain ⟨0, .punctuation, c, 0⟩ = true)
    {make make' : Span → α} {start start' : Nat} (hmake : ∀ a b, bare (make a) = bare (make' b)) :
    Settled P (expectPunct c >>= fun _ => spanFrom start >>= fun span => pure (make span))
      (expectPunct c >>= fun _ => spanFrom start' >>= fun span => pure (make' span)) := by
  intro s x s' hs _
  obtain ⟨⟨_, m⟩, hm, hs⟩ := bind_eq_ok.1 hs
  simp only [bind_eq_ok, spanFrom_eq_ok, pure_eq_ok, Prod.exists, Prod.mk.injEq] at hs
  obtain ⟨_, _, ⟨rfl, rfl⟩, rfl, rfl⟩ := hs
  obtain ⟨t, ht, hw⟩ := took_punct hm
  have htp : t.isPlain = true := by
    simp only [Token.isPunct, Bool.and_eq_true, beq_iff_eq] at ht
    rw [← hc]
    simp [Token.isPlain, Token.isIdentifier, Token.isPunct, ht.1, ht.2]
  refine ⟨[t], hw, .of_plain htp [], fun n v r hr hv => ?_⟩
  obtain ⟨t', v', rfl, htt, hv'⟩ := Alike.cons_left.1 hv
  obtain rfl := Alike.nil_left.1 hv'
  have ht' : t'.isPunct c = true := (Token.congr htt (·.isPunct c) fun _ => rfl) ▸ ht
  have hn : Parser.expectPunct c n = .ok ((), n.advance) := by
    simp [expectPunct_eq_ok, Cursor.first?, hr, ht']
  refine ⟨make' (Span.upTo start' n.advance.previousEnd), n.advance, bind_eq_ok.2 ⟨_, hn, ?_⟩,
    by simp [Cursor.advance, hr], hmake _ _⟩
  exact bind_eq_ok.2 ⟨_, spanFrom_eq_ok.2 rfl, rfl⟩

end Settled

end Parser

/-- A `using` line is read whatever stands behind it. -/
theorem settled_using? : Settled (·.isSome = true) using? using? := by
  refine .bind .offset fun start start' _ => ?_
  refine .bind (.at2? (fun _ => rfl) (fun _ => rfl) fun t h => Token.spells_of_isPlain h _)
    fun isGlobal isGlobal' hg => ?_
  obtain rfl : isGlobal = isGlobal' := hg
  refine .when .advance (.bind .eatKeyword fun b b' hb => ?_)
  obtain rfl : b = b' := hb
  refine .ite (fun _ => ?_) fun _ => ?_
  · refine .map (P := fun _ => True) ?_ (fun _ _ => trivial) fun _ _ => congrArg some
    refine .bind .eatKeyword fun a a' ha => .bind .usingAlias? fun i i' hi => ?_
    refine .bind .qualifiedName fun n n' hn => .expectPunct (by decide) fun _ _ => ?_
    simp only [bare, id] at *
    simp [ha, hi, hn]
  · intro s x s' hs hx
    simp only [pure_eq_ok, Prod.mk.injEq] at hs
    simp [hs.1] at hx

/-! ### One line -/

/-- The rest of a line ends with a semicolon. -/
theorem usingLine_eq_ok {start : Nat} {isGlobal : Bool} {s s' : Cursor} {u : Using}
    (h : Parser.usingLine start isGlobal s = .ok (u, s')) : u.span = Span.upTo start s'.previousEnd ∧
      u.isGlobal = isGlobal ∧ ∃ r t, Took s (r ++ [t]) s' ∧ t.isPunct ";" = true := by
  simp only [Parser.usingLine, bind_eq_ok, spanFrom_eq_ok, pure_eq_ok, Prod.exists, Prod.mk.injEq] at h
  obtain ⟨b, s₁, h₁, a, s₂, h₂, n, s₃, h₃, _, s₄, h₄, _, _, ⟨rfl, rfl⟩, rfl, rfl⟩ := h
  obtain ⟨w₁, hw₁, -⟩ := (Takes.eat fun _ _ => trivial : Forward (eatKeyword "static")) _ _ _ h₁
  obtain ⟨w₂, hw₂, -⟩ := forward_usingAlias? _ _ _ h₂
  obtain ⟨w₃, hw₃, -⟩ := takes_qualifiedName _ _ _ h₃
  obtain ⟨t, ht, hw₄⟩ := took_punct h₄
  exact ⟨rfl, rfl, w₁ ++ (w₂ ++ w₃), t, by simpa using hw₁.trans (hw₂.trans (hw₃.trans hw₄)), ht⟩

/-- A `using` line spans its tokens, and where there is none nothing is taken. -/
theorem using?_eq_ok {s s' : Cursor} {u : Option Using} (h : using? s = .ok (u, s')) :
    (u = none ∧ s' = s) ∨ ∃ line w, u = some line ∧ Took s w s' ∧ LineTokens line w ∧
      line.span = Span.upTo s.offset s'.previousEnd := by
  -- the word itself and the rest of the line, from where the line may have begun before the word
  have line {isGlobal : Bool} {v : List Token} {m : Cursor} (hv : Took s v m)
      (hglobal : isGlobal = false → v = [])
      (h : (eatKeyword "using" >>= fun b => if b = true then some <$> Parser.usingLine s.offset isGlobal
        else pure none) m = .ok (u, s')) :
      (u = none ∧ s' = m ∧ m.first?.any (·.isKeyword "using") = false) ∨
      ∃ line w, u = some line ∧ Took s w s' ∧ LineTokens line w ∧
        line.span = Span.upTo s.offset s'.previousEnd := by
    obtain ⟨t, r, hr, ht, h⟩ | ⟨hno, h⟩ := ifEatKeyword_eq_ok.1 h
    · simp only [map_eq_ok, Prod.mk.injEq] at h
      obtain ⟨⟨line, m'⟩, hl, rfl, rfl⟩ := h
      obtain ⟨hspan, hg, w, semi, hw, hsemi⟩ := usingLine_eq_ok hl
      refine .inr ⟨line, v ++ ([t] ++ (w ++ [semi])), rfl, hv.trans ((Took.advance hr).trans hw), ?_, hspan⟩
      refine ⟨fun hng => ⟨t, w ++ [semi], ?_, ht⟩, ⟨v ++ t :: w, semi, by simp, hsemi⟩, by simp; omega⟩
      rw [hglobal (hg.symm.trans hng)]
      rfl
    · simp only [pure_eq_ok, Prod.mk.injEq] at h
      exact .inl ⟨h.1, h.2, hno⟩
  simp only [using?, offset_bind, at2?, ask_bind] at h
  split at h
  · rename_i hg
    obtain ⟨t, -, hw⟩ := took_first (Bool.and_eq_true_iff.1 hg).1
    obtain ⟨-, -, hno⟩ | hl := line hw (fun hf => by rw [hf] at hg; simp at hg) h
    · have := (Bool.and_eq_true_iff.1 hg).2
      simp only [Cursor.second?, Cursor.first?, Cursor.rest_advance] at this hno
      rw [hno] at this
      exact Bool.noConfusion this
    · exact .inr hl
  · obtain ⟨rfl, rfl, -⟩ | hl := line (.refl s) (fun _ => rfl) h
    · exact .inl ⟨rfl, rfl⟩
    · exact .inr hl

/-! ### All lines -/

/-- The `using` lines stand one behind the other. -/
theorem lines_usings {s s' : Cursor} {us : List Using} (h : Parser.usings s = .ok (us, s'))
    (ho : Ordered s.rest) : ∃ w, Took s w s' ∧ Lines w us := by
  replace h := (many_eq_ok progresses_using?).1 h
  induction h with
  | stop h =>
    obtain ⟨-, rfl⟩ | ⟨_, _, h, -⟩ := using?_eq_ok h
    · exact ⟨[], .refl _, .nil⟩
    · simp at h
  | next h _ ih =>
    obtain ⟨h, -⟩ | ⟨line, v, h, hv, hne, hspan⟩ := using?_eq_ok h
    · simp at h
    · obtain rfl := Option.some.inj h
      obtain ⟨w, hw, hlines⟩ := ih (hv.ordered ho)
      exact ⟨v ++ w, hv.trans hw, .cons hne (hspan ▸ hv.placed ho 0) hlines⟩

/-- A change that has to do with no `using` lines. -/
theorem mirrors_usings {c : Change} (hc : c.Local) (hown : ∀ us, ¬ c.owns (.usings us))
    (hid : c.usings = id) (bound : Nat) :
    Mirrors c bound Agree Agree [] [] Parser.usings Parser.usings := by
  intro s us s' hs ho
  obtain ⟨w, hw, hlines⟩ := lines_usings hs ho
  obtain ⟨v, hv, hsteady⟩ := Steady.usings s us s' hs
  obtain rfl := hv.unique hw
  refine ⟨v, [.usings us], rfl, hw, .single (p := .usings us) hlines, .nil, fun hfit hF => ?_⟩
  have hout : c.Outside v := by
    obtain h | ⟨p, hp, h⟩ := hfit
    · exact h
    · obtain rfl := List.mem_singleton.1 hp
      exact absurd h (hown us)
  have hts : c.tokens s.rest = v ++ c.tokens s'.rest := by
    rw [hw.rest, c.tokens_append, hc.tokens_outside hout]
  rw [hts]
  refine ⟨by rw [hw.rest]; exact hF.append (.refl v), fun t ht _ => ?_⟩
  obtain ⟨v', r, hr, hvv, hrr⟩ := ht.append_left
  obtain ⟨y, t', hy, ht', hb⟩ := hsteady t v' r hr hvv.alike (hF.trans_alike hrr.alike)
  refine ⟨y, t', [.usings y], hy, by rwa [ht'], ?_, rfl, .cons (.usings us y) .nil⟩
  change bare (c.usings us) = bare y
  rw [hid]
  exact hb

end CultureLint
