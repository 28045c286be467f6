import CultureLint.Proofs.Parser.Change
import CultureLint.Proofs.Parser.Complete

/-! Reading a document before and after a change. `Mirrors` relates a parser that reads the tokens of
the document to one that reads what the change makes of them: the second reads just as far, and gives
what the change makes of the tree. Besides it says where the parts of the tree stand. The relation is
closed under the combinators, so that each rule of the grammar has it by the way it is written.

Right before the changed expression the two texts differ already in the next token, and a rule that
looked ahead there might go astray. So the relation carries what it needs to know of the texts behind it
(`F`) and what it lets one know of the texts before it (`G`). -/

namespace CultureLint

open CultureLint.Parser

@[simp] theorem Cursor.nextId_advance (s : Cursor) : s.advance.nextId = s.nextId := by
  unfold Cursor.advance
  split <;> rfl

/-! ### How two texts begin -/

/-- Texts of which nothing is known. -/
def Any (_ _ : List Token) : Prop := True

/-- Texts that agree at their beginning, or both begin with a token that opens an expression. -/
def Near (r r' : List Token) : Prop :=
  Agree r r' ∨ r.head?.any Spelled.opens = true ∧ r'.head?.any Spelled.opens = true

/-- In texts that are so related a test of the next token has the same result. -/
def Tells (G : List Token → List Token → Prop) (f : Token → Bool) : Prop :=
  ∀ r r', G r r' → r.head?.any f = r'.head?.any f

theorem Tells.agree {f : Token → Bool} (hf : ∀ t, f (bare t) = f t) : Tells Agree f :=
  fun _ _ h => h.any_head hf

theorem any_eq_false_of_opens {r : List Token} {f : Token → Bool}
    (hf : ∀ t, Spelled.opens t = true → f t = false) (h : r.head?.any Spelled.opens = true) :
    r.head?.any f = false := by
  cases ha : r.head? with
  | none => rfl
  | some a =>
    rw [ha, Option.any_some] at h
    exact hf a h

theorem Tells.near {f : Token → Bool} (hf : ∀ t, f (bare t) = f t)
    (ho : ∀ t, Spelled.opens t = true → f t = false) : Tells Near f := by
  rintro r r' (h | ⟨h, h'⟩)
  · exact h.any_head hf
  · rw [any_eq_false_of_opens ho h, any_eq_false_of_opens ho h']

theorem Tells.near_isPunct {mark : String} (h : Spelled.opens ⟨0, .punctuation, mark, 0⟩ = false) :
    Tells Near (·.isPunct mark) :=
  near (fun _ => rfl) fun _ ht => Spelled.isPunct_of_opens ht h

theorem Tells.near_isKeyword {word : String} (h : Spelled.opens ⟨0, .keyword, word, 0⟩ = false) :
    Tells Near (·.isKeyword word) :=
  near (fun _ => rfl) fun _ ht => Spelled.isKeyword_of_opens ht h

theorem Agree.trans_alike {r r' r'' : List Token} (h : Agree r r') (ha : Alike r' r'') :
    Agree r r'' := by
  obtain h | ⟨a, u, a', u', rfl, rfl, haa, hp⟩ := h
  · have h' : Alike (r'.take 2) (r''.take 2) := by
      change List.map bare _ = List.map bare _
      rw [List.map_take, List.map_take]
      exact congrArg _ ha
    exact .inl (Eq.trans h h')
  · obtain ⟨b, v, rfl, hb, -⟩ := Alike.cons_left.1 ha
    exact .plain (haa.trans hb) hp

theorem Agree.isEmpty_eq {r r' : List Token} (h : Agree r r') : r.isEmpty = r'.isEmpty := by
  have := h.head
  cases r <;> cases r' <;> simp_all

theorem Near.isEmpty_eq {r r' : List Token} (h : Near r r') : r.isEmpty = r'.isEmpty := by
  obtain h | ⟨h, h'⟩ := h
  · exact h.isEmpty_eq
  · cases r <;> cases r' <;> simp_all

/-! ### The relation -/

namespace Parser

variable {α β : Type} [Bare α] [Outline α] [Bare β] [Outline β]

/-- A run, its tokens and the parts that stand in them, and the run after the change: it exists wherever
there are fewer tokens than the bound. -/
structure Mirrored (c : Change) (bound : Nat) (F G : List Token → List Token → Prop) (before' : List Part)
    (s : Cursor) (x : α) (s' : Cursor) (q : Parser α) (w : List Token) (ps : List Part) : Prop where
  took : Took s w s'
  laid : Laid w ps
  numbered : Numbered s.nextId s'.nextId (Part.exprs ps)
  mirror : c.Fits w ps → F s'.rest (c.tokens s'.rest) → G s.rest (c.tokens s.rest) ∧
    ∀ t, c.Seen (c.tokens s.rest) t.rest → t.rest.length < bound →
      ∃ y t' qs, q t = .ok (y, t') ∧ c.Seen (c.tokens s'.rest) t'.rest ∧ bare (c.apply x) = bare y ∧
        parts y = before' ++ qs ∧ List.Forall₂ c.Meets ps qs

/-- What `p` reads, `q` reads after the change; the parts of the results are those given, which were read
before, and those that stand in the tokens. -/
def Mirrors (c : Change) (bound : Nat) (F G : List Token → List Token → Prop) (before before' : List Part)
    (p q : Parser α) : Prop :=
  ∀ s x s', p s = .ok (x, s') → Ordered s.rest →
    ∃ w ps, parts x = before ++ ps ∧ Mirrored c bound F G before' s x s' q w ps

namespace Mirrors

variable {c : Change} {bound : Nat} {F F' G G' M : List Token → List Token → Prop}
variable {before before' : List Part} {p p' q q' : Parser α}

theorem mono (h : Mirrors c bound F G before before' p q) {bound' : Nat} (hb : bound' ≤ bound)
    (hF : ∀ r r', F' r r' → F r r') (hG : ∀ r r', G r r' → G' r r') :
    Mirrors c bound' F' G' before before' p q := by
  intro s x s' hs ho
  obtain ⟨w, ps, hx, hm⟩ := h s x s' hs ho
  refine ⟨w, ps, hx, hm.took, hm.laid, hm.numbered, fun hf hF' => ?_⟩
  obtain ⟨hG', hq⟩ := hm.mirror hf (hF _ _ hF')
  exact ⟨hG _ _ hG', fun t ht hlt => hq t ht (Nat.lt_of_lt_of_le hlt hb)⟩

theorem toNear (h : Mirrors c bound F Agree before before' p q) : Mirrors c bound F Near before before' p q :=
  h.mono (Nat.le_refl _) (fun _ _ h => h) fun _ _ => .inl

theorem ofNear (h : Mirrors c bound Near G before before' p q) : Mirrors c bound Agree G before before' p q :=
  h.mono (Nat.le_refl _) (fun _ _ => .inl) fun _ _ h => h

/-- With no room for any token it does not matter what would read them. -/
theorem any_right (h : Mirrors c 0 F G before before' p q) (q' : Parser α) : Mirrors c 0 F G before before' p q' := by
  intro s x s' hs ho
  obtain ⟨w, ps, hps, hw⟩ := h s x s' hs ho
  refine ⟨w, ps, hps, hw.took, hw.laid, hw.numbered, fun hfit hF => ⟨(hw.mirror hfit hF).1, ?_⟩⟩
  exact fun t _ hlt => absurd hlt (Nat.not_lt_zero _)

theorem fail {e : Complaint} : Mirrors c bound F G before before' (fail e : Parser α) q := by
  intro s x s' hs
  simp at hs

/-- A parser that takes nothing. -/
theorem idle (h : ∀ s x s', p s = .ok (x, s') → s' = s ∧ parts x = before ∧
      ∀ t, F s.rest (c.tokens s.rest) → Alike (c.tokens s.rest) t.rest →
        ∃ y, q t = .ok (y, t) ∧ bare (c.apply x) = bare y ∧ parts y = before') :
    Mirrors c bound F F before before' p q := by
  intro s x s' hs ho
  obtain ⟨rfl, hx, h⟩ := h s x s' hs
  refine ⟨[], [], by simp [hx], .refl s', .nil _, .nil, fun _ hF => ⟨hF, fun t ht _ => ?_⟩⟩
  obtain ⟨y, hy, hb, hparts⟩ := h t hF ht.alike
  exact ⟨y, t, [], hy, ht, hb, by simp [hparts], .nil⟩

theorem pure {a b : α} (ha : parts a = before) (hb : parts b = before') (h : bare (c.apply a) = bare b) :
    Mirrors c bound F F before before' (pure a : Parser α) (pure b) := by
  apply idle
  intro s x s' hs
  simp only [pure_eq_ok, Prod.mk.injEq] at hs
  obtain ⟨rfl, rfl⟩ := hs
  exact ⟨rfl, ha, fun t _ _ => ⟨b, by simp, h, hb⟩⟩

theorem ask {f g : Cursor → α} (hf : ∀ s, parts (f s) = []) (hg : ∀ s, parts (g s) = [])
    (h : ∀ s t : Cursor, F s.rest (c.tokens s.rest) → Alike (c.tokens s.rest) t.rest →
      bare (c.apply (f s)) = bare (g t)) : Mirrors c bound F F [] [] (ask f) (ask g) := by
  apply idle
  intro s x s' hs
  simp only [ask_eq_ok, Prod.mk.injEq] at hs
  obtain ⟨rfl, rfl⟩ := hs
  exact ⟨rfl, hf s', fun t hF ht => ⟨g t, by simp, h s' t hF ht, hg t⟩⟩

theorem offset : Mirrors c bound F F [] [] offset offset := ask (fun _ => rfl) (fun _ => rfl) fun _ _ _ _ => rfl

theorem spanFrom {a b : Nat} : Mirrors c bound F F [] [] (spanFrom a) (spanFrom b) :=
  ask (fun _ => rfl) (fun _ => rfl) fun _ _ _ _ => rfl

theorem at? {f : Token → Bool} (hf : ∀ t, f (bare t) = f t) (ht : Tells F f) :
    Mirrors c bound F F [] [] (at? f) (at? f) :=
  ask (fun _ => rfl) (fun _ => rfl) fun _ _ hF hst => (ht _ _ hF).trans ((Agree.of_alike hst).any_head hf)

theorem atEnd (hF : ∀ r r', F r r' → r.isEmpty = r'.isEmpty) :
    Mirrors c bound F F [] [] atEnd atEnd :=
  ask (fun _ => rfl) (fun _ => rfl) fun _ _ hs hst => (hF _ _ hs).trans (Agree.of_alike hst).isEmpty_eq

theorem ite {b : Prop} [Decidable b] (hp : b → Mirrors c bound F G before before' p p')
    (hq : ¬ b → Mirrors c bound F G before before' q q') :
    Mirrors c bound F G before before' (if b then p else q) (if b then p' else q') := by
  split
  · exact hp ‹_›
  · exact hq ‹_›

/-! ### One parser behind another -/

theorem map {f f' : α → β} (hp : Mirrors c bound F G [] [] p p') (hf : ∀ a, parts (f a) = before ++ parts a)
    (hf' : ∀ a, parts (f' a) = before' ++ parts a)
    (h : ∀ a b, bare (c.apply a) = bare b → bare (c.apply (f a)) = bare (f' b)) :
    Mirrors c bound F G before before' (f <$> p) (f' <$> p') := by
  intro s x s' hs ho
  simp only [map_eq_ok, Prod.mk.injEq] at hs
  obtain ⟨⟨a, m⟩, ha, rfl, rfl⟩ := hs
  obtain ⟨w, ps, hx, hm⟩ := hp s a _ ha ho
  refine ⟨w, ps, by simp [hf, hx], hm.took, hm.laid, hm.numbered, fun hfit hF => ?_⟩
  obtain ⟨hG, hq⟩ := hm.mirror hfit hF
  refine ⟨hG, fun t ht hlt => ?_⟩
  obtain ⟨b, n, qs, hb, hn, hab, hqs, hmeets⟩ := hq t ht hlt
  exact ⟨f' b, n, qs, map_eq_ok.2 ⟨_, hb, rfl⟩, hn, h a b hab, by simp [hf', hqs], hmeets⟩

/-- What is read and put aside has no part in the result. -/
theorem discard (hp : Mirrors c bound F G [] [] p p') : Mirrors c bound F G [] []
    (p >>= fun _ => Pure.pure ()) (p' >>= fun _ => Pure.pure ()) := by
  intro s x s' hs ho
  simp only [bind_eq_ok, pure_eq_ok, Prod.mk.injEq] at hs
  obtain ⟨⟨a, m⟩, ha, -, rfl⟩ := hs
  obtain ⟨w, ps, -, hm⟩ := hp s a _ ha ho
  refine ⟨w, [], rfl, hm.took, .nil _, .nil, fun hfit hF => ?_⟩
  obtain ⟨hG, hq⟩ := hm.mirror (.inl hfit.outside) hF
  refine ⟨hG, fun t ht hlt => ?_⟩
  obtain ⟨b, n, -, hb, hn, -⟩ := hq t ht hlt
  exact ⟨(), n, [], bind_eq_ok.2 ⟨_, hb, by simp⟩, hn, rfl, rfl, .nil⟩

section

variable (hc : c.Local)
include hc

/-- A parser that holds nothing an edit could touch. -/
theorem steady [Inert α] (h : Steady p q) : Mirrors c bound Agree Agree [] [] p q := by
  intro s x s' hs ho
  obtain ⟨w, hw, h⟩ := h s x s' hs
  refine ⟨w, [], Inert.parts_eq x, hw, .nil _, .nil, fun hf hF => ?_⟩
  have hr : c.tokens s.rest = w ++ c.tokens s'.rest := by
    rw [hw.rest, c.tokens_append, hc.tokens_outside hf.outside]
  refine ⟨?_, fun t ht _ => ?_⟩
  · rw [hr, hw.rest]
    exact hF.append (.refl w)
  · rw [hr] at ht
    obtain ⟨v, r, hv, hwv, hr'⟩ := ht.append_left
    obtain ⟨y, t', hy, ht', hb⟩ := h t v r hv hwv.alike (hF.trans_alike hr'.alike)
    exact ⟨y, t', [], hy, by rwa [ht'], by rwa [Change.apply, Inert.map_eq], Inert.parts_eq y, .nil⟩

/-- One parser behind another; the bound for the second may be less by what the first takes. -/
theorem bindUpTo {bound' : Nat} {f f' : α → Parser β} (hp : Mirrors c bound M G [] [] p p')
    (hb : ∀ s a m w, p s = .ok (a, m) → Took s w m → c.Fits w (parts a) →
      bound ≤ bound' + (c.tokens w).length)
    (hf : ∀ a b, bare (c.apply a) = bare b → Mirrors c bound' F M (before ++ parts a) (before' ++ parts b) (f a) (f' b)) :
    Mirrors c bound F G before before' (p >>= f) (p' >>= f') := by
  intro s x s' hs ho
  simp only [bind_eq_ok] at hs
  obtain ⟨⟨a, m⟩, ha, hx⟩ := hs
  obtain ⟨w, ps, hps, hw⟩ := hp s a m ha ho
  obtain rfl : parts a = ps := by simpa using hps
  have hom : Ordered m.rest := hw.took.ordered ho
  obtain ⟨w', ps', hps', hw'⟩ := hf a _ rfl m x s' hx hom
  have hlaid := hw.laid.append hw'.laid
  refine ⟨w ++ w', parts a ++ ps', by simp [hps'], hw.took.trans hw'.took, hlaid, ?_, fun hfit hF => ?_⟩
  · rw [Part.exprs_append]
    exact hw.numbered.append hw'.numbered hw.took.nextId_le hw'.took.nextId_le
  have how := (hw.took.trans hw'.took).ordered_words ho
  obtain ⟨hfitw, hfit'⟩ := hc.fits_append hw.laid hw'.laid how hfit
  obtain ⟨hM, -⟩ := hw'.mirror hfit' hF
  obtain ⟨hG, hq⟩ := hw.mirror hfitw hM
  refine ⟨hG, fun t ht hlt => ?_⟩
  obtain ⟨b, n, rs, hb', hn, hab, hrs, hmeets⟩ := hq t ht hlt
  obtain rfl : parts b = rs := by simpa using hrs
  obtain ⟨v, qs, hqs, hv⟩ := hf a b hab m x s' hx hom
  obtain rfl : v = w' := hv.took.unique hw'.took
  obtain rfl : qs = ps' := List.append_cancel_left (hqs.symm.trans hps')
  have hlen : n.rest.length < bound' := by
    have := hb s a m w ha hw.took hfitw
    rw [← ht.length_eq, hw.took.rest, c.tokens_append, List.length_append] at hlt
    rw [← hn.length_eq]
    omega
  obtain ⟨y, t', rs', hy, ht', hxy, hrs', hmeets'⟩ := (hv.mirror hfit' hF).2 n hn hlen
  exact ⟨y, t', parts b ++ rs', bind_eq_ok.2 ⟨_, hb', hy⟩, ht', hxy, by simp [hrs'],
    List.rel_append hmeets hmeets'⟩

theorem bind {f f' : α → Parser β} (hp : Mirrors c bound M G [] [] p p')
    (hf : ∀ a b, bare (c.apply a) = bare b → Mirrors c bound F M (before ++ parts a) (before' ++ parts b) (f a) (f' b)) :
    Mirrors c bound F G before before' (p >>= f) (p' >>= f') :=
  bindUpTo hc hp (fun _ _ _ _ _ _ _ => Nat.le_add_right ..) hf

/-- Behind a token that is taken, the bound is one less. -/
theorem behind {s m s' : Cursor} {x : β} {t : Token} {q q' : Parser β} {w : List Token} {ps : List Part}
    (ht : Took s [t] m) (ho : Ordered s.rest) (hid : m.nextId = s.nextId)
    (h : Mirrored c (bound - 1) F M before' m x s' q w ps) (hpl : t.isPlain = true)
    (hq : ∀ (n : Cursor) u r, n.rest = u :: r → bare t = bare u → q' n = q n.advance) :
    Mirrored c bound F Agree before' s x s' q' (t :: w) ps := by
  have hr : s.rest = t :: m.rest := ht.rest
  refine ⟨ht.trans h.took, h.laid.append_left [t], hid ▸ h.numbered, fun hfit hF => ?_⟩
  have how : Ordered ([t] ++ w) := (ht.trans h.took).ordered_words ho
  obtain ⟨hout, hfit⟩ : c.Fits [t] [] ∧ c.Fits w ps := hc.fits_append (.nil [t]) h.laid how hfit
  have hts : c.tokens s.rest = t :: c.tokens m.rest := by
    rw [hr, hc.tokens_cons (hout.outside t (List.mem_singleton_self t))]
  obtain ⟨-, hrun⟩ := h.mirror hfit hF
  refine ⟨?_, fun n hn hlt => ?_⟩
  · rw [hts, hr]
    exact .plain rfl hpl
  · rw [hts] at hn
    obtain ⟨u, r, hur, htu, -, hr'⟩ := hn.cons_left
    have hadv : n.advance.rest = r := by simp [hur]
    obtain ⟨y, t', qs, hy, hrest⟩ := hrun n.advance (by rwa [hadv]) (by
      rw [hur, List.length_cons] at hlt
      rw [hadv]
      omega)
    exact ⟨y, t', qs, by rw [hq n u r hur htu, hy], hrest⟩

/-- A mark, and what is read behind it. -/
theorem expect {mark : String} (hm : mark ∉ [".", "?", "[", "partial", "async"])
    {f f' : Unit → Parser α} (hf : Mirrors c (bound - 1) F M before before' (f ()) (f' ())) :
    Mirrors c bound F Agree before before' (Parser.expectPunct mark >>= f)
      (Parser.expectPunct mark >>= f') := by
  intro s x s' hs ho
  simp only [bind_eq_ok, expectPunct_eq_ok] at hs
  obtain ⟨_, ⟨ht, rfl⟩, hx⟩ := hs
  obtain ⟨t, ht, hw⟩ := took_first ht
  obtain ⟨w, ps, hps, h⟩ := hf _ x s' hx (hw.ordered ho)
  refine ⟨t :: w, ps, hps, behind hc hw ho s.nextId_advance h (isPlain_of_isPunct ht hm) fun n u r hn hu => ?_⟩
  change Except.bind _ _ = _
  rw [expectPunct_run hn (by rw [← isPunct_congr hu, ht])]
  rfl

theorem expectPunct {mark : String} (hm : mark ∉ [".", "?", "[", "partial", "async"]) :
    Mirrors c bound F Agree [] [] (expectPunct mark) (expectPunct mark) := by
  have : Mirrors c bound F Agree [] [] (Parser.expectPunct mark >>= Pure.pure)
      (Parser.expectPunct mark >>= Pure.pure) := expect hc hm (.pure rfl rfl rfl)
  rwa [bind_pure] at this

/-- A choice by the next token, which is taken if it has the property. -/
theorem ifEat {f : Token → Bool} (hf : ∀ t, f (bare t) = f t) (hpl : ∀ t, f t = true → t.isPlain = true)
    (ht : Tells G f) (hG : ∀ r r', Agree r r' → G r r') (hp : Mirrors c (bound - 1) F M before before' p p')
    (hq : Mirrors c bound F G before before' q q') :
    Mirrors c bound F G before before' (eat f >>= fun b => if b = true then p else q)
      (eat f >>= fun b => if b = true then p' else q') := by
  intro s x s' hs ho
  obtain ⟨t, r, hr, hft, hx⟩ | ⟨hno, hx⟩ := ifEat_eq_ok.1 hs
  · obtain ⟨w, ps, hps, h⟩ := hp _ x s' hx ((Took.advance hr).ordered ho)
    have hq (n : Cursor) (u : Token) (r : List Token) (hn : n.rest = u :: r) (hu : bare t = bare u) :
        (eat f >>= fun b => if b = true then p' else q') n = p' n.advance := by
      have hfu : f u = true := by rw [← Token.congr hu f hf, hft]
      have heat : eat f n = .ok (true, n.advance) := eat_eq_ok.2 (by simp [Cursor.first?, hn, hfu])
      change Except.bind _ _ = _
      rw [heat]
      rfl
    have := behind hc (Took.advance hr) ho s.nextId_advance h (hpl t hft) hq
    refine ⟨t :: w, ps, hps, this.took, this.laid, this.numbered, fun hfit hF => ?_⟩
    obtain ⟨hA, hrun⟩ := this.mirror hfit hF
    exact ⟨hG _ _ hA, hrun⟩
  · obtain ⟨w, ps, hps, h⟩ := hq _ x s' hx ho
    refine ⟨w, ps, hps, h.took, h.laid, h.numbered, fun hfit hF => ?_⟩
    obtain ⟨hG, hrun⟩ := h.mirror hfit hF
    refine ⟨hG, fun t htt hlt => ?_⟩
    obtain ⟨y, t', qs, hy, hrest⟩ := hrun t htt hlt
    have hno' : t.first?.any f = false := by
      rw [← hno]
      exact ((ht _ _ hG).trans ((Agree.of_alike htt.alike).any_head hf)).symm
    exact ⟨y, t', qs, ifEat_eq_ok.2 (.inr ⟨hno', hy⟩), hrest⟩

/-- A choice by a mark, where the texts agree. -/
theorem ifPunct {mark : String} (hm : mark ∉ [".", "?", "[", "partial", "async"])
    (hp : Mirrors c (bound - 1) F M before before' p p') (hq : Mirrors c bound F Agree before before' q q') :
    Mirrors c bound F Agree before before' (eatPunct mark >>= fun b => if b = true then p else q)
      (eatPunct mark >>= fun b => if b = true then p' else q') :=
  ifEat hc (fun _ => rfl) (fun _ ht => isPlain_of_isPunct ht hm) (.agree fun _ => rfl)
    (fun _ _ h => h) hp hq

/-- A choice by a mark, where an expression may come next. -/
theorem ifPunctNear {mark : String} (hm : mark ∉ [".", "?", "[", "partial", "async"])
    (ho : Spelled.opens ⟨0, .punctuation, mark, 0⟩ = false)
    (hp : Mirrors c (bound - 1) F M before before' p p') (hq : Mirrors c bound F Near before before' q q') :
    Mirrors c bound F Near before before' (eatPunct mark >>= fun b => if b = true then p else q)
      (eatPunct mark >>= fun b => if b = true then p' else q') :=
  ifEat hc (fun _ => rfl) (fun _ ht => isPlain_of_isPunct ht hm) (.near_isPunct ho)
    (fun _ _ h => .inl h) hp hq

/-- A choice by a word, where an expression may come next. -/
theorem ifKeywordNear {word : String} (hw : word ∉ contextualModifiers)
    (ho : Spelled.opens ⟨0, .keyword, word, 0⟩ = false)
    (hp : Mirrors c (bound - 1) F M before before' p p') (hq : Mirrors c bound F Near before before' q q') :
    Mirrors c bound F Near before before' (eatKeyword word >>= fun b => if b = true then p else q)
      (eatKeyword word >>= fun b => if b = true then p' else q') :=
  ifEat hc (fun _ => rfl) (fun _ ht => isPlain_of_isKeyword ht hw) (.near_isKeyword ho)
    (fun _ _ h => .inl h) hp hq

/-- A choice by the next token, which is not taken. -/
theorem ifAt {f : Token → Bool} (hf : ∀ t, f (bare t) = f t) (ht : Tells G f)
    (hp : Mirrors c bound F G before before' p p') (hq : Mirrors c bound F G before before' q q') :
    Mirrors c bound F G before before' (Parser.at? f >>= fun b => if b = true then p else q)
      (Parser.at? f >>= fun b => if b = true then p' else q') :=
  bind hc (at? hf ht) fun a b hab => by
    obtain rfl : a = b := hab
    rw [show before ++ parts a = before from List.append_nil _, show before' ++ parts a = before' from List.append_nil _]
    exact .ite (fun _ => hp) fun _ => hq

/-- Something that holds no parts, and what is read behind it. -/
theorem inert [Inert α] {f f' : α → Parser β} (hp : Mirrors c bound M G [] [] p p')
    (hf : ∀ a b, bare a = bare b → Mirrors c bound F M before before' (f a) (f' b)) :
    Mirrors c bound F G before before' (p >>= f) (p' >>= f') :=
  bind hc hp fun a b hab => by
    rw [Inert.parts_eq, Inert.parts_eq, List.append_nil, List.append_nil]
    rw [Change.apply, Inert.map_eq] at hab
    exact hf a b hab

/-- Something an edit cannot touch, and what is read behind it. -/
theorem past [Inert α] {f f' : α → Parser β} (hp : Steady p p')
    (hf : ∀ a b, bare a = bare b → Mirrors c bound F Agree before before' (f a) (f' b)) :
    Mirrors c bound F Agree before before' (p >>= f) (p' >>= f') := inert hc (steady hc hp) hf

omit [Bare α] in
/-- Something an edit cannot touch that takes a token takes one after the change. -/
theorem pred_bound [Inert α] (ha : Advances p) (s : Cursor) (a : α) (m : Cursor) (w : List Token)
    (hs : p s = .ok (a, m)) (hw : Took s w m) (hf : c.Fits w (parts a)) :
    bound ≤ bound - 1 + (c.tokens w).length := by
  rw [Inert.parts_eq] at hf
  obtain ⟨v, hv, hne⟩ := ha s a m hs
  have := List.length_pos_iff.2 (hw.unique hv ▸ hne)
  rw [hc.tokens_outside hf.outside]
  omega

/-- The same where a token is taken, so that the bound is one less. -/
theorem pastToken [Inert α] {f f' : α → Parser β} (hp : Steady p p') (ha : Advances p)
    (hf : ∀ a b, bare a = bare b → Mirrors c (bound - 1) F Agree before before' (f a) (f' b)) :
    Mirrors c bound F Agree before before' (p >>= f) (p' >>= f') := by
  refine bindUpTo hc (steady hc hp) (pred_bound hc ha) fun a b hab => ?_
  rw [Inert.parts_eq, Inert.parts_eq, List.append_nil, List.append_nil]
  rw [Change.apply, Inert.map_eq] at hab
  exact hf a b hab

/-- The span of what was read, and what is made of it. -/
theorem spanned {a b : Nat} {f f' : Span → α} (hf : ∀ span, parts (f span) = before)
    (hf' : ∀ span, parts (f' span) = before')
    (h : ∀ span span', bare (c.apply (f span)) = bare (f' span')) :
    Mirrors c bound F F before before' (Parser.spanFrom a >>= fun span => Pure.pure (f span))
      (Parser.spanFrom b >>= fun span => Pure.pure (f' span)) :=
  bind hc spanFrom fun span span' _ =>
    pure ((hf span).trans (List.append_nil _).symm) ((hf' span').trans (List.append_nil _).symm) (h span span')

/-- What is read behind something that is tried and found mirrors if it does so behind something that is
just read. -/
theorem tried {r : Parser (Option β)} {f f' : β → Parser α} {q' : Parser α} {s m s' : Cursor} {a : β}
    {x : α} (hr : Mirrors c bound M G [] [] r r)
    (hf : ∀ a b, bare (c.apply a) = bare b → Mirrors c bound F M (before ++ parts a) (before' ++ parts b) (f a) (f' b))
    (ha : r s = .ok (some a, m)) (hx : f a m = .ok (x, s')) (ho : Ordered s.rest)
    (hq : ∀ b (t n : Cursor), r t = .ok (some b, n) → q' t = f' b n) :
    ∃ w ps, parts x = before ++ ps ∧ Mirrored c bound F G before' s x s' q' w ps := by
  -- where nothing is found, a parser that fails would be wrong only after the fact
  have hall : Mirrors c bound F G before before' (r >>= fun a => a.elim (Parser.fail .expectedType) f)
      (r >>= fun a => a.elim (Parser.fail .expectedType) f') := by
    refine bind hc hr fun a b hab => ?_
    cases a <;> cases b <;> simp [Change.apply] at hab
    · exact fail
    · exact hf _ _ hab
  obtain ⟨w, ps, hps, hm⟩ := hall s x s' (bind_eq_ok.2 ⟨_, ha, hx⟩) ho
  refine ⟨w, ps, hps, hm.took, hm.laid, hm.numbered, fun hfit hF => ?_⟩
  obtain ⟨hG, hrun⟩ := hm.mirror hfit hF
  refine ⟨hG, fun t ht hlt => ?_⟩
  obtain ⟨y, t', qs, hy, hrest⟩ := hrun t ht hlt
  obtain ⟨⟨b, n⟩, hb, hy⟩ := bind_eq_ok.1 hy
  cases b with
  | none => simp at hy
  | some b => exact ⟨y, t', qs, by rwa [hq b t n hb], hrest⟩

/-! ### Repetition -/

theorem afterComma (hp : Mirrors c (bound - 1) Agree M [] [] p p') :
    Mirrors c bound Agree Agree [] [] (afterComma p) (afterComma p') :=
  ifPunct hc (by decide) (hp.map (fun _ => rfl) (fun _ => rfl) fun _ _ h => congrArg some h) (pure rfl rfl rfl)

theorem many {p p' : Parser (Option α)} (hp : Mirrors c bound G G [] [] p p') (hg : Progresses p)
    (hg' : Progresses p') : Mirrors c bound G G [] [] (many p) (many p') := by
  intro s xs s' hs
  rw [many_eq_ok hg] at hs
  induction hs with
  | @stop s s' h =>
    intro ho
    obtain ⟨w, ps, hps, hm⟩ := hp s none s' h ho
    obtain rfl : ps = [] := by simpa using hps.symm
    refine ⟨w, [], rfl, hm.took, hm.laid, hm.numbered, fun hfit hF => ?_⟩
    obtain ⟨hG, hrun⟩ := hm.mirror hfit hF
    refine ⟨hG, fun t ht hlt => ?_⟩
    obtain ⟨y, t', -, hy, ht', hb, -⟩ := hrun t ht hlt
    cases y with
    | some y => simp [Change.apply] at hb
    | none => exact ⟨[], t', [], (many_eq_ok hg').2 (.stop hy), ht', rfl, rfl, .nil⟩
  | @next s m s' a as h _ ih =>
    intro ho
    obtain ⟨w, ps, hps, hm⟩ := hp s (some a) m h ho
    obtain rfl : parts a = ps := by simpa using hps
    have hom : Ordered m.rest := hm.took.ordered ho
    obtain ⟨w', ps', hps', hm'⟩ := ih hom
    refine ⟨w ++ w', parts a ++ ps', by simpa using hps', hm.took.trans hm'.took,
      hm.laid.append hm'.laid, ?_, fun hfit hF => ?_⟩
    · rw [Part.exprs_append]
      exact hm.numbered.append hm'.numbered hm.took.nextId_le hm'.took.nextId_le
    have how := (hm.took.trans hm'.took).ordered_words ho
    obtain ⟨hfit, hfit'⟩ := hc.fits_append hm.laid hm'.laid how hfit
    obtain ⟨hM, hrun'⟩ := hm'.mirror hfit' hF
    obtain ⟨hG, hrun⟩ := hm.mirror hfit hM
    refine ⟨hG, fun t ht hlt => ?_⟩
    obtain ⟨b, n, rs, hb, hn, hab, hrs, hmeets⟩ := hrun t ht hlt
    have hle : n.rest.length ≤ t.rest.length := by
      rw [← hn.length_eq, ← ht.length_eq, hm.took.rest, c.tokens_append, List.length_append]
      omega
    obtain ⟨ys, t', rs', hy, ht', hxy, hrs', hmeets'⟩ := hrun' n hn (Nat.lt_of_le_of_lt hle hlt)
    cases b with
    | none => simp [Change.apply] at hab
    | some b =>
      obtain rfl : parts b = rs := by simpa using hrs
      refine ⟨b :: ys, t', parts b ++ rs', (many_eq_ok hg').2 (.next hb ((many_eq_ok hg').1 hy)), ht', ?_,
        by simp [hrs'], List.rel_append hmeets hmeets'⟩
      simp only [Change.apply, map_some, bare_some, Option.some.injEq] at hab hxy ⊢
      simp [hab, hxy]

theorem commaList (hp : Mirrors c bound Agree G [] [] p p') (hp' : Mirrors c (bound - 1) Agree G [] [] p p')
    (hg : Forward p) (hg' : Forward p') : Mirrors c bound Agree G [] [] (commaList p) (commaList p') :=
  bind hc hp fun _ _ ha => bind hc (many hc (afterComma hc hp') (progresses_afterComma hg)
    (progresses_afterComma hg')) fun _ _ has => pure rfl rfl (congrArg₂ List.cons ha has)

end

end Mirrors

end Parser

end CultureLint
