import CultureLint.Proofs.Parser.MirrorDecl

/-! Where namespaces and types stand among the tokens, before a change and after it. A change moves what
stands behind its zone, so that the spans of a tree cannot be told from those of the tree before. `Twins`
relates the two trees with their tokens, stretch by stretch. -/

namespace CultureLint

open CultureLint.Parser CultureLint.Grammar

/-! ### Two runs side by side -/

namespace Parser

variable {α β : Type} [Bare α] [Outline α] [Bare β] [Outline β]

/-- A run and a run after the change, which begin at the same place. -/
structure SideBySide (c : Change) (bound : Nat) (F : List Token → List Token → Prop) (before before' : List Part)
    (p q : Parser α) (s : Cursor) (x : α) (s' t : Cursor) (y : α) (t' : Cursor) : Prop where
  left : p s = .ok (x, s')
  right : q t = .ok (y, t')
  ordered : Ordered s.rest
  seen : c.Seen (c.tokens s.rest) t.rest
  short : t.rest.length < bound
  fits : ∃ w ps, Took s w s' ∧ parts x = before ++ ps ∧ c.Fits w ps
  behind : F s'.rest (c.tokens s'.rest)

namespace SideBySide

variable {c : Change} {bound bound' : Nat} {F G M : List Token → List Token → Prop}
variable {before before' : List Part} {p q : Parser α} {s s' t t' : Cursor} {x y : α}

/-- The second run gives what the first does, at the same place. -/
theorem mirrors (h : SideBySide c bound F before before' p q s x s' t y t')
    (hp : Mirrors c bound F G before before' p q) :
    c.Seen (c.tokens s'.rest) t'.rest ∧ bare (c.apply x) = bare y ∧ G s.rest (c.tokens s.rest) := by
  obtain ⟨w, ps, hw, hps, hfit⟩ := h.fits
  obtain ⟨v, qs, hqs, hm⟩ := hp s x s' h.left h.ordered
  obtain rfl := hm.took.unique hw
  obtain rfl : qs = ps := List.append_cancel_left (hqs.symm.trans hps)
  obtain ⟨hG, hrun⟩ := hm.mirror hfit h.behind
  obtain ⟨y', n, -, hy, hn, hxy, -⟩ := hrun t h.seen h.short
  obtain ⟨rfl, rfl⟩ := Prod.mk.inj (Except.ok.inj (hy.symm.trans h.right))
  exact ⟨hn, hxy, hG⟩

/-- The tokens that are taken before and after the change. -/
theorem words (h : SideBySide c bound F before before' p q s x s' t y t')
    (hp : Mirrors c bound F G before before' p q) (hq : Forward q) :
    ∃ w w', Took s w s' ∧ Took t w' t' ∧ Alike (c.tokens w) w' := by
  obtain ⟨w, -, hw, -⟩ := h.fits
  obtain ⟨w', hw', -⟩ := hq t y t' h.right
  refine ⟨w, w', hw, hw', ?_⟩
  have hall := h.seen.alike
  rw [hw.rest, hw'.rest, c.tokens_append] at hall
  obtain ⟨v, r, hvr, hv, hr⟩ := Alike.append_left.1 hall
  have hlen : r.length = t'.rest.length := hr.length_eq.symm.trans (h.mirrors hp).1.alike.length_eq
  obtain ⟨rfl, -⟩ := List.append_inj' hvr hlen.symm
  exact hv

/-- Runs of parsers that stand behind one another come apart at the same place. -/
theorem bindUpTo {f f' : α → Parser β} {x y : β}
    (h : SideBySide c bound F before before' (p >>= f) (q >>= f') s x s' t y t') (hc : c.Local)
    (hp : Mirrors c bound M G [] [] p q)
    (hb : ∀ s a m w, p s = .ok (a, m) → Took s w m → c.Fits w (parts a) →
      bound ≤ bound' + (c.tokens w).length)
    (hf : ∀ a b, bare (c.apply a) = bare b → Mirrors c bound' F M (before ++ parts a) (before' ++ parts b) (f a) (f' b)) :
    ∃ a m b n, SideBySide c bound M [] [] p q s a m t b n ∧
      SideBySide c bound' F (before ++ parts a) (before' ++ parts b) (f a) (f' b) m x s' n y t' ∧
      bare (c.apply a) = bare b := by
  obtain ⟨⟨a, m⟩, ha, hx⟩ := bind_eq_ok.1 h.left
  obtain ⟨⟨b, n⟩, hb', hy⟩ := bind_eq_ok.1 h.right
  obtain ⟨w, ps, hw, hps, hfit⟩ := h.fits
  obtain ⟨v, qs, hqs, hv⟩ := hp s a m ha h.ordered
  obtain rfl : parts a = qs := by simpa using hqs
  have hom : Ordered m.rest := hv.took.ordered h.ordered
  obtain ⟨v', qs', hqs', hv'⟩ := hf a _ rfl m x s' hx hom
  obtain rfl : w = v ++ v' := hw.unique (hv.took.trans hv'.took)
  obtain rfl : ps = parts a ++ qs' := by
    rw [hps, List.append_assoc] at hqs'
    exact List.append_cancel_left hqs'
  obtain ⟨hfitv, hfit'⟩ := hc.fits_append hv.laid hv'.laid (hw.ordered_words h.ordered) hfit
  have first : SideBySide c bound M [] [] p q s a m t b n :=
    ⟨ha, hb', h.ordered, h.seen, h.short, ⟨v, parts a, hv.took, rfl, hfitv⟩,
      (hv'.mirror hfit' h.behind).1⟩
  obtain ⟨hn, hab, -⟩ := first.mirrors hp
  refine ⟨a, m, b, n, first, ⟨hx, hy, hom, hn, ?_, ⟨v', qs', hv'.took, hqs', hfit'⟩, h.behind⟩, hab⟩
  have := hb s a m v ha hv.took hfitv
  have hlt := h.short
  rw [← h.seen.length_eq, hv.took.rest, c.tokens_append, List.length_append] at hlt
  rw [← hn.length_eq]
  omega

theorem bind {f f' : α → Parser β} {x y : β}
    (h : SideBySide c bound F before before' (p >>= f) (q >>= f') s x s' t y t') (hc : c.Local)
    (hp : Mirrors c bound M G [] [] p q)
    (hf : ∀ a b, bare (c.apply a) = bare b → Mirrors c bound F M (before ++ parts a) (before' ++ parts b) (f a) (f' b)) :
    ∃ a m b n, SideBySide c bound M [] [] p q s a m t b n ∧
      SideBySide c bound F (before ++ parts a) (before' ++ parts b) (f a) (f' b) m x s' n y t' ∧
      bare (c.apply a) = bare b :=
  h.bindUpTo hc hp (fun _ _ _ _ _ _ _ => Nat.le_add_right ..) hf

/-- Repetitions end together. -/
theorem many_nil {p q : Parser (Option α)} {ys : List α}
    (h : SideBySide c bound G [] [] (many p) (many q) s [] s' t ys t') (hc : c.Local)
    (hp : Mirrors c bound G G [] [] p q) (hg : Progresses p) (hg' : Progresses q) :
    ys = [] ∧ p s = .ok (none, s') ∧ q t = .ok (none, t') := by
  obtain ⟨-, hys, -⟩ := h.mirrors (.many hc hp hg hg')
  obtain rfl : ys = [] := by
    cases ys with
    | nil => rfl
    | cons y ys => simp [Change.apply] at hys
  cases (many_eq_ok hg).1 h.left with
  | stop hs =>
    cases (many_eq_ok hg').1 h.right with
    | stop ht => exact ⟨rfl, hs, ht⟩

/-- Repetitions go on together. -/
theorem many_cons {p q : Parser (Option α)} {xs ys : List α}
    (h : SideBySide c bound G [] [] (many p) (many q) s (x :: xs) s' t ys t') (hc : c.Local)
    (hp : Mirrors c bound G G [] [] p q) (hg : Progresses p) (hg' : Progresses q) :
    ∃ m y zs n, ys = y :: zs ∧ SideBySide c bound G [] [] p q s (some x) m t (some y) n ∧
      SideBySide c bound G [] [] (many p) (many q) m xs s' n zs t' := by
  obtain ⟨-, hys, -⟩ := h.mirrors (.many hc hp hg hg')
  cases hright : (many_eq_ok hg').1 h.right with
  | stop => simp [Change.apply] at hys
  | @next _ n _ y zs ht hts =>
  cases (many_eq_ok hg).1 h.left with
  | @next _ m _ _ _ hs hss =>
    obtain ⟨w, ps, hw, hps, hfit⟩ := h.fits
    obtain ⟨v, qs, hqs, hv⟩ := hp s (some x) m hs h.ordered
    have hom : Ordered m.rest := hv.took.ordered h.ordered
    have hxs := (many_eq_ok hg).2 hss
    obtain ⟨v', qs', hqs', hv'⟩ := Mirrors.many hc hp hg hg' m xs s' hxs hom
    obtain rfl : w = v ++ v' := hw.unique (hv.took.trans hv'.took)
    obtain rfl : qs ++ qs' = ps := by
      rw [List.nil_append] at hqs hqs' hps
      rw [← hqs, ← hqs', ← hps]
      rfl
    obtain ⟨hfitv, hfit'⟩ := hc.fits_append hv.laid hv'.laid (hw.ordered_words h.ordered) hfit
    have first : SideBySide c bound G [] [] p q s (some x) m t (some y) n :=
      ⟨hs, ht, h.ordered, h.seen, h.short, ⟨v, qs, hv.took, hqs, hfitv⟩, (hv'.mirror hfit' h.behind).1⟩
    obtain ⟨hn, -⟩ := first.mirrors hp
    refine ⟨m, y, zs, n, rfl, first, hxs, (many_eq_ok hg').2 hts, hom, hn, ?_,
      ⟨v', qs', hv'.took, hqs', hfit'⟩, h.behind⟩
    refine Nat.lt_of_le_of_lt ?_ h.short
    rw [← hn.length_eq, ← h.seen.length_eq, hv.took.rest, c.tokens_append, List.length_append]
    omega

end SideBySide

end Parser

/-! ### Trees with their tokens -/

/-- Namespaces and types before and after a change, each at its tokens. -/
inductive Twins (c : Change) :
    List Token → List Token → List NamespaceMember → List NamespaceMember → Prop
  | nil : Twins c [] [] [] []
  | typeDecl {a v w' x x' : List Token} {decl decl' : TypeDecl} {ms ms' : List NamespaceMember}
      (ha : a ≠ []) (hv : Laid v (parts decl.members)) (hp : Placed (a ++ v) ⟨0, decl.span⟩)
      (hw : Alike (c.tokens (a ++ v)) w') (hs : Twins c x x' ms ms') :
      Twins c (a ++ v ++ x) (w' ++ x') (.typeDecl decl :: ms) (.typeDecl decl' :: ms')
  | namespaceDecl {a u v b a' u' v' b' x x' : List Token} {name name' : QualifiedName}
      {fileScoped fileScoped' : Bool} {us us' : List Using} {inner inner' ms ms' : List NamespaceMember}
      {span span' : Span} (ha : a ≠ []) (hu : Lines u us) (hus : bare (c.apply us) = bare us')
      (hp : Placed (a ++ u ++ v ++ b) ⟨0, span⟩) (hp' : Placed (a' ++ u' ++ v' ++ b') ⟨0, span'⟩)
      (haa : Alike (c.tokens a) a') (huu : Alike (c.tokens u) u') (hbb : Alike (c.tokens b) b')
      (hv : Twins c v v' inner inner') (hs : Twins c x x' ms ms') :
      Twins c (a ++ u ++ v ++ b ++ x) (a' ++ u' ++ v' ++ b' ++ x')
        (.namespaceDecl name fileScoped us inner span :: ms)
        (.namespaceDecl name' fileScoped' us' inner' span' :: ms')

theorem Twins.alike {c : Change} {w w' : List Token} {ms ms' : List NamespaceMember}
    (h : Twins c w w' ms ms') : Alike (c.tokens w) w' := by
  induction h with
  | nil => exact .refl _
  | typeDecl _ _ _ hw _ ih =>
    rw [c.tokens_append]
    exact hw.append ih
  | namespaceDecl _ _ _ _ _ haa huu hbb _ _ ihv ihs =>
    simp only [c.tokens_append]
    exact ((haa.append huu).append ihv).append hbb |>.append ihs

/-! ### Reading namespaces -/

/-- The next namespace or type is either, by the word it begins with. -/
theorem namespaceMember?_eq_some {g : Grammar} {members : Parser (List NamespaceMember)} {s s' : Cursor}
    {m : NamespaceMember} (h : g.namespaceMember? members s = .ok (some m, s')) :
    (s.first?.any (·.isKeyword "namespace") = true ∧ namespaceDecl members s = .ok (m, s')) ∨
      (s.first?.any (·.isKeyword "namespace") = false ∧
        ∃ d, g.typeDecl s = .ok (d, s') ∧ m = .typeDecl d) := by
  simp only [namespaceMember?, bind_eq_ok, atEnd_eq_ok, atPunct_eq_ok, exists_eq_left] at h
  split at h
  · simp at h
  · obtain ⟨_, hat, h⟩ := bind_eq_ok.1 h
    obtain rfl := atKeyword_eq_ok.1 hat
    split at h
    · simp only [map_eq_ok, Prod.exists, Prod.mk.injEq, Option.some.injEq] at h
      obtain ⟨_, _, h, rfl, rfl⟩ := h
      exact .inl ⟨‹_›, h⟩
    · simp only [map_eq_ok, Prod.exists, Prod.mk.injEq, Option.some.injEq] at h
      obtain ⟨_, _, ⟨d, _, h, rfl, rfl⟩, rfl, rfl⟩ := h
      exact .inr ⟨Bool.eq_false_iff.2 ‹_›, d, h, rfl⟩

theorem namespaceMember?_eq_none {g : Grammar} {members : Parser (List NamespaceMember)} {s s' : Cursor}
    (h : g.namespaceMember? members s = .ok (none, s')) : s' = s := by
  simp only [namespaceMember?, bind_eq_ok, atEnd_eq_ok, atPunct_eq_ok, exists_eq_left] at h
  split at h
  · simpa using h
  · obtain ⟨_, hat, h⟩ := bind_eq_ok.1 h
    split at h <;> simp at h

namespace Grammar.Follows

variable {c : Change} {bound b : Nat} {g g' : Grammar} (h : Follows c bound g g')
include h

/-- A type begins with a word, and its members stand behind that. -/
theorem took_typeDecl {s s' : Cursor} {d : TypeDecl} (hs : g.typeDecl s = .ok (d, s'))
    (ho : Ordered s.rest) : ∃ a v, Took s (a ++ v) s' ∧ a ≠ [] ∧ Laid v (parts d.members) ∧
      Placed (a ++ v) ⟨0, d.span⟩ := by
  simp only [Grammar.typeDecl, bind_eq_ok, offset_eq_ok, spanFrom_eq_ok, pure_eq_ok, exists_eq_left,
    Prod.exists, Prod.mk.injEq] at hs
  obtain ⟨as, s₁, h₁, ms, s₂, h₂, f, s₃, h₃, i, s₄, h₄, ts, s₅, h₅, _, s₆, h₆, xs, s₇, h₇, e, s₈, h₈,
    rfl, rfl⟩ := hs
  obtain ⟨w₁, hw₁, -⟩ := Steady.attributes.forward _ _ _ h₁
  obtain ⟨w₂, hw₂, -⟩ := Steady.modifiers.forward _ _ _ h₂
  obtain ⟨w₃, hw₃, -⟩ := steady_typeForm.forward _ _ _ h₃
  obtain ⟨w₄, hw₄, -⟩ := forward_expectIdent _ _ _ h₄
  obtain ⟨w₅, hw₅, -⟩ := Steady.bases.forward _ _ _ h₅
  obtain ⟨w₆, hw₆, hne⟩ := Advances.expectPunct _ _ _ _ h₆
  have hopening := hw₁.trans (hw₂.trans (hw₃.trans (hw₄.trans (hw₅.trans hw₆))))
  obtain ⟨w₇, ps, hps, hm⟩ := Mirrors.many h.isLocal (h.member? (Nat.zero_le _) i.name)
    (h.forward.progresses_member? _) (h.forward'.progresses_member? _) _ _ _ h₇ (hopening.ordered ho)
  obtain ⟨w₈, hw₈, -⟩ := forward_eat _ _ _ _ h₈
  have hall := hopening.trans (hm.took.trans hw₈)
  refine ⟨_, w₇ ++ w₈, hall, by simp [hne], ?_, hall.placed ho 0⟩
  rw [List.nil_append] at hps
  exact hps ▸ hm.laid.append_right w₈

/-- The tokens of a namespace, before and after the change. -/
theorem twins_namespaceDecl {members members' : Parser (List NamespaceMember)}
    (hm : Mirrors c (b - 1) Agree Agree [] [] members members')
    (hpairs : ∀ s ms s' t ms' t', SideBySide c (b - 1) Agree [] [] members members' s ms s' t ms' t' →
      Ordered t.rest → ∃ w w', Took s w s' ∧ Took t w' t' ∧ Twins c w w' ms ms')
    {s s' t t' : Cursor} {m m' : NamespaceMember}
    (hs : SideBySide c b Agree [] [] (Grammar.namespaceDecl members) (Grammar.namespaceDecl members') s m s' t m' t')
    (ho : Ordered t.rest) : ∃ w w', Took s w s' ∧ Took t w' t' ∧
      ∀ x x' ms ms', Twins c x x' ms ms' → Twins c (w ++ x) (w' ++ x') (m :: ms) (m' :: ms') := by
  have hc := h.isLocal
  -- what is left to read, from the end on
  have members (start start' : Nat) {n n' : QualifiedName} (hn : bare n = bare n') (f : Bool)
      {us us' : List Using} (hus : bare (c.apply us) = bare us') :
      Mirrors c (b - 1) Agree Agree [.usings us] [.usings us']
        (members >>= fun ms => namespaceEnd f >>= fun _ => Parser.spanFrom start >>= fun span =>
          pure (NamespaceMember.namespaceDecl n f us ms span))
        (members' >>= fun ms => namespaceEnd f >>= fun _ => Parser.spanFrom start' >>= fun span =>
          pure (NamespaceMember.namespaceDecl n' f us' ms span)) :=
    .bind hc hm fun ms ms' hms => namespaceClosing hc hn f hus hms
  have body (start start' : Nat) {n n' : QualifiedName} (hn : bare n = bare n') (f : Bool) :
      Mirrors c (b - 1) Agree Agree [] [] _ _ :=
    .bind hc (h.lawful.usings (b - 1)) fun us us' hus => members start start' hn f hus
  have header (start start' : Nat) {n n' : QualifiedName} (hn : bare n = bare n') :
      Mirrors c (b - 1) Agree Agree [] [] _ _ :=
    .inert hc (namespaceOpening hc) fun f f' hf => by
      obtain rfl : f = f' := hf
      exact body start start' hn f
  have name (start start' : Nat) : Mirrors c b Agree Agree [] [] _ _ :=
    .pastToken hc .qualifiedName advances_qualifiedName fun n n' hn => header start start' hn
  obtain ⟨start, s₀, start', t₀, h₀, hs, -⟩ := hs.bind hc .offset fun _ _ _ =>
    .past hc .advance fun _ _ _ => name _ _
  obtain ⟨rfl, rfl⟩ := Prod.mk.inj (offset_eq_ok.1 h₀.left)
  obtain ⟨rfl, rfl⟩ := Prod.mk.inj (offset_eq_ok.1 h₀.right)
  obtain ⟨_, s₁, _, t₁, h₁, hs, -⟩ := hs.bind hc (.steady hc .advance) fun _ _ _ => name _ _
  obtain ⟨n, s₂, n', t₂, h₂, hs, hn⟩ := hs.bindUpTo hc (.steady hc .qualifiedName)
    (Mirrors.pred_bound hc advances_qualifiedName) fun _ _ => header _ _
  obtain ⟨f, s₃, f', t₃, h₃, hs, hf⟩ := hs.bind hc (namespaceOpening hc) fun f f' hf => by
    obtain rfl : f = f' := hf
    exact body _ _ hn f
  obtain rfl : f = f' := hf
  obtain ⟨us, s₄, us', t₄, h₄, hs, hus⟩ := hs.bind hc (h.lawful.usings _) fun us us' hus =>
    members _ _ hn f hus
  obtain ⟨ms, s₅, ms', t₅, h₅, hs, hms⟩ := hs.bind hc hm fun ms ms' hms => namespaceClosing hc hn f hus hms
  -- their tokens
  obtain ⟨w₁, w₁', hw₁, hw₁', ha₁⟩ := h₁.words (.steady hc .advance) forward_advance
  obtain ⟨w₂, w₂', hw₂, hw₂', ha₂⟩ := h₂.words (.steady hc .qualifiedName) takes_qualifiedName.forward
  obtain ⟨w₃, w₃', hw₃, hw₃', ha₃⟩ := h₃.words (namespaceOpening hc) forward_namespaceOpening
  obtain ⟨u, u', hu, hu', hau⟩ := h₄.words (h.lawful.usings _) Steady.usings.forward
  obtain ⟨w₆, w₆', hw₆, hw₆', ha₆⟩ := hs.words (namespaceClosing hc hn f hus hms)
    ((forward_namespaceEnd f).bind fun _ => forward_span _ _)
  have hh := hw₁.trans (hw₂.trans hw₃)
  have hh' := hw₁'.trans (hw₂'.trans hw₃')
  obtain ⟨v, v', hv, hv', htwins⟩ := hpairs _ _ _ _ _ _ h₅ ((hh'.trans hu').ordered ho)
  have hall : Took s₀ (w₁ ++ (w₂ ++ w₃) ++ u ++ v ++ w₆) s' := ((hh.trans hu).trans hv).trans hw₆
  have hall' : Took t₀ (w₁' ++ (w₂' ++ w₃') ++ u' ++ v' ++ w₆') t' :=
    ((hh'.trans hu').trans hv').trans hw₆'
  -- the spans that are given to the namespaces
  have hleft := hs.left
  have hright := hs.right
  simp only [bind_eq_ok, spanFrom_eq_ok, pure_eq_ok, Prod.exists, Prod.mk.injEq] at hleft hright
  obtain ⟨_, _, -, _, _, ⟨rfl, rfl⟩, rfl, rfl⟩ := hleft
  obtain ⟨_, _, -, _, _, ⟨rfl, rfl⟩, rfl, rfl⟩ := hright
  obtain ⟨u₀, hu₀, hlines⟩ := lines_usings h₄.left h₄.ordered
  obtain rfl := hu₀.unique hu
  obtain ⟨w, hw, hne⟩ := advances_qualifiedName _ _ _ h₂.left
  obtain rfl := hw.unique hw₂
  refine ⟨_, _, hall, hall', fun x x' ms ms' hx => .namespaceDecl (by simp [hne]) hlines hus
    (hall.placed h₀.ordered 0) (hall'.placed ho 0) ?_ hau ha₆ htwins hx⟩
  simp only [c.tokens_append]
  exact ha₁.append (ha₂.append ha₃)

/-- The tokens of a namespace or type, before and after the change. -/
theorem twins_namespaceMember? (hb : b ≤ bound) {members members' : Parser (List NamespaceMember)}
    (hm : Mirrors c (b - 1) Agree Agree [] [] members members')
    (hpairs : ∀ s ms s' t ms' t', SideBySide c (b - 1) Agree [] [] members members' s ms s' t ms' t' →
      Ordered t.rest → ∃ w w', Took s w s' ∧ Took t w' t' ∧ Twins c w w' ms ms')
    {s s' t t' : Cursor} {m m' : NamespaceMember}
    (hs : SideBySide c b Agree [] [] (g.namespaceMember? members) (g'.namespaceMember? members') s (some m) s'
      t (some m') t') (ho : Ordered t.rest) : ∃ w w', Took s w s' ∧ Took t w' t' ∧
      ∀ x x' ms ms', Twins c x x' ms ms' → Twins c (w ++ x) (w' ++ x') (m :: ms) (m' :: ms') := by
  obtain ⟨-, -, hA⟩ := hs.mirrors (h.namespaceMember? hb hm)
  have hword : s.first?.any (·.isKeyword "namespace") = t.first?.any (·.isKeyword "namespace") :=
    (hA.trans_alike hs.seen.alike).any_head fun _ => rfl
  obtain ⟨hk, hleft⟩ | ⟨hk, d, hleft, rfl⟩ := namespaceMember?_eq_some hs.left <;>
    obtain ⟨hk', hright⟩ | ⟨hk', d', hright, rfl⟩ := namespaceMember?_eq_some hs.right <;>
    rw [hk, hk'] at hword
  · exact h.twins_namespaceDecl hm hpairs
      ⟨hleft, hright, hs.ordered, hs.seen, hs.short, hs.fits, hs.behind⟩ ho
  · cases hword
  · cases hword
  · have hdecl : SideBySide c b Agree [] [] g.typeDecl g'.typeDecl s d s' t d' t' :=
      ⟨hleft, hright, hs.ordered, hs.seen, hs.short, hs.fits, hs.behind⟩
    obtain ⟨w, w', hw, hw', hww⟩ := hdecl.words (h.typeDecl hb) h.forward'.typeDecl.forward
    obtain ⟨a, v, hav, ha, hv, hp⟩ := h.took_typeDecl hleft hs.ordered
    obtain rfl := hw.unique hav
    exact ⟨_, w', hav, hw', fun x x' ms ms' hx => .typeDecl ha hv hp hww hx⟩

/-- The tokens of namespaces and types that stand one behind the other. -/
theorem twins_many (hb : b ≤ bound) {members members' : Parser (List NamespaceMember)}
    (hm : Mirrors c (b - 1) Agree Agree [] [] members members') (hf : Forward members) (hf' : Forward members')
    (hpairs : ∀ s ms s' t ms' t', SideBySide c (b - 1) Agree [] [] members members' s ms s' t ms' t' →
      Ordered t.rest → ∃ w w', Took s w s' ∧ Took t w' t' ∧ Twins c w w' ms ms')
    {s s' t t' : Cursor} {ms ms' : List NamespaceMember}
    (hs : SideBySide c b Agree [] [] (many (g.namespaceMember? members)) (many (g'.namespaceMember? members'))
      s ms s' t ms' t') (ho : Ordered t.rest) :
    ∃ w w', Took s w s' ∧ Took t w' t' ∧ Twins c w w' ms ms' := by
  have hmem := h.namespaceMember? hb hm
  have hg := progresses_namespaceMember? h.forward hf
  have hg' := progresses_namespaceMember? h.forward' hf'
  induction ms generalizing s t ms' with
  | nil =>
    obtain ⟨rfl, hs₀, ht₀⟩ := hs.many_nil h.isLocal hmem hg hg'
    obtain rfl := namespaceMember?_eq_none hs₀
    obtain rfl := namespaceMember?_eq_none ht₀
    exact ⟨[], [], .refl _, .refl _, .nil⟩
  | cons m ms ih =>
    obtain ⟨n, m', zs, n', rfl, hfirst, hrest⟩ := hs.many_cons h.isLocal hmem hg hg'
    obtain ⟨w, w', hw, hw', hcons⟩ := h.twins_namespaceMember? hb hm hpairs hfirst ho
    obtain ⟨v, v', hv, hv', htwins⟩ := ih hrest (hw'.ordered ho)
    exact ⟨w ++ v, w' ++ v', hw.trans hv, hw'.trans hv', hcons _ _ _ _ htwins⟩

end Grammar.Follows

/-! ### Documents -/

/-- The tokens of namespaces, where there is room for as many as there are tokens. -/
theorem twins_namespaceMembers {c : Change} (hc : c.Lawful) (k depth : Nat) {n depth' : Nat}
    (hd : depth' ≤ n + 1) {s s' t t' : Cursor} {ms ms' : List NamespaceMember}
    (hs : SideBySide c depth' Agree [] [] ((layered k).namespaceMembers depth)
      ((layered n).namespaceMembers depth') s ms s' t ms' t') (ho : Ordered t.rest) :
    ∃ w w', Took s w s' ∧ Took t w' t' ∧ Twins c w w' ms ms' := by
  have h := follows_layered hc k n
  induction depth generalizing depth' s s' t t' ms ms' with
  | zero => exact absurd hs.left (by simp [namespaceMembers])
  | succ depth ih =>
    cases depth' with
    | zero => exact absurd hs.short (Nat.not_lt_zero _)
    | succ depth' =>
      exact h.twins_many hd (mirrors_namespaceMembers hc k depth (by omega))
        (forward_namespaceMembers h.forward depth) (forward_namespaceMembers h.forward' depth')
        (fun _ _ _ _ _ _ hs ho => ih (by omega) hs ho) hs ho

end CultureLint
