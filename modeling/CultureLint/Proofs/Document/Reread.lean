import CultureLint.Proofs.Parser.Nesting
import CultureLint.Proofs.Token.Lexemes

/-! Documents as they are read. A tree that was read from a text stands in the tokens of that text, its
expressions are numbered, and after a lawful change of the tokens it is read again with the change. -/

namespace CultureLint

open CultureLint.Parser CultureLint.Grammar

/-! ### No change at all -/

/-- The change that leaves everything as it is, where tokens have to do with others what they should. -/
def Change.none (sees : Token → Token → Prop) : Change where
  zone := Span.empty 0
  word t := [t]
  expr := id
  usings := id
  owns _ := False
  sees := sees

namespace Change

variable (sees : Token → Token → Prop)

theorem tokens_none (w : List Token) : (none sees).tokens w = w := List.flatMap_singleton' w

theorem fits_none (w : List Token) (ps : List Part) : (none sees).Fits w ps := .inl fun _ _ ht => Nat.not_lt_zero _ ht.2

theorem isLocal_none : (none sees).Local := ⟨fun _ _ => rfl, fun _ _ _ _ h => h.elim⟩

theorem lawful_none : (none sees).Lawful where
  toLocal := isLocal_none sees
  spelled w n e h _ _ := by
    rw [tokens_none]
    exact h.mono fun _ _ => Placed.begins
  heads w ps h k r _ _ _ hw _ _ := ⟨r, (tokens_none sees w).symm.trans hw⟩
  usings := mirrors_usings (isLocal_none sees) (fun _ h => h) rfl

variable {sees}

theorem Seen.of_forall₂ {w v : List Token} (h : Alike w v) (hs : List.Forall₂ sees w v) (ho : Ordered v) :
    (none sees).Seen ((none sees).tokens w) v := by
  rw [tokens_none]
  exact ⟨h, hs, ho⟩

/-- Where nothing is asked of the tokens, those of the same words are as they should be. -/
theorem Seen.of_alike {w v : List Token} (h : Alike w v) (ho : Ordered v) :
    (none fun _ _ => True).Seen ((none fun _ _ => True).tokens w) v :=
  .of_forall₂ h (List.forall₂_iff_zip.2 ⟨h.length_eq, fun _ => trivial⟩) ho

end Change

/-! ### The code of a document -/

theorem runOn_eq_ok {α : Type} {p : Nat → Parser α} {tokens : List Token} {size : Nat} {x : α} :
    runOn p tokens size = .ok x ↔
      ∃ s', p (tokens.length + 1) (Cursor.ofTokens tokens size) = .ok (x, s') := by
  unfold runOn
  cases h : p (tokens.length + 1) (Cursor.ofTokens tokens size) with
  | error e => simp [Functor.map, Except.map]
  | ok y => simp [Functor.map, Except.map, Prod.ext_iff]

/-- A document ends where there are no more tokens. -/
theorem unitEnd_eq_ok {us : List Using} {ms : List NamespaceMember} {s s' : Cursor} {unit : CompilationUnit}
    (h : (atEnd >>= fun atEnd => if atEnd = true then
        ask (·.size) >>= fun size => pure (CompilationUnit.mk us ms (Span.ofLength 0 size))
      else fail .expectedDeclaration) s = .ok (unit, s')) :
    s.rest = [] ∧ s' = s ∧ unit.usings = us ∧ unit.members = ms := by
  simp only [bind_eq_ok, atEnd_eq_ok, exists_eq_left] at h
  split at h
  · simp only [bind_eq_ok, ask_eq_ok, pure_eq_ok, Prod.exists, Prod.mk.injEq] at h
    obtain ⟨_, _, ⟨rfl, rfl⟩, rfl, rfl⟩ := h
    exact ⟨List.isEmpty_iff.1 ‹_›, rfl, rfl, rfl⟩
  · simp at h

theorem rest_compilationUnit {depth : Nat} {s s' : Cursor} {unit : CompilationUnit}
    (h : compilationUnit depth s = .ok (unit, s')) : s'.rest = [] := by
  obtain ⟨⟨us, s₁⟩, -, h⟩ := bind_eq_ok.1 h
  obtain ⟨⟨ms, s₂⟩, -, h⟩ := bind_eq_ok.1 h
  obtain ⟨hrest, rfl, -⟩ := unitEnd_eq_ok h
  exact hrest

/-- What is read from tokens: the tree stands in them, and can be read again after a change. -/
structure ReadFrom (tokens : List Token) (unit : CompilationUnit) : Prop where
  laid : Laid tokens (parts unit)
  numbered : ∃ n, Numbered 0 n (Part.exprs (parts unit))
  reread : ∀ c : Change, c.Lawful → c.Fits tokens (parts unit) →
    ∀ tokens', c.Seen (c.tokens tokens) tokens' → ∀ size,
      ∃ unit', runOn compilationUnit tokens' size = .ok unit' ∧ bare (c.apply unit) = bare unit' ∧
        List.Forall₂ c.Meets (parts unit) (parts unit')

theorem readFrom_of_runOn {tokens : List Token} {size : Nat} {unit : CompilationUnit}
    (h : runOn compilationUnit tokens size = .ok unit) (ho : Ordered tokens) : ReadFrom tokens unit := by
  obtain ⟨s', hs⟩ := runOn_eq_ok.1 h
  have hrest := rest_compilationUnit hs
  -- the run is the same for every change
  have run (c : Change) (hc : c.Lawful) (n : Nat) := mirrors_compilationUnit hc _ n _ _ _ hs ho
  have all {w : List Token} (hw : Took (Cursor.ofTokens tokens size) w s') : w = tokens := by
    have := hw.rest
    rw [hrest, List.append_nil] at this
    exact this.symm
  obtain ⟨w, ps, hps, hm⟩ := run _ (Change.lawful_none fun _ _ => True) 0
  obtain rfl := all hm.took
  rw [List.nil_append] at hps
  refine ⟨hps ▸ hm.laid, ⟨s'.nextId, hps ▸ hm.numbered⟩, fun c hc hf tokens' ht size' => ?_⟩
  obtain ⟨v, qs, hqs, hm'⟩ := run c hc (tokens'.length + 1)
  obtain rfl := all hm'.took
  rw [List.nil_append] at hqs
  have hF : Agree s'.rest (c.tokens s'.rest) := by
    rw [hrest]
    exact .of_alike (.refl _)
  obtain ⟨-, hq⟩ := hm'.mirror (hqs ▸ hf) hF
  obtain ⟨unit', t', rs, hy, -, hb, hrs, hmeets⟩ := hq (Cursor.ofTokens tokens' size') ht (Nat.lt_succ_self _)
  obtain rfl : parts unit' = rs := hrs
  exact ⟨unit', runOn_eq_ok.2 ⟨t', hy⟩, hb, hqs ▸ hmeets⟩

/-- The namespaces and types of a document, and those that are read after a change. -/
theorem twins_of_runOn {c : Change} (hc : c.Lawful) {tokens tokens' : List Token} {size size' : Nat}
    {unit unit' : CompilationUnit} (h : runOn compilationUnit tokens size = .ok unit)
    (h' : runOn compilationUnit tokens' size' = .ok unit') (ho : Ordered tokens)
    (hfit : c.Fits tokens (parts unit)) (ha : c.Seen (c.tokens tokens) tokens') :
    ∃ u v u' v', tokens = u ++ v ∧ tokens' = u' ++ v' ∧ Lines u unit.usings ∧ Alike (c.tokens u) u' ∧
      Twins c v v' unit.members unit'.members := by
  obtain ⟨s', hs⟩ := runOn_eq_ok.1 h
  obtain ⟨t', ht⟩ := runOn_eq_ok.1 h'
  have hrest := rest_compilationUnit hs
  have hlocal := hc.toLocal
  obtain ⟨w, ps, hps, hm⟩ := mirrors_compilationUnit hc _ (tokens'.length + 1) _ _ _ hs ho
  obtain rfl : tokens = w := by
    have := hm.took.rest
    rwa [hrest, List.append_nil] at this
  rw [List.nil_append] at hps
  have hF : Agree s'.rest (c.tokens s'.rest) := by
    rw [hrest]
    exact .of_alike (.refl _)
  have hboth : SideBySide c (tokens'.length + 1) Agree [] [] (compilationUnit _) (compilationUnit _) _ unit s'
      (Cursor.ofTokens tokens' size') unit' t' :=
    ⟨hs, ht, ho, ha, Nat.lt_succ_self _, ⟨tokens, ps, hm.took, hps, hps ▸ hfit⟩, hF⟩
  obtain ⟨us, s₁, us', t₁, h₁, hboth, hus⟩ := hboth.bind hlocal (hc.usings _) fun _ _ hus =>
    .bind hlocal (mirrors_namespaceMembers hc _ _ (Nat.le_succ _)) fun _ _ hms =>
      mirrors_unitEnd hlocal hus hms
  obtain ⟨ms, s₂, ms', t₂, h₂, hboth, hms⟩ := hboth.bind hlocal
    (mirrors_namespaceMembers hc _ _ (Nat.le_succ _)) fun _ _ hms => mirrors_unitEnd hlocal hus hms
  obtain ⟨u, u', hu, hu', huu⟩ := h₁.words (hc.usings _) Steady.usings.forward
  obtain ⟨v, v', hv, hv', htwins⟩ := twins_namespaceMembers hc _ _ (Nat.le_succ _) h₂ (hu'.ordered ha.ordered)
  obtain ⟨hend, -, hunit, hmembers⟩ := unitEnd_eq_ok hboth.left
  obtain ⟨hend', -, -, hmembers'⟩ := unitEnd_eq_ok hboth.right
  obtain ⟨u₀, hu₀, hlines⟩ := lines_usings h₁.left ho
  obtain rfl := hu₀.unique hu
  refine ⟨u₀, v, u', v', ?_, ?_, hunit ▸ hlines, huu, hmembers ▸ hmembers' ▸ htwins⟩
  · exact (hu.trans hv).rest.trans (by rw [hend, List.append_nil])
  · exact (hu'.trans hv').rest.trans (by rw [hend', List.append_nil])

/-! ### Documents -/

namespace SourceTree

variable {text : String} {tree : SourceTree}

theorem ofText_eq_ok : ofText text = .ok tree ↔ ∃ lexed, Lexed.ofText text = .ok lexed ∧
    runOn compilationUnit lexed.tokens text.utf8ByteSize = .ok tree.unit ∧
    tree.directives = lexed.directives ∧ tree.header = lexed.header := by
  simp only [ofText, Lexeme.exceptBind_eq_ok]
  constructor
  · rintro ⟨lexed, hl, unit, hu, h⟩
    obtain rfl := Except.ok.inj h
    exact ⟨lexed, hl, hu, rfl, rfl⟩
  · rintro ⟨lexed, hl, hu, hd, hh⟩
    exact ⟨lexed, hl, tree.unit, hu, by rw [← hd, ← hh]; rfl⟩

theorem readFrom {lexed : Lexed} (hl : Lexed.ofText text = .ok lexed) {unit : CompilationUnit} {size : Nat}
    (h : runOn compilationUnit lexed.tokens size = .ok unit) :
    ReadFrom lexed.tokens unit ∧ Ordered lexed.tokens := by
  have ho := Lexed.ordered_tokens hl
  exact ⟨readFrom_of_runOn h ho, ho⟩

/-- A document is read in the place of another one after a change of its expressions, and its tokens stand behind the
same directives. -/
def MetBy (f : Expr → Expr) (tree tree' : SourceTree) : Prop := ∃ c : Change, c.Lawful ∧ c.expr = f ∧
  c.sees = Lexed.BehindSame tree.directives tree'.directives ∧
  List.Forall₂ c.Meets (parts tree.unit) (parts tree'.unit)

/-- The number tells which expression of the document it is. -/
theorem eq_of_id_eq (h : ofText text = .ok tree) {c d : Expr} {i j : Nat} (hc : (c, i) ∈ tree.unit.walk)
    (hd : (d, j) ∈ tree.unit.walk) (hid : c.id = d.id) : c = d := by
  obtain ⟨lexed, hl, hu, -⟩ := ofText_eq_ok.1 h
  obtain ⟨n, hn⟩ := (readFrom hl hu).1.numbered
  have mem {e : Expr} {i : Nat} (he : (e, i) ∈ tree.unit.walk) :
      e ∈ (Part.exprs (parts tree.unit)).flatMap Expr.within :=
    List.mem_flatMap.2 (CompilationUnit.mem_walk_iff.1 ⟨i, he⟩)
  exact hn.eq_of_id_eq (mem hc) (mem hd) hid

end SourceTree

/-- An expression of a document stands in its tokens. -/
theorem ReadFrom.inside {tokens : List Token} {unit : CompilationUnit} (h : ReadFrom tokens unit)
    {a e : Expr} (ha : a ∈ Part.exprs (parts unit)) (he : e ∈ a.within) :
    Spelled.Inside Placed e tokens := by
  obtain ⟨u, v, x, rfl, n, hv⟩ := h.laid.mem (Part.mem_exprs.1 ha)
  obtain ⟨u', v', x', n', rfl, hv'⟩ := hv.inner he
  exact ⟨u ++ u', v', x' ++ x, n', by simp, hv'⟩

end CultureLint
