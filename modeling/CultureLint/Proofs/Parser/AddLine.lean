import CultureLint.Proofs.Parser.MirrorDecl
import CultureLint.Proofs.Token.UsingLine

/-! A `using` line put before or behind another one. The grammar follows such a change in any list of
`using` lines: a line is read whatever stands behind it. -/

namespace CultureLint

open CultureLint.Parser
open Scans (mark)

/-! ### The line that imports a namespace -/

/-- Whether a line imports a namespace, and only for the document that it stands in. -/
def Using.isPlain (u : Using) : Bool := u.importsNamespace && !u.isGlobal

/-- The line imports this namespace and does nothing else. -/
structure Using.Imports (u : Using) (space : String) : Prop where
  plain : u.isPlain = true
  relative : u.name.global = false
  name : u.name.dotted = space

theorem name_of_isWord {name : String} (h : IsWord name) (index start : Nat) :
    Token.name ⟨index, .identifier, name, start⟩ = name := by
  obtain ⟨c, t, hname, hc, -⟩ := h.exists_cons
  have hne : c ≠ '@' := by
    rintro rfl
    exact absurd hc (by decide)
  simp only [Token.name]
  rw [hname, List.dropWhile_cons_of_neg (by simpa using hne), ← hname, String.ofList_toList]

theorem rounds_namePart? {tail : List String} (h : ∀ name ∈ tail, IsWord name) {s : Cursor} {offset index : Nat}
    (hs : s.rest = Lexed.tokensFrom offset index (dottedLexemes tail ++ [mark ';'])) :
    ∃ is s' t, Rounds namePart? s is s' ∧ is.map Ident.name = tail ∧ s'.rest = [t] ∧
      t.isPunct ";" = true := by
  induction tail generalizing s offset index with
  | nil =>
    refine ⟨[], s, _, .stop ?_, rfl, hs, rfl⟩
    have hno : (s.first?.any (·.isPunct ".") && s.second?.any Token.isIdentifier) = false := by
      rw [Cursor.first?, Cursor.second?, hs]
      rfl
    simp [namePart?, hno]
  | cons name tail ih =>
    obtain ⟨point, word, rest, hpoint, hword, hname, hrest⟩ :
        ∃ point word rest, point.isPunct "." = true ∧ word.isIdentifier = true ∧ word.name = name ∧
          s.rest = point :: word :: Lexed.tokensFrom rest (index + 1 + 1) (dottedLexemes tail ++ [mark ';']) := by
      refine ⟨_, _, _, rfl, rfl, ?_, hs⟩
      rw [String.ofList_toList]
      exact name_of_isWord (h name (List.mem_cons_self ..)) _ _
    have hword' : s.advance.rest = word :: Lexed.tokensFrom rest (index + 1 + 1)
        (dottedLexemes tail ++ [mark ';']) := by
      rw [Cursor.rest_advance, hrest]
      rfl
    have hread : namePart? s = .ok (some ⟨name, word.span⟩, s.advance.advance) := by
      simp [namePart?, Cursor.first?, Cursor.second?, hrest, hpoint, hword, hname]
    obtain ⟨is, s', t, hrounds, his, hs', ht⟩ := ih (fun x hx => h x (List.mem_cons_of_mem _ hx))
      (s := s.advance.advance) (by rw [Cursor.rest_advance, hword']; rfl)
    exact ⟨_, s', t, .next hread hrounds, by simp [his], hs', ht⟩

/-- Behind a name there comes a point or a semicolon. -/
theorem head_dottedTokens (tail : List String) (offset index : Nat) : ∃ p r,
    Lexed.tokensFrom offset index (dottedLexemes tail ++ [mark ';']) = p :: r ∧
      p.isPunct "=" = false ∧ p.isPunct "::" = false := by
  cases tail with
  | nil => exact ⟨_, _, rfl, rfl, rfl⟩
  | cons name tail => exact ⟨_, _, rfl, rfl, rfl⟩

theorem tokensFrom_word (name : String) (offset index : Nat) (lexemes : List Lexeme) :
    Lexed.tokensFrom offset index (wordLexeme name :: lexemes) = ⟨index, .identifier, name, offset⟩ ::
      Lexed.tokensFrom (offset + Text.byteLength name.toList) (index + 1) lexemes := by
  simp [wordLexeme, Lexed.tokensFrom]

/-- What stands behind the word of a line that imports a namespace is read as the rest of the line. -/
theorem usingLine_eq_some {head : String} {tail : List String} (h : ∀ name ∈ head :: tail, IsWord name)
    (start : Nat) {s : Cursor} {offset index : Nat}
    (hs : s.rest = Lexed.tokensFrom offset index (wordLexeme head :: dottedLexemes tail ++ [mark ';'])) :
    ∃ u s', Parser.usingLine start false s = .ok (u, s') ∧ s'.rest = [] ∧
      u.Imports (".".intercalate (head :: tail)) := by
  rw [List.cons_append, tokensFrom_word] at hs
  obtain ⟨p, r, hp, heq, hcolons⟩ := head_dottedTokens tail (offset + Text.byteLength head.toList) (index + 1)
  obtain ⟨is, s', t, hrounds, his, hs', ht⟩ := rounds_namePart? (fun x hx => h x (List.mem_cons_of_mem _ hx))
    (s := s.advance) (by rw [Cursor.rest_advance, hs]; rfl)
  have hname := name_of_isWord (h head (List.mem_cons_self ..)) index offset
  have hsecond : s.second? = some p := by rw [Cursor.second?, hs, hp]; rfl
  have hident : expectIdent s = .ok (⟨head, Span.ofLength offset head.utf8ByteSize⟩, s.advance) :=
    expectIdent_eq_ok.2 ⟨_, _, hs, rfl, by rw [hname]; rfl⟩
  have hmany := (many_eq_ok progresses_namePart?).2 hrounds
  obtain ⟨n, hn, hrelative, hdotted⟩ : ∃ n, qualifiedName s = .ok (n, s') ∧ n.global = false ∧
      n.dotted = ".".intercalate (head :: tail) := by
    refine ⟨⟨false, ⟨head, Span.ofLength offset head.utf8ByteSize⟩, is, Span.upTo s.offset s'.previousEnd⟩,
      ?_, rfl, ?_⟩
    · simp [qualifiedName, hsecond, hcolons, hident, hmany, -expectIdent_eq_ok]
    · simp [QualifiedName.dotted, QualifiedName.parts, his]
  have hstatic : s.first?.any (·.isKeyword "static") = false := by rw [Cursor.first?, hs]; rfl
  have hsemi : s'.first?.any (·.isPunct ";") = true := by simpa [Cursor.first?, hs'] using ht
  refine ⟨⟨false, false, none, n, Span.upTo start s'.advance.previousEnd⟩, s'.advance, ?_,
    by rw [Cursor.rest_advance, hs']; rfl, rfl, hrelative, hdotted⟩
  simp [Parser.usingLine, usingAlias?, hstatic, hsecond, heq, hn, hsemi]

/-- What the line that imports a namespace is read as. -/
theorem using?_eq_some {head : String} {tail : List String} (h : ∀ name ∈ head :: tail, IsWord name)
    {s : Cursor} {offset index : Nat} (hs : s.rest = Lexed.tokensFrom offset index (usingLexemes head tail)) :
    ∃ u s', using? s = .ok (some u, s') ∧ s'.rest = [] ∧ u.Imports (".".intercalate (head :: tail)) := by
  have hrest : s.advance.rest = Lexed.tokensFrom (offset + 6) (index + 1)
      (wordLexeme head :: dottedLexemes tail ++ [mark ';']) := by
    rw [Cursor.rest_advance, hs]
    rfl
  obtain ⟨u, s', hline, hs', himports⟩ := usingLine_eq_some h s.offset hrest
  refine ⟨u, s', ?_, hs', himports⟩
  have hglobal : s.first?.any (·.spells "global") = false := by rw [Cursor.first?, hs]; rfl
  have hword : s.first?.any (·.isKeyword "using") = true := by rw [Cursor.first?, hs]; rfl
  simp [using?, hglobal, hword, hline]

/-! ### A new line among others -/

/-- A line to put before or behind the one that has the given span, and the tokens it is read from. -/
structure Addition where
  target : Span
  behind : Bool
  sees : Token → Token → Prop := fun _ _ => True
  tokens : List Token
  line : Using
  head : ∃ t r, tokens = t :: r ∧ t.isKeyword "using" = true
  reads : ∀ (t : Cursor) (v r : List Token), t.rest = v ++ r → Alike tokens v →
    ∃ y t', using? t = .ok (some y, t') ∧ t'.rest = r ∧ bare line = bare y

namespace Addition

variable (a : Addition)

/-- The lines with the new one among them. -/
def insert (us : List Using) : List Using :=
  us.flatMap fun u =>
    if u.span = a.target then if a.behind then [u, a.line] else [a.line, u] else [u]

/-- Whether the new line can be put next to this one: before it only if it begins with the same word. -/
def hits (u : Using) : Prop := u.span = a.target ∧ (a.behind = false → u.isGlobal = false)

/-- A node for the line that has the span. -/
def node : Node := ⟨0, a.target⟩

/-- The tokens of the line put in. -/
def change : Change :=
  .around a.node.span (if a.behind then [] else a.tokens) (if a.behind then a.tokens else []) id a.insert (fun
    | .expr _ => False
    | .usings us => ∃ u ∈ us, a.hits u) a.sees

variable {a}

theorem Lines.mem {w : List Token} {us : List Using} (h : Lines w us) {u : Using} (hu : u ∈ us) :
    ∃ x v y, w = x ++ v ++ y ∧ LineTokens u v ∧ Placed v ⟨0, u.span⟩ := by
  induction h with
  | nil => simp at hu
  | @cons v w u' us hv hp hs ih =>
    obtain rfl | hu := List.mem_cons.1 hu
    · exact ⟨[], v, w, by simp, hv, hp⟩
    · obtain ⟨x, z, y, rfl, hz, hpz⟩ := ih hu
      exact ⟨v ++ x, z, y, by simp, hz, hpz⟩

theorem placed_node {u : Using} (h : u.span = a.target) {v : List Token} (hp : Placed v ⟨0, u.span⟩) :
    Placed v a.node := by
  rw [h] at hp
  exact hp

theorem isLocal : a.change.Local where
  word t ht := if_neg ht
  owns p u v x hp hv ho := by
    cases p with
    | expr => exact hp.elim
    | usings us =>
      obtain ⟨line, hline, hhit⟩ := hp
      obtain ⟨y, z, y', rfl, hz, hpz⟩ := Lines.mem hv hline
      have ho' : Ordered ((u ++ y) ++ z ++ (y' ++ x)) := by simpa using ho
      have hout : a.change.Outside (u ++ y) ∧ a.change.Outside (y' ++ x) :=
        Change.outside_around (placed_node hhit.1 hpz) hz.ne_nil ho'
      exact ⟨hout.1.left, hout.2.right⟩

/-- A line whose tokens are outside is not the one next to which the new one comes. -/
theorem span_ne_of_outside {u : Using} {v : List Token} (hv : v ≠ []) (hp : Placed v ⟨0, u.span⟩)
    (ho : Ordered v) (hout : a.change.Outside v) : u.span ≠ a.target := fun hspan =>
  Change.not_outside_around (placed_node hspan hp) hv ho hout

/-- The new line comes next to the first one, or somewhere behind that or nowhere. -/
theorem fits_cons {u : Using} {us : List Using} {v w : List Token} (ho : Ordered (v ++ w)) (hv : v ≠ [])
    (hp : Placed v ⟨0, u.span⟩) (hl : Lines w us) (hf : a.change.Fits (v ++ w) [.usings (u :: us)]) :
    (a.hits u ∧ a.change.Outside w) ∨
      (u.span ≠ a.target ∧ a.change.Outside v ∧ a.change.Fits w [.usings us]) := by
  obtain hout | ⟨p, hmem, hown⟩ := hf
  · exact .inr ⟨span_ne_of_outside hv hp ho.left hout.left, hout.left, .inl hout.right⟩
  · obtain rfl := List.mem_singleton.1 hmem
    obtain ⟨x, hx, hhits⟩ := hown
    obtain rfl | hx := List.mem_cons.1 hx
    · have ho' : Ordered ([] ++ v ++ w) := ho
      exact .inl ⟨hhits, (Change.outside_around (placed_node hhits.1 hp) hv ho').2⟩
    · obtain ⟨b, z, d, rfl, hz, hpz⟩ := Lines.mem hl hx
      have ho' : Ordered ((v ++ b) ++ z ++ d) := by simpa using ho
      have hout : a.change.Outside (v ++ b) :=
        (Change.outside_around (placed_node hhits.1 hpz) hz.ne_nil ho').1
      exact .inr ⟨span_ne_of_outside hv hp ho.left hout.left, hout.left,
        .inr ⟨.usings us, List.mem_singleton_self _, x, hx, hhits⟩⟩

theorem bare_eq_of_isKeyword {a b : Token} {word : String} (ha : a.isKeyword word = true)
    (hb : b.isKeyword word = true) : bare a = bare b := by
  simp only [Token.isKeyword, Bool.and_eq_true, beq_iff_eq] at ha hb
  simp [bare, ha, hb]

/-- Reading the lines before the change and after it. -/
theorem rounds_insert {s s' : Cursor} {us : List Using} (h : Rounds using? s us s') (ho : Ordered s.rest)
    {w : List Token} (hw : Took s w s') (hfit : a.change.Fits w [.usings us])
    (hF : Agree s'.rest (a.change.tokens s'.rest)) :
    Agree s.rest (a.change.tokens s.rest) ∧
      ∀ t, a.change.Seen (a.change.tokens s.rest) t.rest → ∃ ys t', Rounds using? t ys t' ∧
        a.change.Seen (a.change.tokens s'.rest) t'.rest ∧ bare (a.insert us) = bare ys := by
  induction h generalizing w with
  | @stop s s' h =>
    obtain ⟨-, rfl⟩ | ⟨_, _, h', -⟩ := using?_eq_ok h
    · refine ⟨hF, fun t ht => ?_⟩
      obtain ⟨v, hv, hsteady⟩ := Steady.using? _ _ _ h
      obtain rfl := hv.unique (.refl _)
      obtain ⟨y, t', hy, ht', hb⟩ := hsteady t [] t.rest rfl (.refl _) (hF.trans_alike ht.alike)
      cases y with
      | some y => simp at hb
      | none => exact ⟨[], t', .stop hy, by rwa [ht'], rfl⟩
    · simp at h'
  | @next s m s' u us h hs ih =>
    obtain ⟨h', -⟩ | ⟨line, w₁, h', hw₁, hline, hspan⟩ := using?_eq_ok h
    · simp at h'
    obtain rfl := Option.some.inj h'
    have hom := hw₁.ordered ho
    obtain ⟨w', hw', hlines⟩ := lines_usings ((many_eq_ok progresses_using?).2 hs) hom
    obtain rfl : w = w₁ ++ w' := hw.unique (hw₁.trans hw')
    have how : Ordered (w₁ ++ w') := hw.ordered_words ho
    have hp : Placed w₁ ⟨0, u.span⟩ := hspan ▸ hw₁.placed ho 0
    obtain ⟨v, hv, hmark, hread⟩ := settled_using? s _ m h rfl
    obtain rfl := hv.unique hw₁
    have hrest : a.change.tokens s.rest = a.change.tokens v ++ a.change.tokens m.rest := by
      rw [hw₁.rest, Change.tokens_append]
    obtain ⟨hhit, hout⟩ | ⟨hne, hout, hfit⟩ := fits_cons how hline.ne_nil hp hlines hfit
    · obtain ⟨-, hrun⟩ := ih hom hw' (.inl hout) hF
      have htokens : a.change.tokens v = _ :=
        Change.tokens_around (placed_node hhit.1 hp) how.left hline.ne_nil
      have hinsert : a.insert (u :: us) = (if a.behind then [u, a.line] else [a.line, u]) ++ a.insert us := by
        simp [insert, hhit.1]
      rw [hrest, htokens, hw₁.rest, hinsert]
      cases hb : a.behind with
      | true =>
        simp only [if_true, List.nil_append, List.append_assoc]
        refine ⟨hmark v _ _ (.refl v), fun t ht => ?_⟩
        obtain ⟨v₁, _, ht₀, hv₁, ht⟩ := ht.append_left
        obtain ⟨v₂, r, rfl, hv₂, hr⟩ := ht.append_left
        obtain ⟨y, t₁, hy, ht₁, hyu⟩ := hread t v₁ _ ht₀ hv₁.alike
        obtain ⟨z, t₂, hz, ht₂, hzl⟩ := a.reads t₁ v₂ r ht₁ hv₂.alike
        obtain ⟨ys, t', hys, ht', hb⟩ := hrun t₂ (by rwa [ht₂])
        cases y with
        | none => simp at hyu
        | some y =>
          refine ⟨y :: z :: ys, t', .next hy (.next hz hys), ht', ?_⟩
          simp only [bare_some, Option.some.injEq] at hyu
          simp [hyu, hzl, hb]
      | false =>
        simp only [if_false, List.append_nil, List.append_assoc, Bool.false_eq_true]
        obtain ⟨k, r₀, hk, hword⟩ := hline.head (hhit.2 hb)
        obtain ⟨k', r₁, hk', hword'⟩ := a.head
        have hagree : Agree (v ++ m.rest) (a.tokens ++ (v ++ a.change.tokens m.rest)) := by
          rw [hk, hk', List.cons_append, List.cons_append]
          exact .plain (bare_eq_of_isKeyword hword hword') (isPlain_of_isKeyword hword (by decide))
        refine ⟨hagree, fun t ht => ?_⟩
        obtain ⟨v₂, _, ht₀, hv₂, ht⟩ := ht.append_left
        obtain ⟨v₁, r, rfl, hv₁, hr⟩ := ht.append_left
        obtain ⟨z, t₁, hz, ht₁, hzl⟩ := a.reads t v₂ _ ht₀ hv₂.alike
        obtain ⟨y, t₂, hy, ht₂, hyu⟩ := hread t₁ v₁ r ht₁ hv₁.alike
        obtain ⟨ys, t', hys, ht', hb⟩ := hrun t₂ (by rwa [ht₂])
        cases y with
        | none => simp at hyu
        | some y =>
          refine ⟨z :: y :: ys, t', .next hz (.next hy hys), ht', ?_⟩
          simp only [bare_some, Option.some.injEq] at hyu
          simp [hyu, hzl, hb]
    · obtain ⟨-, hrun⟩ := ih hom hw' hfit hF
      have hinsert : a.insert (u :: us) = u :: a.insert us := by simp [insert, hne]
      rw [hrest, isLocal.tokens_outside hout, hw₁.rest, hinsert]
      refine ⟨hmark v _ _ (.refl v), fun t ht => ?_⟩
      obtain ⟨v₁, r, ht₀, hv₁, hr⟩ := ht.append_left
      obtain ⟨y, t₁, hy, ht₁, hyu⟩ := hread t v₁ _ ht₀ hv₁.alike
      obtain ⟨ys, t', hys, ht', hb⟩ := hrun t₁ (by rwa [ht₁])
      cases y with
      | none => simp at hyu
      | some y =>
        refine ⟨y :: ys, t', .next hy hys, ht', ?_⟩
        simp only [bare_some, Option.some.injEq] at hyu
        simp [hyu, hb]

/-- The lines of a list, before the change and after it. -/
theorem mirrors_usings (bound : Nat) :
    Mirrors a.change bound Agree Agree [] [] Parser.usings Parser.usings := by
  intro s us s' hs ho
  obtain ⟨w, hw, hlines⟩ := lines_usings hs ho
  refine ⟨w, [.usings us], rfl, hw, .single (p := .usings us) hlines, .nil, fun hfit hF => ?_⟩
  obtain ⟨hA, hrun⟩ := rounds_insert ((many_eq_ok progresses_using?).1 hs) ho hw hfit hF
  refine ⟨hA, fun t ht _ => ?_⟩
  obtain ⟨ys, t', hys, ht', hb⟩ := hrun t ht
  exact ⟨ys, t', [.usings ys], (many_eq_ok progresses_using?).2 hys, ht', hb, rfl, .cons (.usings us ys) .nil⟩

theorem lawful : a.change.Lawful where
  toLocal := isLocal
  spelled w n e h _ hf := by
    have hout : a.change.Outside w := by
      obtain h | ⟨p, hp, h⟩ := hf
      · exact h
      · obtain rfl := List.mem_singleton.1 hp
        exact h.elim
    rw [isLocal.tokens_outside hout]
    exact h.mono fun _ _ => Placed.begins
  heads w e h k r _ _ hf hw _ _ := by
    have hout : a.change.Outside w := by
      obtain h | ⟨p, hp, h⟩ := hf
      · exact h
      · obtain rfl := List.mem_singleton.1 hp
        exact h.elim
    exact ⟨r, (isLocal.tokens_outside hout).symm.trans hw⟩
  usings := mirrors_usings

/-- A line that imports a namespace can be put before or behind any other. -/
theorem exists_of_isWord {head : String} {tail : List String} (h : ∀ name ∈ head :: tail, IsWord name)
    (target : Span) (behind : Bool) (sees : Token → Token → Prop) :
    ∃ a : Addition, a.target = target ∧ a.behind = behind ∧ a.sees = sees ∧
      Alike a.tokens (Lexed.tokensFrom 0 0 (usingLexemes head tail)) ∧ (∀ t ∈ a.tokens, t.start = 0) ∧
      a.line.Imports (".".intercalate (head :: tail)) := by
  let tokens := Lexed.tokensFrom 0 0 (usingLexemes head tail)
  obtain ⟨line, s', hline, hs', himports⟩ := using?_eq_some h (s := Cursor.ofTokens tokens 0) rfl
  obtain ⟨w, hw, -, hread⟩ := settled_using? _ _ _ hline rfl
  obtain rfl : tokens = w := by
    have := hw.rest
    rwa [hs', List.append_nil] at this
  -- where the tokens stood is of no account
  let placeless := tokens.map fun t => { t with start := 0 }
  have halike : Alike placeless tokens := by
    change (tokens.map _).map bare = tokens.map bare
    rw [List.map_map]
    rfl
  refine ⟨⟨target, behind, sees, placeless, line, ⟨_, _, rfl, rfl⟩, fun t v r hr hv => ?_⟩, rfl, rfl, rfl, halike,
    fun t ht => ?_, himports⟩
  · obtain ⟨y, t', hy, ht', hb⟩ := hread t v r hr (halike.symm.trans hv)
    cases y with
    | none => simp at hb
    | some y => exact ⟨y, t', hy, ht', by simpa using hb⟩
  · obtain ⟨_, -, rfl⟩ := List.mem_map.1 ht
    rfl

end Addition

end CultureLint
