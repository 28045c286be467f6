import CultureLint.Proofs.Token.UsingLine

/-! Tokens that are written apart. A token whose text is that token also when nothing else is there may be
written before a space, so tokens with spaces between them are read back one by one; and every token of a
text is such a token. A name is written as it is, with an `@` only where it is a reserved word. -/

namespace CultureLint

namespace Token

/-- The text of the token, read alone, is that token and nothing else. -/
def StandsAlone (t : Token) : Prop :=
  Lexeme.ofText t.text.toList = .ok [⟨.token t.kind, t.text.toList⟩]

instance (t : Token) : Decidable t.StandsAlone :=
  decidable_of_iff ((Lexeme.ofText t.text.toList).toOption = some [⟨.token t.kind, t.text.toList⟩]) <| by
    unfold StandsAlone
    cases Lexeme.ofText t.text.toList <;> simp [Except.toOption]

theorem standsAlone_iff {t : Token} :
    t.StandsAlone ↔ Scans true t.text.toList [⟨.token t.kind, t.text.toList⟩] := Scans.ofText_iff

/-! ### Tokens with spaces between them -/

/-- The texts of tokens with single spaces between them. -/
def spaced (w : List Token) : String := " ".intercalate (w.map text)

/-- The lexemes of tokens with single spaces between them. -/
def spacedLexemes : List Token → List Lexeme
  | [] => []
  | [t] => [⟨.token t.kind, t.text.toList⟩]
  | t :: u :: w => ⟨.token t.kind, t.text.toList⟩ :: ⟨.blank, [' ']⟩ :: spacedLexemes (u :: w)

theorem toList_spaced_cons (t u : Token) (w : List Token) :
    (spaced (t :: u :: w)).toList = t.text.toList ++ ' ' :: (spaced (u :: w)).toList := by
  simp [spaced, String.intercalate_cons_cons]

theorem head_spacedLexemes (t : Token) (w : List Token) :
    ∃ rest, spacedLexemes (t :: w) = ⟨.token t.kind, t.text.toList⟩ :: rest := by
  cases w <;> exact ⟨_, rfl⟩

theorem scans_spaced {w : List Token} (h : ∀ t ∈ w, t.StandsAlone) (b : Bool) :
    Scans b (spaced w).toList (spacedLexemes w) := by
  fun_induction spacedLexemes w generalizing b with
  | case1 => exact .nil
  | case2 t =>
    have ht := standsAlone_iff.1 (h t (List.mem_cons_self ..))
    have halone : Scans b t.text.toList [⟨.token t.kind, t.text.toList⟩] := ht.of_token
    simpa [spaced] using halone
  | case3 t u w ih =>
    have ht := standsAlone_iff.1 (h t (List.mem_cons_self ..))
    have hrest := ih fun x hx => h x (List.mem_cons_of_mem _ hx)
    have hhead : (spaced (u :: w)).toList.head?.any Text.isBlank = false := by
      obtain ⟨rest, hcons⟩ := head_spacedLexemes u w
      have hscans := hrest true
      rw [hcons] at hscans
      obtain ⟨c, x, hx, hc⟩ := hscans.head_of_token
      rw [hscans.eq_written, written_cons, hx]
      exact hc
    have hblank : Scans false (' ' :: (spaced (u :: w)).toList) (⟨.blank, [' ']⟩ :: spacedLexemes (u :: w)) :=
      .cons (Lexeme.scan_blanks (t := []) (by decide) (by simp) hhead) (hrest _)
    have halone : Scans b t.text.toList ([⟨.token t.kind, t.text.toList⟩] ++ []) := ht.of_token
    have hboth := halone.exchange (.of_stop (by simp) _ _) (fun lexeme hl => ?_) hblank
    · simpa [toList_spaced_cons] using hboth
    · obtain rfl := Option.some.inj hl
      exact .of_token fun _ _ hpoint => absurd hpoint (by simp)

theorem alike_tokensFrom_spaced (w : List Token) (offset index : Nat) :
    Alike w (Lexed.tokensFrom offset index (spacedLexemes w)) := by
  have word (t : Token) (offset index : Nat) :
      bare t = bare (⟨index, t.kind, String.ofList t.text.toList, offset⟩ : Token) := by simp [bare]
  fun_induction spacedLexemes w generalizing offset index with
  | case1 => rfl
  | case2 t => exact congrArg (· :: []) (word t offset index)
  | case3 t u w ih => exact List.cons_eq_cons.2 ⟨word t offset index, ih _ _⟩

/-- Tokens with spaces between them are read back. -/
theorem ofText_spaced {w : List Token} (h : ∀ t ∈ w, t.StandsAlone) :
    ∃ lexed, Lexed.ofText (spaced w) = .ok lexed ∧ Alike w lexed.tokens :=
  ⟨_, Lexed.ofText_eq_ok.2 ⟨_, scans_spaced h true, rfl⟩, alike_tokensFrom_spaced w 0 0⟩

/-- Every token of a text would also stand alone. -/
theorem standsAlone_of_ofText {text : String} {lexed : Lexed} (h : Lexed.ofText text = .ok lexed) :
    ∀ t ∈ lexed.tokens, t.StandsAlone := by
  intro t ht
  obtain ⟨lexemes, hs, rfl⟩ := Lexed.ofText_eq_ok.1 h
  obtain ⟨u, r, hsplit⟩ := List.append_of_mem ht
  obtain ⟨first, kind, text, second, rfl, -, rfl, -⟩ := Lexed.tokensFrom_split hsplit
  have hright : Scans _ _ ([⟨.token kind, text⟩] ++ second) := hs.right
  have halone := hright.exchange (.nil _) (fun lexeme hl => ?_) .nil
  · refine standsAlone_iff.2 ?_
    have htrue : Scans true _ _ := halone.of_token
    simpa using htrue
  · obtain rfl := Option.some.inj hl
    exact .of_token fun _ _ hpoint => absurd hpoint (by simp)

theorem directivesFrom_spaced (w : List Token) (offset : Nat) :
    Lexed.directivesFrom offset (spacedLexemes w) = [] := by
  fun_induction spacedLexemes w generalizing offset with
  | case1 => rfl
  | case2 t => rfl
  | case3 t u w ih => exact ih _

/-- The texts of the tokens determine the tokens: with nothing but single spaces between them they are read
back, each of the class it had, and no directive comes up. -/
theorem ofText_spaced_tokens {text : String} {lexed : Lexed} (h : Lexed.ofText text = .ok lexed) :
    ∃ again, Lexed.ofText (spaced lexed.tokens) = .ok again ∧
      (again.tokens.map fun t => (t.kind, t.text)) = (lexed.tokens.map fun t => (t.kind, t.text)) ∧
      again.directives = [] := by
  have hscans := scans_spaced (standsAlone_of_ofText h) true
  refine ⟨_, Lexed.ofText_eq_ok.2 ⟨_, hscans, rfl⟩, ?_, directivesFrom_spaced _ 0⟩
  have halike := alike_tokensFrom_spaced lexed.tokens 0 0
  have hwords := congrArg (List.map fun t : Token => (t.kind, t.text)) halike
  simp only [bare, List.map_map] at hwords
  exact hwords.symm

/-- Tokens of all classes behind a directive, with hardly a blank between them: two strings that hold quotes,
one of them with a hole, a point between a number and a name, and a name that begins with an `@`. -/
def crowdedText : String := "#if A\n1.e5/**/+.5f@\"a\"\"\n\"$\"\x7b\"\x7d\"\x7d\"'\\''??=@if else"

theorem ofText_spaced_tokens_crowded : ∃ lexed again, Lexed.ofText crowdedText = .ok lexed ∧
    lexed.tokens.length = 11 ∧ lexed.directives.length = 1 ∧
    Lexed.ofText (spaced lexed.tokens) = .ok again ∧
    (again.tokens.map fun t => (t.kind, t.text)) = (lexed.tokens.map fun t => (t.kind, t.text)) ∧
    again.directives = [] := by
  have found : ((Lexed.ofText crowdedText).toOption.any fun lexed =>
      lexed.tokens.length = 11 && lexed.directives.length = 1) = true := by decide +kernel
  cases h : Lexed.ofText crowdedText with
  | error e => simp [h, Except.toOption] at found
  | ok lexed =>
    simp only [h, Except.toOption, Option.any_some, Bool.and_eq_true, decide_eq_true_eq] at found
    obtain ⟨again, hagain⟩ := ofText_spaced_tokens h
    exact ⟨lexed, again, rfl, found.1, found.2, hagain⟩

/-! ### Marks -/

/-- A token of the class of punctuation. -/
def mark (text : String) : Token := ⟨0, .punctuation, text, 0⟩

theorem standsAlone_mark {text : String} (h : text ∈ operators) : (mark text).StandsAlone := by
  have all : ∀ op ∈ operators, (mark op).StandsAlone := by decide +kernel
  exact all text h

/-! ### Names -/

/-- The identifier that gives a name: only before a reserved word it has an `@`. -/
def ofName (name : String) : Token :=
  ⟨0, .identifier, if isReserved name then "@" ++ name else name, 0⟩

/-- The token without its place, and an identifier as its name is written. -/
def word (t : Token) : Token := if t.isIdentifier then ofName t.name else bare t

theorem isReserved_at (cs : List Char) : isReserved (String.ofList ('@' :: cs)) = false := by
  have all : ∀ word ∈ keywords, word.toList.head? ≠ some '@' := by decide +kernel
  refine Bool.eq_false_iff.2 fun h => ?_
  exact all _ (List.contains_iff_mem.1 h) (by simp)

/-- An identifier that begins with an `@`. -/
theorem scan_at {b : Bool} {c : Char} {t : List Char} (hc : Lexeme.isIdentifierStart c = true)
    (ht : ∀ x ∈ t, Lexeme.isIdentifierPart x = true) :
    Lexeme.scan b '@' (c :: t) = .ok (⟨.token .identifier, '@' :: c :: t⟩, []) := by
  have ne {x : Char} (hx : Lexeme.isIdentifierStart x = false) : c ≠ x := by
    rintro rfl
    simp [hc] at hx
  have hopen : openString? ('@' :: c :: t) = none := by
    simp [openString?, ne (x := '$') (by decide), ne (x := '\x22') (by decide)]
  have hparts : ∀ x ∈ c :: t, Lexeme.isIdentifierPart x = true := by
    simpa [Lexeme.isIdentifierPart_of_start hc] using ht
  have htake := takeWhile_append hparts (r := []) rfl
  have hdrop := dropWhile_append hparts (r := []) rfl
  rw [List.append_nil] at htake hdrop
  refine Lexeme.scan_eq_token.2 ⟨by decide, by simp, by simp, by simp, ?_⟩
  have hstarts : Lexeme.startsIdentifier ('@' :: c :: t) = true := by simp [Lexeme.startsIdentifier, hc]
  rw [Lexeme.scanToken, hopen]
  simp only [hstarts, htake, hdrop, Lexeme.wordKind, isReserved_at]
  simp [startsNumber]

/-- A name can be written as an identifier. -/
theorem standsAlone_ofName {name : String} (h : IsName name) : (ofName name).StandsAlone := by
  obtain ⟨c, t, hname, hc, ht⟩ := isName_iff.1 h
  refine standsAlone_iff.2 ?_
  cases hres : isReserved name with
  | true =>
    have hscan : Scans true ('@' :: c :: t) [⟨.token .identifier, '@' :: c :: t⟩] :=
      .cons (scan_at hc ht) .nil
    simpa [ofName, hres, hname] using hscan
  | false =>
    have hscan := Lexeme.scan_word (b := true) hc ht (r := []) rfl
    have hkind : Lexeme.wordKind (c :: t) = .identifier := by
      simp [Lexeme.wordKind, ← hname, hres]
    rw [List.append_nil, hkind] at hscan
    simpa [ofName, hres, hname] using Scans.cons hscan .nil

theorem ne_at_of_isIdentifierStart {c : Char} (h : Lexeme.isIdentifierStart c = true) : c ≠ '@' := by
  rintro rfl
  exact absurd h (by decide)

/-- The identifier of a name gives that name. -/
theorem name_ofName {name : String} (h : IsName name) : (ofName name).name = name := by
  obtain ⟨c, t, hname, hc, -⟩ := isName_iff.1 h
  have hat : (c == '@') = false := by simpa using ne_at_of_isIdentifierStart hc
  have hdrop : name.toList.dropWhile (· == '@') = name.toList := by
    rw [hname, List.dropWhile_cons_of_neg (by simp [hat])]
  cases hres : isReserved name with
  | true => simp [Token.name, ofName, hres, hdrop]
  | false => simp [Token.name, ofName, hres, hdrop]

theorem kind_scanNumber (cs : List Char) :
    (scanNumber cs).1 = .integer ∨ (scanNumber cs).1 = .real := by
  unfold scanNumber
  split
  · exact .inl rfl
  · dsimp only
    split
    · exact .inl rfl
    · exact .inr rfl

/-- What an identifier looks like. -/
theorem scanToken_identifier {c : Char} {cs text r : List Char}
    (h : Lexeme.scanToken c cs = .ok (.identifier, text, r)) :
    Lexeme.startsIdentifier (c :: cs) = true ∧ text = c :: cs.takeWhile Lexeme.isIdentifierPart := by
  unfold Lexeme.scanToken at h
  split at h
  · split at h <;> simp at h
  split at h
  · split at h <;> simp at h
  split at h
  · have hkind := kind_scanNumber (c :: cs)
    rw [Except.ok.inj h] at hkind
    simp at hkind
  split at h
  · simp only [Except.ok.injEq, Prod.mk.injEq] at h
    exact ⟨‹_›, h.2.1.symm⟩
  · split at h <;> simp at h

/-- An identifier gives a name. -/
theorem StandsAlone.isName {t : Token} (h : t.StandsAlone) (hi : t.isIdentifier = true) :
    IsName t.name := by
  have hscans := standsAlone_iff.1 h
  rw [show t.kind = .identifier by simpa [isIdentifier] using hi] at hscans
  generalize htext : t.text.toList = text at hscans
  cases hscans with
  | @cons _ c cs r _ _ hs hr =>
    obtain ⟨-, -, -, -, htoken⟩ := Lexeme.scan_eq_token.1 hs
    obtain ⟨hstarts, hcs⟩ := scanToken_identifier htoken
    have hparts : ∀ x ∈ cs, Lexeme.isIdentifierPart x = true := by
      rw [(List.cons.inj hcs).2]
      exact mem_takeWhile
    simp only [Lexeme.startsIdentifier, Bool.or_eq_true, Bool.and_eq_true, beq_iff_eq] at hstarts
    refine isName_iff.2 ?_
    rw [Token.name, String.toList_ofList, htext]
    obtain hc | ⟨rfl, hd⟩ := hstarts
    · have hat : (c == '@') = false := by simpa using ne_at_of_isIdentifierStart hc
      exact ⟨c, cs, List.dropWhile_cons_of_neg (by simp [hat]), hc, hparts⟩
    · cases cs with
      | nil => simp at hd
      | cons d cs =>
        have hat : (d == '@') = false := by simpa using ne_at_of_isIdentifierStart hd
        refine ⟨d, cs, ?_, hd, fun x hx => hparts x (List.mem_cons_of_mem _ hx)⟩
        rw [List.dropWhile_cons_of_pos (by simp), List.dropWhile_cons_of_neg (by simp [hat])]

end Token

end CultureLint
