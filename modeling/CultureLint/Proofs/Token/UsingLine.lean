import CultureLint.Proofs.Token.Lexemes

/-! The lexemes of a line that imports a namespace, and a text in which such a line is put before a
token, behind a semicolon, or at the end. -/

namespace CultureLint

open Scans (mark)

/-! ### Single lexemes -/

theorem Text.exists_of_inRanges {n : Nat} {ranges : List (Nat × Nat)} (h : Text.inRanges n ranges = true) :
    ∃ r ∈ ranges, r.1 ≤ n ∧ n ≤ r.2 := by
  induction ranges with
  | nil => simp [Text.inRanges] at h
  | cons r ranges ih =>
    rw [Text.inRanges] at h
    split at h
    · simp at h
    · obtain h | h := Bool.or_eq_true_iff.1 h
      · exact ⟨r, by simp, by omega, by simpa using h⟩
      · obtain ⟨s, hs, hn⟩ := ih h
        exact ⟨s, List.mem_cons_of_mem _ hs, hn⟩

namespace Lexeme

/-- No blank belongs to an identifier. -/
theorem isIdentifierPart_of_isBlank {c : Char} (h : Text.isBlank c = true) :
    isIdentifierPart c = false := by
  have all : Text.blankRanges.all (fun r => (List.range (r.2 + 1 - r.1)).all fun i =>
      !isIdentifierPart (Char.ofNat (r.1 + i))) = true := by decide +kernel
  obtain ⟨r, hr, hlow, hhigh⟩ := Text.exists_of_inRanges h
  have := List.all_eq_true.1 (List.all_eq_true.1 all r hr) (c.toNat - r.1) (List.mem_range.2 (by omega))
  rwa [Nat.add_sub_cancel' hlow, Char.ofNat_toNat, Bool.not_eq_true'] at this

theorem isBlank_of_isIdentifierStart {c : Char} (h : isIdentifierStart c = true) :
    Text.isBlank c = false := by
  cases hb : Text.isBlank c with
  | false => rfl
  | true => simpa [isIdentifierPart_of_isBlank hb] using isIdentifierPart_of_start h

/-- An identifier begins with no digit. -/
theorem isDigit_of_isIdentifierStart {c : Char} (h : isIdentifierStart c = true) :
    c.isDigit = false := by
  have all : (List.range 10).all (fun i => !isIdentifierStart (Char.ofNat (48 + i))) = true := by
    decide
  cases hd : c.isDigit with
  | false => rfl
  | true =>
    simp only [Char.isDigit, Bool.and_eq_true, decide_eq_true_eq] at hd
    have hlow : 48 ≤ c.toNat := hd.1
    have hhigh : c.toNat ≤ 57 := hd.2
    have := List.all_eq_true.1 all (c.toNat - 48) (List.mem_range.2 (by omega))
    rw [Nat.add_sub_cancel' hlow, Char.ofNat_toNat, h] at this
    exact Bool.noConfusion this

theorem scan_blanks {b : Bool} {c : Char} {t r : List Char} (hc : Text.isBlank c = true)
    (ht : ∀ x ∈ t, Text.isBlank x = true) (hr : r.head?.any Text.isBlank = false) :
    scan b c (t ++ r) = .ok (⟨.blank, c :: t⟩, r) := by
  have hall : ∀ x ∈ c :: t, Text.isBlank x = true := by simpa [hc] using ht
  rw [scan, if_pos hc, ← List.cons_append, takeWhile_append hall hr, dropWhile_append hall hr]

/-- A word that no letter follows. -/
theorem scan_word {b : Bool} {c : Char} {t r : List Char} (hc : isIdentifierStart c = true)
    (ht : ∀ x ∈ t, isIdentifierPart x = true) (hr : r.head?.any isIdentifierPart = false) :
    scan b c (t ++ r) = .ok (⟨.token (wordKind (c :: t)), c :: t⟩, r) := by
  have ne {x : Char} (hx : isIdentifierStart x = false) : c ≠ x := by
    rintro rfl
    simp [hc] at hx
  have hslash := ne (x := '/') (by decide)
  have hhash := ne (x := '#') (by decide)
  have hquote := ne (x := '\x27') (by decide)
  have hpoint := ne (x := '.') (by decide)
  have hopen : Token.openString? (c :: (t ++ r)) = none := by
    simp [Token.openString?, ne (x := '$') (by decide), ne (x := '@') (by decide),
      ne (x := '\x22') (by decide)]
  have hnumber : Token.startsNumber (c :: (t ++ r)) = false := by
    simp [Token.startsNumber, isDigit_of_isIdentifierStart hc, hpoint]
  have htoken : scanToken c (t ++ r) = .ok (wordKind (c :: t), c :: t, r) := by
    simp [scanToken, hopen, hquote, hnumber, startsIdentifier, hc, takeWhile_append ht hr,
      dropWhile_append ht hr]
  rw [scan, if_neg (by simp [isBlank_of_isIdentifierStart hc]), if_neg (by simp [hslash]),
    if_neg (by simp [hslash]), if_neg (by simp [hhash]), htoken]
  rfl

/-- A point that no digit follows. -/
theorem scan_point {b : Bool} {r : List Char} (hr : Token.startsDigit r = false) :
    scan b '.' r = .ok (mark '.', r) := by
  have hnumber : Token.startsNumber ('.' :: r) = false := by simp [Token.startsNumber, hr]
  have htoken : scanToken '.' r = .ok (.punctuation, ['.'], r) := by
    have hword : startsIdentifier ('.' :: r) = false := by
      simp [startsIdentifier, show isIdentifierStart '.' = false by decide]
    have hop : operator? ('.' :: r) = some ['.'] := by cases r <;> rfl
    simp [scanToken, Token.openString?, hnumber, hword, hop]
  rw [scan, if_neg (by decide), if_neg (by simp), if_neg (by simp), if_neg (by simp), htoken]
  rfl

end Lexeme

/-! ### Names of namespaces -/

/-- A lexeme that is an identifier. -/
def wordLexeme (name : String) : Lexeme := ⟨.token .identifier, name.toList⟩

/-- The lexemes that take members of what stands before them. -/
def dottedLexemes (names : List String) : List Lexeme :=
  names.flatMap fun name => [mark '.', wordLexeme name]

/-- A name as an identifier gives it, which may also be a reserved word. -/
def IsName (name : String) : Prop :=
  name.toList.head?.any Lexeme.isIdentifierStart = true ∧
    name.toList.tail.all Lexeme.isIdentifierPart = true

instance (name : String) : Decidable (IsName name) := inferInstanceAs (Decidable (_ ∧ _))

theorem isName_iff {name : String} : IsName name ↔ ∃ c t, name.toList = c :: t ∧
    Lexeme.isIdentifierStart c = true ∧ ∀ x ∈ t, Lexeme.isIdentifierPart x = true := by
  unfold IsName
  cases name.toList with
  | nil => simp
  | cons c t =>
    simp only [List.head?_cons, Option.any_some, List.tail_cons, List.all_eq_true]
    exact ⟨fun h => ⟨c, t, rfl, h⟩, fun ⟨_, _, heq, h⟩ => by cases heq; exact h⟩

/-- An identifier that is no reserved word and has no `@` before it. -/
def IsWord (name : String) : Prop :=
  name.toList.head?.any Lexeme.isIdentifierStart = true ∧
    name.toList.tail.all Lexeme.isIdentifierPart = true ∧ Token.isReserved name = false

instance (name : String) : Decidable (IsWord name) := inferInstanceAs (Decidable (_ ∧ _))

theorem IsWord.exists_cons {name : String} (h : IsWord name) : ∃ c t, name.toList = c :: t ∧
    Lexeme.isIdentifierStart c = true ∧ ∀ x ∈ t, Lexeme.isIdentifierPart x = true :=
  isName_iff.1 ⟨h.1, h.2.1⟩

/-- Identifiers with points between them. -/
def IsNamespaceName (space : String) : Prop :=
  ∃ head tail, space = ".".intercalate (head :: tail) ∧ ∀ name ∈ head :: tail, IsWord name

/-- The lexemes of the line that imports a namespace. -/
def usingLexemes (head : String) (tail : List String) : List Lexeme :=
  ⟨.token .keyword, "using".toList⟩ :: ⟨.blank, [' ']⟩ :: wordLexeme head :: dottedLexemes tail ++ [mark ';']

theorem filter_directives_usingLexemes (head : String) (tail : List String) :
    (usingLexemes head tail).filter (·.kind == .directive) = [] := by
  refine List.filter_eq_nil_iff.2 fun lexeme hl => ?_
  simp only [usingLexemes, dottedLexemes, List.cons_append, List.mem_cons, List.mem_append, List.mem_flatMap,
    List.not_mem_nil, or_false] at hl
  obtain rfl | rfl | rfl | ⟨_, -, rfl | rfl⟩ | rfl := hl <;> rintro ⟨⟩

theorem scans_word {b : Bool} {name : String} (h : IsWord name) {r : List Char} {lexemes : List Lexeme}
    (hr : r.head?.any Lexeme.isIdentifierPart = false) (hs : Scans false r lexemes) :
    Scans b (name.toList ++ r) (wordLexeme name :: lexemes) := by
  obtain ⟨c, t, hname, hc, ht⟩ := h.exists_cons
  have hscan : Lexeme.scan b c (t ++ r) = .ok (wordLexeme name, r) := by
    rw [Lexeme.scan_word hc ht hr, wordLexeme, hname]
    simp [Lexeme.wordKind, ← hname, h.2.2]
  rw [hname]
  exact .cons hscan hs

theorem head_of_isWord {name : String} (h : IsWord name) (r : List Char) :
    (name.toList ++ r).head?.any Text.isBlank = false ∧ Token.startsDigit (name.toList ++ r) = false := by
  obtain ⟨c, t, hname, hc, -⟩ := h.exists_cons
  rw [hname]
  exact ⟨Lexeme.isBlank_of_isIdentifierStart hc, Lexeme.isDigit_of_isIdentifierStart hc⟩

theorem head_dotted (names : List String) (r : List Char) :
    (written (dottedLexemes names) ++ ';' :: r).head?.any Lexeme.isIdentifierPart = false := by
  cases names with
  | nil => rfl
  | cons name names => rfl

theorem scans_dotted {tail : List String} (h : ∀ name ∈ tail, IsWord name) {lexemes : List Lexeme}
    {r : List Char} (hs : Scans false r lexemes) :
    Scans false (written (dottedLexemes tail) ++ ';' :: r) (dottedLexemes tail ++ mark ';' :: lexemes) := by
  induction tail with
  | nil => exact .cons (Scans.scan_mark (by simp) _) hs
  | cons name tail ih =>
    have hname := h name (List.mem_cons_self ..)
    have hrest := ih fun x hx => h x (List.mem_cons_of_mem _ hx)
    have hword := scans_word (b := false) hname (head_dotted tail r) hrest
    have hpoint : Scans false _ _ := .cons (Lexeme.scan_point (head_of_isWord hname _).2) hword
    simpa [dottedLexemes, wordLexeme, mark] using hpoint

/-- A line that imports a namespace, before anything. -/
theorem scans_using {b : Bool} {head : String} {tail : List String}
    (h : ∀ name ∈ head :: tail, IsWord name) {second : List Lexeme}
    (hs : Scans false (written second) second) :
    Scans b (written (usingLexemes head tail ++ second)) (usingLexemes head tail ++ second) := by
  have hdotted := scans_dotted (fun x hx => h x (List.mem_cons_of_mem _ hx)) hs
  have hhead := h head (List.mem_cons_self ..)
  have hword := scans_word (b := false) hhead (head_dotted tail _) hdotted
  have hblank : Scans false _ _ := .cons (Lexeme.scan_blanks (c := ' ') (t := []) (by decide) (by simp)
    (head_of_isWord hhead _).1) hword
  have husing : Lexeme.scan b 'u' ("sing".toList ++ (' ' :: (head.toList ++
      (written (dottedLexemes tail) ++ ';' :: written second)))) = .ok (⟨.token .keyword, "using".toList⟩, _) :=
    Lexeme.scan_word (by decide) (List.all_eq_true.1 (by decide))
      (show Lexeme.isIdentifierPart ' ' = false by decide)
  have := Scans.cons husing hblank
  simpa [usingLexemes, wordLexeme, mark] using this

/-! ### A new line in a text -/

namespace Scans

variable {b : Bool} {cs : List Char} {head : String} {tail : List String} {gap : List Char}
  {first second : List Lexeme}

theorem blanks (hgap : gap ≠ []) (hblank : ∀ c ∈ gap, Text.isBlank c = true)
    (hhead : (written second).head?.any Text.isBlank = false) (h : ∀ b, Scans b (written second) second) :
    Scans b (written (⟨.blank, gap⟩ :: second)) (⟨.blank, gap⟩ :: second) := by
  obtain ⟨c, t, rfl⟩ := List.exists_cons_of_ne_nil hgap
  exact .cons (Lexeme.scan_blanks (hblank c (List.mem_cons_self ..))
    (fun x hx => hblank x (List.mem_cons_of_mem _ hx)) hhead) (h _)

/-- The line put before another one. -/
theorem before_using (hwords : ∀ name ∈ head :: tail, IsWord name) (hgap : gap ≠ [])
    (hblank : ∀ c ∈ gap, Text.isBlank c = true)
    (h : Scans b cs (first ++ ⟨.token .keyword, "using".toList⟩ :: second)) :
    Scans b (written (first ++ (usingLexemes head tail ++ [⟨.blank, gap⟩] ++
        ⟨.token .keyword, "using".toList⟩ :: second)))
      (first ++ (usingLexemes head tail ++ [⟨.blank, gap⟩] ++ ⟨.token .keyword, "using".toList⟩ :: second)) := by
  have hhead : (written (⟨.token .keyword, "using".toList⟩ :: second)).head?.any Text.isBlank = false :=
    show Text.isBlank 'u' = false by decide
  have hline : Scans (lineStartBehind b first) _ _ := scans_using hwords
    (blanks hgap hblank hhead fun _ => h.right.of_token)
  rw [List.append_assoc, List.singleton_append, written_append]
  exact h.exchange (.of_cons (c := 'u') (by decide) _ _) (fun lexeme _ => .of_head lexeme rfl) hline

/-- The line put behind another one. -/
theorem behind_using (hwords : ∀ name ∈ head :: tail, IsWord name) (hgap : gap ≠ [])
    (hblank : ∀ c ∈ gap, Text.isBlank c = true) (h : Scans b cs (first ++ mark ';' :: second)) :
    Scans b (written (first ++ mark ';' :: (⟨.blank, gap⟩ :: usingLexemes head tail ++ second)))
      (first ++ mark ';' :: (⟨.blank, gap⟩ :: usingLexemes head tail ++ second)) := by
  have hsecond : Scans false (written second) second := by
    have hright : Scans _ (written (mark ';' :: second)) (mark ';' :: second) := h.right
    cases hright with
    | cons hs hr => exact hr.eq_written ▸ hr
  exact h.behind_mark (by simp) (blanks hgap hblank (by rfl) fun _ => scans_using hwords hsecond)

/-- No line comment or directive goes on to a token. -/
theorem endsLine_of_token {kind : TokenKind} {text : List Char}
    (h : Scans b cs (first ++ ⟨.token kind, text⟩ :: second))
    (hfirst : ∀ lexeme ∈ first, ∀ kind, lexeme.kind ≠ .token kind) :
    ∀ lexeme ∈ first.getLast?, lexeme.endsLine = false := by
  intro lexeme hl
  obtain ⟨first, rfl⟩ := List.getLast?_eq_some_iff.1 hl
  rw [List.append_assoc] at h
  have hright : Scans _ _ (lexeme :: ⟨.token kind, text⟩ :: second) := h.right
  generalize written _ = cs at hright
  cases hright with
  | @cons _ c cs r _ _ hs hr =>
    obtain ⟨t, -, -, -, hline, -⟩ := Lexeme.scan_trivia hs (hfirst lexeme (by simp))
    obtain ⟨c, t, rfl, hc⟩ := head_of_token hr
    refine Bool.eq_false_iff.2 fun hends => ?_
    have := hline hends
    rw [hr.eq_written] at this
    exact absurd this (by simpa using ne_of_isBlank hc)

/-- The line put behind blanks, comments and directives of which the last does not go on into it, and
before a token or at the end. -/
theorem opening (hwords : ∀ name ∈ head :: tail, IsWord name) (hgap : gap ≠ [])
    (hblank : ∀ c ∈ gap, Text.isBlank c = true) (h : Scans b cs (first ++ second))
    (hfirst : ∀ lexeme ∈ first, ∀ kind, lexeme.kind ≠ .token kind)
    (hsecond : ∀ lexeme ∈ second.head?, ∃ kind, lexeme.kind = .token kind)
    (hlast : ∀ lexeme ∈ first.getLast?, lexeme.endsLine = false) :
    Scans b (written (first ++ (usingLexemes head tail ++ [⟨.blank, gap⟩] ++ second)))
      (first ++ (usingLexemes head tail ++ [⟨.blank, gap⟩] ++ second)) := by
  have hhead : (written second).head?.any Text.isBlank = false ∧ ∀ b, Scans b (written second) second := by
    cases second with
    | nil => exact ⟨rfl, fun _ => .nil⟩
    | cons lexeme second =>
      obtain ⟨k, text⟩ := lexeme
      obtain ⟨kind, rfl⟩ := hsecond _ rfl
      obtain ⟨c, t, rfl, hc⟩ := head_of_token h.right
      exact ⟨by simpa using hc, fun _ => h.right.of_token⟩
  rw [List.append_assoc, List.singleton_append, written_append]
  exact h.exchange_trivia hfirst (by rfl) hlast
    (scans_using hwords (blanks hgap hblank hhead.1 hhead.2))

end Scans

end CultureLint
