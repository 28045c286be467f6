import CultureLint.Proofs.Token.Tiling
import CultureLint.Proofs.Token.Words

/-! Holes of interpolated strings. The scanner of a string does not cut a hole into tokens: it counts braces
and pairs quotes. Here it is told token by token how it goes over the text of a hole. It steps over every
regular string, over a verbatim string without a backslash, over an interpolated string without a quote in the
holes of its own, and over a character that is no quote and no brace. -/

namespace CultureLint

namespace Token

/-! ### How a scanner passes over a text -/

/-- A string scanner that stands at the first place before a text takes the whole text, and then stands at
the other place. -/
def StringPlace.Passes (place : StringPlace) (w : List Char) (next : StringPlace) : Prop :=
  ∀ style r, scanString style place (w ++ r) =
    (scanString style next r).map fun (taken, rest) => (w ++ taken, rest)

namespace StringPlace.Passes

variable {place next last : StringPlace} {v w : List Char}

theorem nil (place : StringPlace) : place.Passes [] place := by
  intro style r
  simp

theorem append (h : place.Passes v next) (h' : next.Passes w last) : place.Passes (v ++ w) last := by
  intro style r
  rw [List.append_assoc, h, h', Option.map_map]
  simp [Function.comp_def]

/-- Only in its text a literal ends, so elsewhere one character leads to the next place. -/
theorem char {c : Char} (hplace : place ≠ .text)
    (h : ∀ style cs, place.next? style c cs = some next) : place.Passes [c] next := by
  intro style r
  have hopen : place.closes style c r = false := by
    cases place with
    | text => exact absurd rfl hplace
    | _ => rfl
  rw [List.singleton_append, scanString, hopen, h]
  rfl

theorem cons {c : Char} (h : place.Passes [c] next) (h' : next.Passes w last) :
    place.Passes (c :: w) last := h.append h'

theorem openQuote (n : Nat) : (StringPlace.hole n).Passes ['\x22'] (.quoted n) :=
  .char (by simp) fun _ _ => by simp [next?]

theorem closeQuote (n : Nat) : (StringPlace.quoted n).Passes ['\x22'] (.hole n) :=
  .char (by simp) fun _ _ => by simp [next?]

theorem backslash (n : Nat) : (StringPlace.quoted n).Passes ['\\'] (.quotedEscaped n) :=
  .char (by simp) fun _ _ => by simp [next?]

theorem behindBackslash (n : Nat) (c : Char) : (StringPlace.quotedEscaped n).Passes [c] (.quoted n) :=
  .char (by simp) fun _ _ => rfl

theorem inQuotes (n : Nat) {c : Char} (hb : c ≠ '\\') (hq : c ≠ '\x22') :
    (StringPlace.quoted n).Passes [c] (.quoted n) :=
  .char (by simp) fun _ _ => by simp [next?, hb, hq]

end StringPlace.Passes

/-- The characters by which a scanner in a hole does not go to another place. -/
def isInert (c : Char) : Bool := c != '\x7b' && c != '\x7d' && c != '\x22'

theorem passes_hole {w : List Char} (n : Nat) (h : ∀ c ∈ w, isInert c = true) :
    (StringPlace.hole n).Passes w (.hole n) := by
  induction w with
  | nil => exact .nil _
  | cons c w ih =>
    obtain ⟨hc, hw⟩ := List.forall_mem_cons.1 h
    simp only [isInert, Bool.and_eq_true, bne_iff_ne] at hc
    exact .cons (.char (by simp) fun _ _ => by simp [StringPlace.next?, hc]) (ih hw)

/-! ### Literals in a hole -/

/-- Whether no quote stands in a hole of the literal that goes on with the characters. -/
def StringPlace.isBare (style : StringStyle) : StringPlace → List Char → Bool
  | _, [] => true
  | place, c :: cs =>
    match place.next? style c cs with
    | none => true
    | some (.quoted _) => false
    | some next => next.isBare style cs

theorem isBare_cons {style : StringStyle} {place next : StringPlace} {c : Char} {cs : List Char}
    (h : place.isBare style (c :: cs) = true) (hnext : place.next? style c cs = some next) :
    (∀ n, next ≠ .quoted n) ∧ next.isBare style cs = true := by
  rw [StringPlace.isBare, hnext] at h
  cases next with
  | quoted n => cases h
  | _ => exact ⟨nofun, h⟩

/-- A literal that is not interpolated has no holes. -/
theorem isBare_of_not_interpolated {style : StringStyle} (h : style.interpolated = false)
    {place : StringPlace} (hplace : place = .text ∨ place = .escaped) (cs : List Char) :
    place.isBare style cs = true := by
  induction cs generalizing place with
  | nil => rfl
  | cons c cs ih =>
    have hnext : ∀ next, place.next? style c cs = some next → next = .text ∨ next = .escaped := by
      intro next hnext
      obtain rfl | rfl := hplace
      · simp only [StringPlace.next?, h, Bool.and_false, Bool.false_eq_true, if_false] at hnext
        repeat' split at hnext
        all_goals simp_all
      · exact .inl (Option.some.inj hnext).symm
    rw [StringPlace.isBare]
    cases hn : place.next? style c cs with
    | none => rfl
    | some next => obtain rfl | rfl := hnext next hn <;> exact ih (by simp)

/-- Whether nothing in a token keeps the scanner of a string from stepping over it in a hole. Only literals can:
in a regular string nothing does, but a verbatim one must have no backslash, an interpolated one no quote in its
own holes, and a character literal neither quotes nor braces. -/
def fitsHole (t : Token) : Bool :=
  match t.kind with
  | .char => t.text.toList.all isInert
  | .string => (openString? t.text.toList).all fun (style, _, body) =>
    (!style.verbatim || !body.contains '\\') && (!style.interpolated || StringPlace.text.isBare style body)
  | _ => true

/-- Where the scanner of a string stands, at depth `n` in a hole, while that of a literal in the hole has
come to a place of its own, before some characters. What the one takes for the inside of a quoted stretch is
all of the literal to the other, but for the quotes that are doubled. -/
inductive Beside (n : Nat) : StringPlace → List Char → StringPlace → Prop
  | text {cs : List Char} : Beside n .text cs (.quoted n)
  | escaped {cs : List Char} : Beside n .escaped cs (.quotedEscaped n)
  | doubledBrace {cs : List Char} : Beside n .escaped ('\x7b' :: cs) (.quoted n)
  | doubledQuote {cs : List Char} : Beside n .escaped ('\x22' :: cs) (.hole n)
  | hole {m : Nat} {cs : List Char} : Beside n (.hole m) cs (.quoted n)
  | holeEscaped {m : Nat} {cs : List Char} : Beside n (.hole m) cs (.quotedEscaped n)

namespace Beside

variable {n : Nat} {style : StringStyle} {own next place : StringPlace} {c : Char} {cs : List Char}

/-- In a hole of the literal only a quote leads to a quoted stretch. -/
theorem hole_next {m : Nat} (hnext : (StringPlace.hole m).next? style c cs = some next)
    (hbare : ∀ k, next ≠ .quoted k) : c ≠ '"' ∧ ((∃ k, next = .hole k) ∨ next = .text) := by
  unfold StringPlace.next? at hnext
  dsimp only at hnext
  split at hnext
  case isTrue hopen => exact ⟨by simp [hopen], .inl ⟨_, (Option.some.inj hnext).symm⟩⟩
  split at hnext
  case isTrue hclose =>
    refine ⟨by simp [hclose], ?_⟩
    cases m with
    | zero => exact .inr (Option.some.inj hnext).symm
    | succ m => exact .inl ⟨m, (Option.some.inj hnext).symm⟩
  split at hnext
  case isTrue => exact absurd (Option.some.inj hnext).symm (hbare m)
  case isFalse hq => exact ⟨hq, .inl ⟨m, (Option.some.inj hnext).symm⟩⟩

/-- Behind any character in a hole of the literal, a place in the quoted stretch will do. -/
theorem of_hole_next (h : (∃ k, next = .hole k) ∨ next = .text) (cs : List Char) :
    Beside n next cs (.quoted n) := by
  obtain ⟨k, rfl⟩ | rfl := h
  · exact .hole
  · exact .text

/-- In the text of the literal, a quote or a brace may be doubled, a brace may open a hole, and a backslash is
taken alike by both scanners. -/
theorem step_text (hopen : StringPlace.text.closes style c cs = false)
    (hnext : StringPlace.text.next? style c cs = some next) (hverbatim : style.verbatim = true → c ≠ '\\') :
    ∃ place', (StringPlace.quoted n).Passes [c] place' ∧ Beside n next cs place' := by
  by_cases hq : c = '\x22'
  · -- a quote that does not close the literal is doubled
    subst hq
    simp only [StringPlace.closes, decide_true, Bool.true_and, Bool.not_eq_false', Bool.and_eq_true,
      decide_eq_true_eq] at hopen
    obtain ⟨cs, rfl⟩ := List.head?_eq_some_iff.1 hopen.2
    obtain rfl : StringPlace.escaped = next := by simpa [StringPlace.next?] using hnext
    exact ⟨_, .closeQuote n, .doubledQuote⟩
  by_cases hbrace : c = '\x7b' ∧ style.interpolated = true
  · obtain ⟨rfl, hi⟩ := hbrace
    refine ⟨_, .inQuotes n (by decide) (by decide), ?_⟩
    simp only [StringPlace.next?, hi, hq, Bool.and_self, decide_true, if_true, if_false] at hnext
    split at hnext
    case isTrue hhead =>
      obtain ⟨cs, rfl⟩ := List.head?_eq_some_iff.1 hhead
      exact Option.some.inj hnext ▸ .doubledBrace
    case isFalse => exact Option.some.inj hnext ▸ .hole
  have hbrace : (c = '\x7b' && style.interpolated) = false := by simpa using hbrace
  simp only [StringPlace.next?, hq, hbrace, if_false, Bool.false_eq_true] at hnext
  split at hnext
  case isTrue hv => exact ⟨_, .inQuotes n (hverbatim hv) hq, Option.some.inj hnext ▸ .text⟩
  split at hnext
  case isTrue hb => exact ⟨_, hb ▸ StringPlace.Passes.backslash n, Option.some.inj hnext ▸ .escaped⟩
  case isFalse hb =>
    split at hnext
    · cases hnext
    · exact ⟨_, .inQuotes n hb hq, Option.some.inj hnext ▸ .text⟩

/-- Both scanners take one more character of the literal. -/
theorem step (h : Beside n own (c :: cs) place) (hopen : own.closes style c cs = false)
    (hnext : own.next? style c cs = some next) (hverbatim : style.verbatim = true → c ≠ '\\')
    (hbare : ∀ m, next ≠ .quoted m) : ∃ place', place.Passes [c] place' ∧ Beside n next cs place' := by
  cases h with
  | text => exact step_text hopen hnext hverbatim
  | escaped => exact ⟨_, .behindBackslash n c, Option.some.inj hnext ▸ .text⟩
  | doubledBrace => exact ⟨_, .inQuotes n (by decide) (by decide), Option.some.inj hnext ▸ .text⟩
  | doubledQuote => exact ⟨_, .openQuote n, Option.some.inj hnext ▸ .text⟩
  | hole =>
    obtain ⟨hq, hkind⟩ := hole_next hnext hbare
    by_cases hb : c = '\\'
    · subst hb
      obtain rfl : StringPlace.hole _ = next := by simpa [StringPlace.next?] using hnext
      exact ⟨_, .backslash n, .holeEscaped⟩
    · exact ⟨_, .inQuotes n hb hq, of_hole_next hkind cs⟩
  | holeEscaped =>
    exact ⟨_, .behindBackslash n c, of_hole_next (hole_next hnext hbare).2 cs⟩

/-- At the closing quote of the literal the scanner of the string is back in the hole. -/
theorem passes (h : Beside n own cs place) (hs : scanString style own cs = some (cs, []))
    (hverbatim : style.verbatim = true → '\\' ∉ cs) (hbare : own.isBare style cs = true) :
    place.Passes cs (.hole n) := by
  induction cs generalizing own place with
  | nil => simp [scanString] at hs
  | cons c cs ih =>
    rw [scanString] at hs
    split at hs
    case isTrue hclose =>
      -- the literal ends in its text, at a quote
      obtain ⟨-, rfl⟩ := Prod.mk.inj (Option.some.inj hs)
      cases h with
      | text =>
        obtain rfl : c = '\x22' := by
          simp only [StringPlace.closes, Bool.and_eq_true, decide_eq_true_eq] at hclose
          exact hclose.1
        exact .closeQuote n
      | _ => cases hclose
    case isFalse hopen =>
      obtain ⟨next, hnext, hs⟩ := Option.bind_eq_some_iff.1 hs
      obtain ⟨v, hv, hs⟩ := consume_eq_some hs
      obtain rfl := (List.cons.inj hv).2
      obtain ⟨hplain, hbare⟩ := isBare_cons hbare hnext
      obtain ⟨place', hpass, hbeside⟩ := h.step (Bool.eq_false_iff.2 hopen) hnext
        (fun hv hb => hverbatim hv (by simp [hb])) hplain
      exact .cons hpass (ih hbeside hs (fun hv hb => hverbatim hv (by simp [hb])) hbare)

end Beside

/-! ### Other tokens -/

/-- A class of characters without braces and quotes. -/
theorem isInert_of_class {p : Char → Bool} (hp : ['\x7b', '\x7d', '\x22'].any p = false) {c : Char}
    (hc : p c = true) : isInert c = true := by
  have ne {x : Char} (hx : p x = false) : c ≠ x := by
    rintro rfl
    simp [hc] at hx
  simp only [List.any_cons, List.any_nil, Bool.or_false, Bool.or_eq_false_iff] at hp
  simp [isInert, ne hp.1, ne hp.2.1, ne hp.2.2]

theorem inert_takeWhile {p : Char → Bool} (hp : ['\x7b', '\x7d', '\x22'].any p = false) (cs : List Char) :
    (cs.takeWhile p).all isInert = true :=
  List.all_eq_true.2 fun c hc => isInert_of_class hp (mem_takeWhile c hc)

theorem inert_radixMark {cs mark rest : List Char} (h : radixMark? cs = some (mark, rest)) :
    mark.all isInert = true := by
  unfold radixMark? at h
  split at h
  case h_1 m rest' =>
    split at h
    case isTrue hm =>
      obtain ⟨rfl, -⟩ := Prod.mk.inj (Option.some.inj h)
      have := isInert_of_class (p := fun m => m == 'x' || m == 'X' || m == 'b' || m == 'B') (by decide) hm
      simp [this, show isInert '0' = true by decide]
    case isFalse => cases h
  case h_2 => cases h

theorem inert_scanFraction (cs : List Char) : (scanFraction cs).1.all isInert = true := by
  unfold scanFraction
  split
  · split
    · rw [List.all_cons, inert_takeWhile (by decide)]
      decide
    · rfl
  · rfl

theorem inert_scanSign (cs : List Char) : (scanSign cs).1.all isInert = true := by
  unfold scanSign
  split <;> rfl

theorem inert_scanExponent (cs : List Char) : (scanExponent cs).1.all isInert = true := by
  cases cs with
  | nil => rfl
  | cons e cs =>
    rw [scanExponent]
    dsimp only
    split
    case isTrue he =>
      have hclass := isInert_of_class (p := fun e => e == 'e' || e == 'E') (by decide)
        (Bool.and_eq_true_iff.1 he).1
      have hdigits := inert_takeWhile (p := Char.isDigit) (by decide) (scanSign cs).2
      simp only [List.cons_append, List.all_cons, List.all_append, hclass, inert_scanSign, hdigits,
        Bool.and_self]
    case isFalse => rfl

theorem inert_scanRealSuffix (cs : List Char) : (scanRealSuffix cs).1.all isInert = true := by
  cases cs with
  | nil => rfl
  | cons c cs =>
    rw [scanRealSuffix]
    split
    case isTrue hc => simp [isInert_of_class (by decide) hc]
    case isFalse => rfl

theorem inert_scanNumber (cs : List Char) : (scanNumber cs).2.1.all isInert = true := by
  have digits (cs : List Char) : (cs.takeWhile isDigitOrSeparator).all isInert = true :=
    inert_takeWhile (by decide) cs
  have hexDigits (cs : List Char) : (cs.takeWhile isHexDigitOrSeparator).all isInert = true :=
    inert_takeWhile (by decide) cs
  have suffix (cs : List Char) : (cs.takeWhile isIntegerSuffix).all isInert = true :=
    inert_takeWhile (by decide) cs
  unfold scanNumber
  split
  case h_1 mark rest hm =>
    simp only [splitWhile, List.all_append, inert_radixMark hm, hexDigits, suffix, Bool.and_self]
  case h_2 =>
    dsimp only
    split
    · simp only [splitWhile, List.all_append, digits, suffix, Bool.and_self]
    · simp only [splitWhile, List.all_append, digits, inert_scanFraction, inert_scanExponent,
        inert_scanRealSuffix, Bool.and_self]

/-- What a token is to a scanner that counts braces and pairs quotes. -/
inductive Seen : TokenKind → List Char → Prop
  | string (style : StringStyle) (opening body : List Char)
      (hopen : ∀ r, openString? (opening ++ r) = some (style, opening, r))
      (hbody : scanString style .text body = some (body, [])) : Seen .string (opening ++ body)
  | char (text : List Char) : Seen .char text
  | openBrace : Seen .punctuation ['\x7b']
  | closeBrace : Seen .punctuation ['\x7d']
  | inert (kind : TokenKind) (text : List Char) (h : text.all isInert = true) (hkind : kind ≠ .string)
      (hchar : kind ≠ .char) : Seen kind text

theorem seen_of_scanToken {c : Char} {cs text r : List Char} {kind : TokenKind}
    (h : Lexeme.scanToken c cs = .ok (kind, text, r)) : Seen kind text := by
  unfold Lexeme.scanToken at h
  split at h
  · -- a string
    rename_i style opening rest hopen
    split at h
    · rename_i body rest' hbody
      obtain ⟨rfl, rfl, rfl⟩ : TokenKind.string = kind ∧ opening ++ body = text ∧ rest' = r := by
        simpa using h
      have halone := (scanString_stable hbody).2 [] (.nil _)
      rw [List.append_nil] at halone
      exact .string style opening body (openString?_eq_some hopen).2.2 halone
    · cases h
  split at h
  · -- a character
    split at h
    · obtain ⟨rfl, -⟩ : TokenKind.char = kind ∧ _ := by simpa using h
      exact .char text
    · cases h
  split at h
  · -- a number
    have hkind := kind_scanNumber (c :: cs)
    have htext := inert_scanNumber (c :: cs)
    rw [Except.ok.inj h] at hkind htext
    refine .inert kind text htext ?_ ?_
    all_goals
      rintro rfl
      simp at hkind
  split at h
  · -- a word
    rename_i hstarts
    obtain ⟨rfl, rfl, -⟩ : Lexeme.wordKind _ = kind ∧ c :: cs.takeWhile Lexeme.isIdentifierPart = text ∧ _ := by
      simpa using h
    have hc : isInert c = true := by
      simp only [Lexeme.startsIdentifier, Bool.or_eq_true, Bool.and_eq_true, beq_iff_eq] at hstarts
      obtain hc | ⟨rfl, -⟩ := hstarts
      · exact isInert_of_class (by decide) hc
      · decide
    have hcs := inert_takeWhile (p := Lexeme.isIdentifierPart) (by decide) cs
    refine .inert _ _ (by simp only [List.all_cons, hc, hcs, Bool.and_self]) ?_ ?_
    all_goals
      unfold Lexeme.wordKind
      split <;> simp
  split at h
  · -- an operator
    rename_i op hop
    obtain ⟨rfl, rfl, -⟩ : TokenKind.punctuation = kind ∧ op = text ∧ _ := by simpa using h
    have all : ∀ op ∈ Lexeme.operatorTexts, op = ['\x7b'] ∨ op = ['\x7d'] ∨ op.all isInert = true := by decide
    obtain rfl | rfl | hop := all op (Lexeme.operator?_eq_some hop).1
    · exact .openBrace
    · exact .closeBrace
    · exact .inert _ _ hop (by simp) (by simp)
  · cases h

/-! ### A text in a hole -/

/-- How many braces are open behind a token, if so many are open before it; none if the token closes a brace
that is not open. -/
def bracesBehind? (n : Nat) (t : Token) : Option Nat :=
  if t.isPunct "\x7b" then some (n + 1)
  else if t.isPunct "\x7d" then
    match n with
    | 0 => none
    | m + 1 => some m
  else some n

theorem opening_eq {cs opening rest : List Char} {style : StringStyle}
    (h : openString? cs = some (style, opening, rest)) :
    ∃ marks, opening = marks ++ ['\x22'] ∧ ∀ c ∈ marks, isInert c = true := by
  unfold openString? at h
  split at h <;> simp only [Option.some.injEq, Prod.mk.injEq, reduceCtorEq] at h
  all_goals obtain ⟨-, rfl, -⟩ := h
  · exact ⟨['$', '@'], rfl, by simp [isInert]⟩
  · exact ⟨['@', '$'], rfl, by simp [isInert]⟩
  · exact ⟨['@'], rfl, by simp [isInert]⟩
  · exact ⟨['$'], rfl, by simp [isInert]⟩
  · exact ⟨[], rfl, by simp [isInert]⟩

/-- Over a literal that fits, the scanner of the string comes back to the hole. -/
theorem passes_string {style : StringStyle} {opening body : List Char} {index offset : Nat}
    (hopen : ∀ r, openString? (opening ++ r) = some (style, opening, r))
    (hbody : scanString style .text body = some (body, []))
    (hfits : fitsHole ⟨index, .string, String.ofList (opening ++ body), offset⟩ = true) (n : Nat) :
    (StringPlace.hole n).Passes (opening ++ body) (.hole n) := by
  simp only [fitsHole, String.toList_ofList, hopen, Option.all_some, Bool.and_eq_true, Bool.or_eq_true,
    Bool.not_eq_true', List.contains_eq_mem, decide_eq_false_iff_not] at hfits
  obtain ⟨hverbatim, hbare⟩ := hfits
  have hbare : StringPlace.text.isBare style body = true := by
    obtain hplain | hbare := hbare
    · exact isBare_of_not_interpolated hplain (.inl rfl) body
    · exact hbare
  obtain ⟨marks, rfl, hmarks⟩ := opening_eq (hopen [])
  refine ((passes_hole n hmarks).append (.openQuote n)).append (Beside.text.passes hbody (fun hv => ?_) hbare)
  exact hverbatim.resolve_left (by simp [hv])

/-- Over a token the scanner of a string counts the braces as they are. -/
theorem Seen.passes {kind : TokenKind} {text : List Char} (h : Seen kind text) {index offset n m : Nat}
    (hfits : fitsHole ⟨index, kind, String.ofList text, offset⟩ = true)
    (hbraces : bracesBehind? n ⟨index, kind, String.ofList text, offset⟩ = some m) :
    (StringPlace.hole n).Passes text (.hole m) := by
  have same (hopen : text = ['\x7b'] → kind ≠ .punctuation) (hclose : text = ['\x7d'] → kind ≠ .punctuation) :
      n = m := by
    have notPunct (x : Char) (hx : text = [x] → kind ≠ .punctuation) :
        (⟨index, kind, String.ofList text, offset⟩ : Token).isPunct (String.ofList [x]) = false := by
      simp only [isPunct, Bool.and_eq_false_imp, beq_iff_eq, beq_eq_false_iff_ne, ne_eq,
        String.ofList_inj]
      exact fun hkind htext => hx htext hkind
    simpa [bracesBehind?, notPunct _ hopen, notPunct _ hclose] using hbraces
  cases h with
  | string style opening body hopen hbody =>
    obtain rfl := same (fun _ => by simp) fun _ => by simp
    exact passes_string hopen hbody hfits n
  | char =>
    obtain rfl := same (fun _ => by simp) fun _ => by simp
    exact passes_hole n (by simpa [fitsHole] using hfits)
  | openBrace =>
    obtain rfl : n + 1 = m := by simpa [bracesBehind?, isPunct] using hbraces
    exact .char (by simp) fun _ _ => by simp [StringPlace.next?]
  | closeBrace =>
    cases n with
    | zero => simp [bracesBehind?, isPunct] at hbraces
    | succ k =>
      obtain rfl : k = m := by simpa [bracesBehind?, isPunct] using hbraces
      exact .char (by simp) fun _ _ => by simp [StringPlace.next?]
  | inert _ _ hinert =>
    obtain rfl := same (fun h => by simp [h, isInert] at hinert) fun h => by simp [h, isInert] at hinert
    exact passes_hole n (by simpa using hinert)

/-- The text of a hole, by its lexemes: there are no comments and no directives in it, it does not begin with
a brace, and it closes the braces that it opens and no others. -/
structure FillsHole (lexemes : List Lexeme) : Prop where
  plain : ∀ lexeme ∈ lexemes, lexeme.kind ≠ .comment ∧ lexeme.kind ≠ .directive
  first : ∀ t ∈ (Lexed.ofLexemes lexemes).tokens.head?, t.isPunct "\x7b" = false
  balanced : (Lexed.ofLexemes lexemes).tokens.foldlM bracesBehind? 0 = some 0

instance (lexemes : List Lexeme) : Decidable (FillsHole lexemes) :=
  decidable_of_iff ((∀ lexeme ∈ lexemes, lexeme.kind ≠ .comment ∧ lexeme.kind ≠ .directive) ∧
      (∀ t ∈ (Lexed.ofLexemes lexemes).tokens.head?, t.isPunct "\x7b" = false) ∧
      (Lexed.ofLexemes lexemes).tokens.foldlM bracesBehind? 0 = some 0)
    ⟨fun ⟨plain, first, balanced⟩ => ⟨plain, first, balanced⟩,
      fun ⟨plain, first, balanced⟩ => ⟨plain, first, balanced⟩⟩

/-- Over a text whose literals fit, the scanner of a string counts the braces as its tokens do. -/
theorem passes_scans {b : Bool} {cs : List Char} {lexemes : List Lexeme} (h : Scans b cs lexemes)
    (hplain : ∀ lexeme ∈ lexemes, lexeme.kind ≠ .comment ∧ lexeme.kind ≠ .directive)
    {offset index n m : Nat} (hfits : ∀ t ∈ Lexed.tokensFrom offset index lexemes, t.fitsHole = true)
    (hbraces : (Lexed.tokensFrom offset index lexemes).foldlM bracesBehind? n = some m) :
    (StringPlace.hole n).Passes cs (.hole m) := by
  induction h generalizing offset index n with
  | nil =>
    obtain rfl : n = m := by simpa [Lexed.tokensFrom] using hbraces
    exact .nil _
  | @cons b c cs r lexeme lexemes hs _ ih =>
    obtain ⟨t, ht, rfl, -⟩ := Lexeme.scan_stable hs
    have hcomplete := Lexeme.isComplete_of_scan hs
    obtain ⟨kind, text⟩ := lexeme
    obtain rfl : text = c :: t := ht
    obtain ⟨⟨hcomment, hdirective⟩, hrest⟩ := List.forall_mem_cons.1 hplain
    have both {k : Nat} (hlexeme : (StringPlace.hole n).Passes (c :: t) (.hole k))
        (hbehind : (StringPlace.hole k).Passes r (.hole m)) :
        (StringPlace.hole n).Passes (c :: (t ++ r)) (.hole m) := hlexeme.append hbehind
    cases kind with
    | comment => exact absurd rfl hcomment
    | directive => exact absurd rfl hdirective
    | blank =>
      refine both (passes_hole n fun x hx => ?_) (ih hrest hfits hbraces)
      exact isInert_of_class (by decide) (hcomplete x hx)
    | token kind =>
      rw [Lexed.tokensFrom, List.foldlM_cons] at hbraces
      obtain ⟨k, hk, hbraces⟩ := Option.bind_eq_some_iff.1 hbraces
      obtain ⟨hfit, hfits⟩ := List.forall_mem_cons.1 hfits
      obtain ⟨-, -, -, -, htoken⟩ := Lexeme.scan_eq_token.1 hs
      exact both ((seen_of_scanToken htoken).passes hfit hk) (ih hrest hfits hbraces)

/-- A text that begins with a brace begins with the token of it. -/
theorem head_tokens_of_brace {cs : List Char} {lexemes : List Lexeme}
    (h : Scans true ('\x7b' :: cs) lexemes) :
    ∃ t ∈ (Lexed.ofLexemes lexemes).tokens.head?, t.isPunct "\x7b" = true := by
  cases h with
  | @cons _ _ _ r lexeme lexemes hs _ =>
    have hbrace : Lexeme.scan true '\x7b' cs = .ok (⟨.token .punctuation, ['\x7b']⟩, cs) := by
      have hop : Lexeme.operator? (['\x7b'] ++ cs) = some ['\x7b'] :=
        Lexeme.operator?_append_iff.2 ⟨by decide, fun c _ => ?_⟩
      · refine Lexeme.scan_eq_token.2 ⟨by decide, by simp, by simp, by simp, ?_⟩
        rw [List.singleton_append] at hop
        simp [Lexeme.scanToken, openString?, startsNumber, Lexeme.startsIdentifier, hop,
          show Lexeme.isIdentifierStart '\x7b' = false by decide]
      · have all : ∀ op ∈ Lexeme.operatorTexts, op.head? = some '\x7b' → op.length = 1 := by decide
        exact fun hmem => absurd (all _ hmem rfl) (by simp)
    obtain ⟨rfl, rfl⟩ := Prod.mk.inj (Except.ok.inj (hs.symm.trans hbrace))
    exact ⟨_, rfl, by simp [isPunct]⟩

/-- An interpolated string that is nothing but a hole with a text. -/
def holeText (h : String) : String := "$\"\x7b" ++ h ++ "\x7d\""

/-- A text of which the scanner of a string steps over every literal can be put into a hole, and the hole ends
behind it: the whole is one token, a string. -/
theorem ofText_holeText {h : String} {lexemes : List Lexeme} (hs : Lexeme.ofText h.toList = .ok lexemes)
    (hfills : FillsHole lexemes) (hfits : ∀ t ∈ (Lexed.ofLexemes lexemes).tokens, t.fitsHole = true) :
    Lexed.ofText (holeText h) = .ok ⟨[⟨0, .string, holeText h, 0⟩], [], none⟩ := by
  have hscans := Scans.ofText_iff.1 hs
  have hend : ['\x7d', '\x22'].head? ≠ some '\x7b' := by decide
  have hfirst : (h.toList ++ ['\x7d', '\x22']).head? ≠ some '\x7b' := by
    cases hcs : h.toList with
    | nil => exact hend
    | cons c cs =>
      intro hc
      obtain rfl := Option.some.inj hc
      obtain ⟨t, ht, hbrace⟩ := head_tokens_of_brace (hcs ▸ hscans)
      simp [hfills.first t ht] at hbrace
  have hpasses := passes_scans hscans hfills.plain hfits hfills.balanced
  have hbody : scanString ⟨false, true⟩ .text ('\x7b' :: (h.toList ++ ['\x7d', '\x22'])) =
      some ('\x7b' :: (h.toList ++ ['\x7d', '\x22']), []) := by
    have hnext : StringPlace.text.next? ⟨false, true⟩ '\x7b' (h.toList ++ ['\x7d', '\x22']) =
        some (.hole 0) := by
      simp only [StringPlace.next?]
      rw [if_neg (by decide), if_pos (by decide), if_neg hfirst]
    have hopen : StringPlace.text.closes ⟨false, true⟩ '\x7b' (h.toList ++ ['\x7d', '\x22']) = false := rfl
    rw [scanString, hopen, hnext, if_neg (by simp), Option.bind_some, hpasses]
    rfl
  have htext : (holeText h).toList = '$' :: '\x22' :: '\x7b' :: (h.toList ++ ['\x7d', '\x22']) := by
    simp [holeText]
  refine Lexed.ofText_eq_ok.2 ⟨[⟨.token .string, (holeText h).toList⟩], ?_, ?_⟩
  · rw [htext]
    refine .cons (Lexeme.scan_eq_token.2 ⟨by decide, by simp, by simp, by simp, ?_⟩) .nil
    rw [Lexeme.scanToken, show openString? ('$' :: '\x22' :: '\x7b' :: (h.toList ++ ['\x7d', '\x22'])) =
      some (⟨false, true⟩, ['$', '\x22'], '\x7b' :: (h.toList ++ ['\x7d', '\x22'])) from rfl]
    simp only [hbody]
    rfl
  · simp [Lexed.ofLexemes, Lexed.tokensFrom, Lexed.directivesFrom, Lexed.headerFrom]

/-- A text for a hole: two strings with a brace, one of them verbatim and with a quote, one that is
interpolated itself, and an initializer with its braces. -/
def nestedText : String :=
  "f(\"\x7d\" + @\"\"\"\x7b\" + $\"\x7bx\x7d\", new int[] \x7b 1, 'b' \x7d)"

theorem ofText_holeText_nested : ∃ lexemes, Lexeme.ofText nestedText.toList = .ok lexemes ∧
    FillsHole lexemes ∧ (∀ t ∈ (Lexed.ofLexemes lexemes).tokens, t.fitsHole = true) ∧
    (Lexed.ofLexemes lexemes).tokens.length = 18 ∧
    Lexed.ofText (holeText nestedText) = .ok ⟨[⟨0, .string, holeText nestedText, 0⟩], [], none⟩ := by
  have found : ((Lexeme.ofText nestedText.toList).toOption.any fun lexemes =>
      FillsHole lexemes ∧ (∀ t ∈ (Lexed.ofLexemes lexemes).tokens, t.fitsHole = true) ∧
        (Lexed.ofLexemes lexemes).tokens.length = 18) = true := by decide +kernel
  cases hs : Lexeme.ofText nestedText.toList with
  | error e => simp [hs, Except.toOption] at found
  | ok lexemes =>
    simp only [hs, Except.toOption, Option.any_some, decide_eq_true_eq] at found
    obtain ⟨hfills, hfits, hlength⟩ := found
    exact ⟨lexemes, rfl, hfills, hfits, hlength, ofText_holeText hs hfills hfits⟩

/-- A verbatim string that ends with a backslash fills a hole by its tokens; but there the backslash is taken to
escape the quote, and the hole has no end. -/
theorem ofText_holeText_backslash : ∃ (h : String) (lexemes : List Lexeme), '\n' ∉ h.toList ∧
    Lexeme.ofText h.toList = .ok lexemes ∧ FillsHole lexemes ∧
    Lexed.ofText (holeText h) = .error ⟨0, .unterminatedString⟩ := by
  refine ⟨"@\"\\\"", [⟨.token .string, ['@', '\x22', '\\', '\x22']⟩], by decide, by rfl, by decide, by rfl⟩

end Token

end CultureLint
