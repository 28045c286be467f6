import CultureLint.Document.SourceMap
import CultureLint.Proofs.Document.Ending
import Mathlib.Data.List.DropRight
import Mathlib.Data.Prod.Lex

/-! The line and column of a place count the line ends before it and the characters behind the last of
them. So later places have later lines and columns, and a line and column lead back to their place. -/

namespace CultureLint

open Text (byteLength IsPlace)

namespace Text

/-! ### Lines of characters -/

/-- The characters behind the last line end. -/
def lastLine (cs : List Char) : List Char := cs.rtakeWhile (· != '\n')

/-- The characters up to and with the last line end. -/
def fullLines (cs : List Char) : List Char := cs.rdropWhile (· != '\n')

@[simp] theorem fullLines_append_lastLine (cs : List Char) : fullLines cs ++ lastLine cs = cs :=
  List.rdropWhile_append_rtakeWhile

theorem notMem_lastLine (cs : List Char) : '\n' ∉ lastLine cs := by
  intro h
  simpa using List.mem_rtakeWhile_imp h

theorem fullLines_concat (cs : List Char) (c : Char) :
    fullLines (cs ++ [c]) = if c = '\n' then cs ++ [c] else fullLines cs := by
  rw [fullLines, List.rdropWhile_concat]
  by_cases h : c = '\n' <;> simp [h, fullLines]

theorem lastLine_concat (cs : List Char) (c : Char) :
    lastLine (cs ++ [c]) = if c = '\n' then [] else lastLine cs ++ [c] := by
  rw [lastLine, List.rtakeWhile_concat]
  by_cases h : c = '\n' <;> simp [h, lastLine]

/-- More characters make the last line longer, unless they begin a new one. -/
theorem lastLine_append {cs more : List Char} (h : '\n' ∉ more) :
    lastLine (cs ++ more) = lastLine cs ++ more := by
  induction more using List.reverseRecOn with
  | nil => simp
  | append_singleton more c ih =>
    simp only [List.mem_append, List.mem_singleton, not_or] at h
    rw [← List.append_assoc, lastLine_concat, if_neg (Ne.symm h.2), ih h.1, List.append_assoc]

/-- What precedes the last line is nothing, or it ends in a line end. -/
theorem fullLines_cases (cs : List Char) : fullLines cs = [] ∨ ∃ front, fullLines cs = front ++ ['\n'] := by
  induction cs using List.reverseRecOn with
  | nil => exact .inl rfl
  | append_singleton cs c ih =>
    rw [fullLines_concat]
    by_cases h : c = '\n'
    · rw [if_pos h]
      exact .inr ⟨cs, by rw [h]⟩
    · rw [if_neg h]
      exact ih

/-- All line ends are in the full lines. -/
theorem count_fullLines (cs : List Char) : (fullLines cs).count '\n' = cs.count '\n' := by
  conv_rhs => rw [← fullLines_append_lastLine cs]
  rw [List.count_append, List.count_eq_zero.2 (notMem_lastLine cs), Nat.add_zero]

/-- Of two places of a text the earlier one is in front of the later one. -/
theorem exists_between {text before after before' after' : List Char} (h : text = before ++ after)
    (h' : text = before' ++ after') (hle : byteLength before ≤ byteLength before') :
    ∃ more, before' = before ++ more ∧ after = more ++ after' := by
  rcases List.append_eq_append_iff.1 (h.symm.trans h') with hmore | ⟨more, hbefore, hafter⟩
  · exact hmore
  · have hmore : more = [] := by
      by_contra hne
      have := byteLength_pos hne
      rw [hbefore, byteLength_append] at hle
      omega
    rw [hmore, List.append_nil] at hbefore
    rw [hmore, List.nil_append] at hafter
    exact ⟨[], by rw [hbefore, List.append_nil], hafter.symm⟩

/-- The bytes in front of a line and column, both counted from zero. -/
def offsetAt : Nat → Nat → List Char → Nat
  | 0, 0, _ => 0
  | _, _, [] => 0
  | 0, column + 1, c :: cs => c.utf8Size + offsetAt 0 column cs
  | line + 1, column, c :: cs =>
    c.utf8Size + if c = '\n' then offsetAt line column cs else offsetAt (line + 1) column cs

theorem offsetAt_length (cs after : List Char) : offsetAt 0 cs.length (cs ++ after) = byteLength cs := by
  induction cs with
  | nil => cases after <;> rfl
  | cons c cs ih => simp [offsetAt, byteLength, ih]

theorem offsetAt_succ {front after : List Char} {line column : Nat} :
    offsetAt (line + front.count '\n' + 1) column (front ++ '\n' :: after) =
      byteLength (front ++ ['\n']) + offsetAt line column after := by
  induction front generalizing line with
  | nil => cases column <;> simp [offsetAt, byteLength]
  | cons c front ih =>
    by_cases h : c = '\n'
    · have hcount : line + (c :: front).count '\n' = line + front.count '\n' + 1 := by
        rw [h, List.count_cons_self]
        omega
      rw [hcount, List.cons_append, offsetAt, if_pos h, ih]
      simp only [List.cons_append, byteLength]
      omega
    · have hcount : line + (c :: front).count '\n' = line + front.count '\n' := by
        rw [List.count_cons_of_ne h]
      rw [hcount, List.cons_append, offsetAt, if_neg h, ih]
      simp only [List.cons_append, byteLength]
      omega

/-- The lines and columns that are counted in front of a place lead back to it. -/
theorem offsetAt_count (before after : List Char) :
    offsetAt (before.count '\n') (lastLine before).length (before ++ after) = byteLength before := by
  have key : offsetAt ((fullLines before).count '\n') (lastLine before).length
      (fullLines before ++ (lastLine before ++ after)) =
        byteLength (fullLines before) + byteLength (lastLine before) := by
    rcases fullLines_cases before with h | ⟨front, h⟩
    · rw [h, List.count_nil, List.nil_append, offsetAt_length, byteLength, Nat.zero_add]
    · have hcount : (front ++ ['\n']).count '\n' = 0 + front.count '\n' + 1 := by
        rw [List.count_append, List.count_singleton_self]
        omega
      rw [h, hcount, List.append_assoc, List.singleton_append, offsetAt_succ, offsetAt_length]
  rwa [count_fullLines, ← List.append_assoc, ← byteLength_append, fullLines_append_lastLine] at key

end Text

namespace SourceMap

/-! ### Line starts -/

theorem startsBehind_append (offset : Nat) (before after : List Char) :
    startsBehind offset (before ++ after) =
      startsBehind offset before ++ startsBehind (offset + byteLength before) after := by
  induction before generalizing offset with
  | nil => rfl
  | cons c before ih =>
    simp only [List.cons_append, startsBehind, byteLength]
    rw [ih, ← Nat.add_assoc]
    split <;> rfl

theorem length_startsBehind (offset : Nat) (cs : List Char) :
    (startsBehind offset cs).length = cs.count '\n' := by
  induction cs generalizing offset with
  | nil => rfl
  | cons c cs ih =>
    rw [startsBehind]
    by_cases h : c = '\n' <;> simp [h, ih]

theorem bounds_of_mem_startsBehind {offset start : Nat} {cs : List Char} (h : start ∈ startsBehind offset cs) :
    offset < start ∧ start ≤ offset + byteLength cs := by
  induction cs generalizing offset with
  | nil => simp [startsBehind] at h
  | cons c cs ih =>
    have hpos := c.utf8Size_pos
    have hrest (h : start ∈ startsBehind (offset + c.utf8Size) cs) :
        offset < start ∧ start ≤ offset + byteLength (c :: cs) := by
      have := ih h
      simp only [byteLength]
      omega
    rw [startsBehind] at h
    split at h
    · rcases List.mem_cons.1 h with rfl | h
      · simp only [byteLength]
        omega
      · exact hrest h
    · exact hrest h

/-- The last line start is behind the full lines. -/
theorem getLast?_startsBehind (cs : List Char) :
    (0 :: startsBehind 0 cs).getLast? = some (byteLength (Text.fullLines cs)) := by
  induction cs using List.reverseRecOn with
  | nil => rfl
  | append_singleton cs c ih =>
    rw [startsBehind_append, Text.fullLines_concat, ← List.cons_append]
    by_cases h : c = '\n'
    · rw [if_pos h, startsBehind, if_pos h, startsBehind, List.getLast?_concat]
      simp [byteLength]
    · simpa [startsBehind, h] using ih

/-! ### Positions -/

variable (file : String) {text : String} (directives : List Directive) {before after : List Char}

/-- The line of a place, counted from zero, is the number of line ends before it. -/
theorem lineAmong_eq_count (before after : List Char) :
    lineAmong (0 :: startsBehind 0 (before ++ after)) (byteLength before) = before.count '\n' := by
  have hbefore : ∀ start ∈ 0 :: startsBehind 0 before, decide (start ≤ byteLength before) = true := by
    intro start h
    rcases List.mem_cons.1 h with rfl | h
    · simp
    · have := bounds_of_mem_startsBehind h
      simp only [decide_eq_true_eq]
      omega
  have hafter : (startsBehind (0 + byteLength before) after).takeWhile (· ≤ byteLength before) = [] := by
    cases hs : startsBehind (0 + byteLength before) after with
    | nil => rfl
    | cons start starts =>
      have := bounds_of_mem_startsBehind (hs ▸ List.mem_cons_self : start ∈ startsBehind _ after)
      rw [List.takeWhile_cons, if_neg (by simp only [decide_eq_true_eq]; omega)]
  rw [lineAmong, startsBehind_append, ← List.cons_append, List.takeWhile_append_of_pos hbefore, hafter,
    List.append_nil, List.length_cons, length_startsBehind, Nat.add_sub_cancel]

theorem position?_eq (h : text.toList = before ++ after) :
    (ofText file text directives).position? (byteLength before) =
      some (before.count '\n' + 1, (Text.lastLine before).length + 1) := by
  have hsplit : Text.fullLines before ++ Text.lastLine before = before :=
    Text.fullLines_append_lastLine before
  have hline : lineAmong (0 :: startsBehind 0 text.toList) (byteLength before) = before.count '\n' := by
    rw [h, lineAmong_eq_count]
  have hstart : (0 :: startsBehind 0 text.toList)[before.count '\n']? =
      some (byteLength (Text.fullLines before)) := by
    have hlength : before.count '\n' = (0 :: startsBehind 0 before).length - 1 := by
      rw [List.length_cons, length_startsBehind, Nat.add_sub_cancel]
    rw [h, startsBehind_append, ← List.cons_append, List.getElem?_append_left (by simp [length_startsBehind]),
      hlength, ← List.getLast?_eq_getElem?, getLast?_startsBehind]
  have hbytes : byteLength (Text.fullLines before) + byteLength (Text.lastLine before) = byteLength before := by
    rw [← Text.byteLength_append, hsplit]
  have hspan : Span.ofBounds? (byteLength (Text.fullLines before)) (byteLength before) =
      some ⟨byteLength (Text.fullLines before), byteLength before, by omega⟩ :=
    dif_pos (by omega)
  have hcut : Text.cut? text.toList ⟨byteLength (Text.fullLines before), byteLength before, by omega⟩ =
      some (Text.fullLines before, Text.lastLine before, after) := by
    have hlist : text.toList = Text.fullLines before ++ (Text.lastLine before ++ after) := by
      rw [← List.append_assoc, hsplit, h]
    rw [hlist]
    exact Lexed.cut?_append _ _ _ rfl (by simp only; omega)
  simp only [position?, ofText, hline, hstart, hspan, hcut, Option.bind_eq_bind, Option.bind_some,
    Option.pure_def]

/-- Only places of the text have a line and column. -/
theorem isPlace_of_position? {offset : Nat} {position : Nat × Nat}
    (h : (ofText file text directives).position? offset = some position) : IsPlace text.toList offset := by
  obtain ⟨start, -, h⟩ := Option.bind_eq_some_iff.1 h
  obtain ⟨span, hspan, h⟩ := Option.bind_eq_some_iff.1 h
  obtain ⟨⟨first, inside, last⟩, hcut, -⟩ := Option.bind_eq_some_iff.1 h
  obtain ⟨⟨_, rest⟩, hfirst, hcut⟩ := Option.bind_eq_some_iff.1 hcut
  obtain ⟨⟨_, _⟩, hinside, hcut⟩ := Option.bind_eq_some_iff.1 hcut
  obtain ⟨rfl, rfl⟩ : start = span.start ∧ offset = span.stop := by
    rw [Span.ofBounds?] at hspan
    split at hspan
    · cases hspan
      exact ⟨rfl, rfl⟩
    · cases hspan
  obtain ⟨htext, hlength⟩ := Text.splitAt?_eq_some hfirst
  obtain ⟨rfl, hlength'⟩ := Text.splitAt?_eq_some hinside
  refine Text.isPlace_iff.2 ⟨_, _, htext.trans (List.append_assoc ..).symm, ?_⟩
  have := span.start_le_stop
  rw [Text.byteLength_append, hlength, hlength', Span.length]
  omega

/-- A later place has a later line, or a later column in the same line. -/
theorem position_lt {more : List Char} (h : more ≠ []) :
    toLex (before.count '\n' + 1, (Text.lastLine before).length + 1) <
      toLex ((before ++ more).count '\n' + 1, (Text.lastLine (before ++ more)).length + 1) := by
  rw [Prod.Lex.toLex_lt_toLex]
  by_cases hm : '\n' ∈ more
  · left
    have := List.count_pos_iff.2 hm
    simp only [List.count_append]
    omega
  · right
    have := List.length_pos_iff.2 h
    rw [Text.lastLine_append hm, List.count_append, List.count_eq_zero.2 hm, List.length_append]
    exact ⟨rfl, by omega⟩

/-- The line of a place is one more than the number of line ends before it, and its column one more than
the number of characters behind the last of them; nothing else has a line and column. Lines and columns
come in the order of their places, and lead back to them. -/
theorem position?_faithful (file text : String) (directives : List Directive) :
    (∀ before after, text.toList = before ++ after →
      (ofText file text directives).position? (byteLength before) =
        some (before.count '\n' + 1, (Text.lastLine before).length + 1)) ∧
    (∀ a b, IsPlace text.toList a → IsPlace text.toList b → a < b →
      ∃ p q, (ofText file text directives).position? a = some p ∧
        (ofText file text directives).position? b = some q ∧ toLex p < toLex q) ∧
    ∀ a line column, (ofText file text directives).position? a = some (line, column) →
      IsPlace text.toList a ∧ Text.offsetAt (line - 1) (column - 1) text.toList = a := by
  refine ⟨fun before after h => position?_eq file directives h, ?_, ?_⟩
  · intro a b ha hb hab
    obtain ⟨before, after, htext, rfl⟩ := Text.isPlace_iff.1 ha
    obtain ⟨before', after', htext', rfl⟩ := Text.isPlace_iff.1 hb
    obtain ⟨more, rfl, -⟩ := Text.exists_between htext htext' (Nat.le_of_lt hab)
    have hmore : more ≠ [] := by
      rintro rfl
      simp at hab
    exact ⟨_, _, position?_eq file directives htext, position?_eq file directives htext', position_lt hmore⟩
  · intro a line column h
    have hplace := isPlace_of_position? file directives h
    refine ⟨hplace, ?_⟩
    obtain ⟨before, after, htext, rfl⟩ := Text.isPlace_iff.1 hplace
    rw [position?_eq file directives htext] at h
    cases h
    rw [Nat.add_sub_cancel, Nat.add_sub_cancel, htext, Text.offsetAt_count]

/-- A text with a character of two bytes, an empty line, and a line end at its end. -/
def unevenText : String := "é\n\nab\n"

theorem position?_faithful_uneven : ∃ p q, IsPlace unevenText.toList 4 ∧ IsPlace unevenText.toList 7 ∧
    (ofText "A.cs" unevenText []).position? 4 = some p ∧ (ofText "A.cs" unevenText []).position? 7 = some q ∧
    toLex p < toLex q ∧ p = (3, 1) ∧ q = (4, 1) ∧ Text.offsetAt 3 0 unevenText.toList = 7 := by
  obtain ⟨hcounts, hordered, hback⟩ := position?_faithful "A.cs" unevenText []
  have ha : IsPlace unevenText.toList 4 :=
    Text.isPlace_iff.2 ⟨['é', '\n', '\n'], ['a', 'b', '\n'], by decide, by decide⟩
  have hb : IsPlace unevenText.toList 7 :=
    Text.isPlace_iff.2 ⟨['é', '\n', '\n', 'a', 'b', '\n'], [], by decide, by decide⟩
  obtain ⟨p, q, hp, hq, hpq⟩ := hordered 4 7 ha hb (by decide)
  have hp' := hcounts ['é', '\n', '\n'] ['a', 'b', '\n'] (by decide)
  have hq' := hcounts ['é', '\n', '\n', 'a', 'b', '\n'] [] (by decide)
  obtain rfl : p = (3, 1) := Option.some.inj (hp.symm.trans hp')
  obtain rfl : q = (4, 1) := Option.some.inj (hq.symm.trans hq')
  exact ⟨_, _, ha, hb, hp, hq, hpq, rfl, rfl, (hback 7 4 1 hq).2⟩

end SourceMap

end CultureLint
