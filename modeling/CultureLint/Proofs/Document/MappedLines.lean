import CultureLint.Proofs.Document.LineColumn
import CultureLint.Proofs.Token.Tiling

/-! Mapped places are those of a reader who goes through the lines of a document from the top and keeps in
mind which mapping is in force. The source map has a list of mapped lines instead, takes the last of them
before a line, and counts on from there; but it counts with 64 bits, and the reader does not. -/

namespace CultureLint

open Text (byteLength)

/-! ### Reading from the top -/

namespace LineMapping

/-- The mapping some lines further on, where no directive comes between. -/
def after (lines : Nat) : LineMapping → LineMapping
  | .default => .default
  | .hidden => .hidden
  | .renumber number file => .renumber (number + lines) file

/-- The file and number of a line of a document under a mapping; hidden lines have none. -/
def place? (document : String) (physical : Nat) : LineMapping → Option (String × Nat)
  | .default => some (document, physical)
  | .hidden => none
  | .renumber number file => some (file.getD document, number)

/-- The mapping with its number in 64 bits. -/
def wrapped : LineMapping → LineMapping
  | .renumber number file => .renumber (SourceMap.wrapLine number) file
  | m => m

/-- The number of the mapping, if it has one, has at most 64 bits. -/
def Fits (m : LineMapping) : Prop := ∀ number file, m = .renumber number file → number < UInt64.size

theorem wrapped_eq_self (m : LineMapping) : m.wrapped = m ↔ m.Fits := by
  cases m with
  | default | hidden => simp [wrapped, Fits]
  | renumber number file => simp [wrapped, Fits, SourceMap.wrapLine]

@[simp] theorem after_zero (m : LineMapping) : m.after 0 = m := by cases m <;> rfl

@[simp] theorem after_after (m : LineMapping) (a b : Nat) : (m.after a).after b = m.after (a + b) := by
  cases m with
  | renumber number file => simp [after, Nat.add_assoc]
  | _ => rfl

end LineMapping

/-- What the directive on a line says about the lines behind it, if there is one that maps lines. -/
def saidOn (directives : List Directive) (line : Span) : Option LineMapping :=
  (directives.find? (line.contains ·.span)).bind (LineMapping.ofDirective? ·.text)

/-- The mappings under which lines are placed, which are read from the top: each line is under the mapping
that is in force before it, and a directive on it counts from the next line on. The first line begins at the
given offset. -/
def readLines (directives : List Directive) : LineMapping → Nat → List (List Char) → List LineMapping
  | _, _, [] => []
  | current, offset, line :: lines =>
    let said := saidOn directives (Span.ofLength offset (byteLength line))
    current :: readLines directives (said.getD (current.after 1)) (offset + byteLength line + '\n'.utf8Size) lines

/-! ### Mapped lines in order -/

namespace MappedLine

/-- What is in force on a line, which is counted from zero. -/
def inForce (mapped : List MappedLine) (line : Nat) : LineMapping :=
  ((mapped.reverse.find? (·.line < line)).map fun m => m.mapping.after (line - m.line - 1)).getD .default

variable {mapped : List MappedLine} {line : Nat}

@[simp] theorem inForce_zero (mapped : List MappedLine) : inForce mapped 0 = .default := by
  have hnone : mapped.reverse.find? (·.line < 0) = none := List.find?_eq_none.2 fun m _ => by simp
  rw [inForce, hnone, Option.map_none, Option.getD_none]

/-- The last mapped line up to a line is this line, if it is mapped, or else the last one before it. -/
theorem find?_reverse_succ (h : mapped.Pairwise (·.line < ·.line)) :
    mapped.reverse.find? (·.line < line + 1) =
      (mapped.find? (·.line = line)).or (mapped.reverse.find? (·.line < line)) := by
  induction mapped using List.reverseRecOn with
  | nil => rfl
  | append_singleton mapped last ih =>
    obtain ⟨hmapped, -, hlast⟩ := List.pairwise_append.1 h
    have hlast : ∀ m ∈ mapped, m.line < last.line := fun m hm => hlast m hm last List.mem_cons_self
    rw [List.reverse_concat, List.find?_cons, List.find?_cons, List.find?_append, List.find?_singleton]
    rcases Nat.lt_trichotomy last.line line with hlt | heq | hgt
    · have hnone : mapped.find? (·.line = line) = none := by
        apply List.find?_eq_none.2
        intro m hm
        have := hlast m hm
        simp only [decide_eq_true_eq]
        omega
      simp [hnone, hlt, Nat.lt_succ_of_lt hlt, Nat.ne_of_lt hlt]
    · have hnone : mapped.find? (·.line = line) = none := by
        apply List.find?_eq_none.2
        intro m hm
        have := hlast m hm
        simp only [decide_eq_true_eq]
        omega
      simp [hnone, heq]
    · have h1 : ¬last.line < line + 1 := by omega
      have h2 : ¬last.line < line := by omega
      have h3 : last.line ≠ line := by omega
      simpa [h1, h2, h3] using ih hmapped

/-- One line further down, the mapping is what the line says, or else the one before, counted on. -/
theorem inForce_succ (h : mapped.Pairwise (·.line < ·.line)) :
    inForce mapped (line + 1) =
      ((mapped.find? (·.line = line)).map (·.mapping)).getD ((inForce mapped line).after 1) := by
  rw [inForce, find?_reverse_succ h]
  cases hline : mapped.find? (·.line = line) with
  | some m =>
    have hm : m.line = line := by simpa using List.find?_some hline
    simp [hm]
  | none =>
    cases hbefore : mapped.reverse.find? (·.line < line) with
    | none => simp [inForce, hbefore, LineMapping.after]
    | some m =>
      have hm : m.line < line := by simpa using List.find?_some hbefore
      have hcount : line + 1 - m.line - 1 = line - m.line - 1 + 1 := by omega
      simp [inForce, hbefore, hcount]

end MappedLine

/-! ### Directives of a text -/

/-- A directive stands in a text: it begins behind some characters and goes on to the end of the line. -/
inductive Directive.StandsIn (text : List Char) (d : Directive) : Prop
  | mk {before here behind : List Char} (htext : text = before ++ (here ++ behind)) (hne : here ≠ [])
      (hspan : d.span = Span.ofLength (byteLength before) (byteLength here)) (hline : '\n' ∉ here)
      (hbehind : behind.head?.all (· == '\n'))

theorem Tiles.standsIn {offset : Nat} {cs : List Char} {pieces : List Piece} (h : Tiles offset cs pieces)
    (before : List Char) (ho : offset = byteLength before) :
    ∀ d, Piece.directive d ∈ pieces → d.StandsIn (before ++ cs) := by
  induction h generalizing before with
  | last => simp
  | @piece offset gap here rest piece pieces hgap hne hspan hstands h ih =>
    intro d hd
    rcases List.mem_cons.1 hd with rfl | hd
    · obtain ⟨line, rfl, hline, hbehind, -⟩ := hstands
      refine ⟨(List.append_assoc ..).symm, hne, ?_, ?_, hbehind⟩
      · rw [Text.byteLength_append, ← ho]
        exact hspan
      · simpa using hline
    · have := ih (before ++ (gap ++ here)) (by simp [ho, Nat.add_assoc]) d hd
      simpa using this

namespace SourceMap

/-- The line on which a directive stands, counted from zero. -/
def lineOf (text : List Char) (d : Directive) : Nat := lineAmong (0 :: startsBehind 0 text) d.span.start

/-- Two directives stand on different lines, since a directive takes all of its line. -/
theorem lineOf_lt {text : List Char} {d d' : Directive} (hd : d.StandsIn text) (hd' : d'.StandsIn text)
    (h : d.span.stop ≤ d'.span.start) : lineOf text d < lineOf text d' := by
  obtain ⟨htext, -, hspan, -, hbehind⟩ := hd
  rename_i before here behind
  obtain ⟨htext', hne', hspan', hline', -⟩ := hd'
  rename_i before' here' behind'
  rw [hspan, hspan', Span.stop_ofLength, Span.start_ofLength, ← Text.byteLength_append] at h
  obtain ⟨more, hmore, hsplit⟩ :=
    Text.exists_between (htext.trans (List.append_assoc ..).symm) htext' h
  -- What stands behind the first directive is the end of its line.
  obtain ⟨rest, rfl⟩ : ∃ rest, more = '\n' :: rest := by
    cases more with
    | nil =>
      obtain ⟨c, here'', rfl⟩ := List.exists_cons_of_ne_nil hne'
      rw [hsplit] at hbehind
      have hc : c = '\n' := by simpa using hbehind
      exact absurd List.mem_cons_self (hc ▸ hline')
    | cons c rest =>
      rw [hsplit] at hbehind
      exact ⟨rest, by simpa using hbehind⟩
  rw [lineOf, lineOf, hspan, hspan', Span.start_ofLength, Span.start_ofLength]
  have hleft := lineAmong_eq_count before (here ++ behind)
  have hright := lineAmong_eq_count before' (here' ++ behind')
  rw [← htext] at hleft
  rw [← htext'] at hright
  rw [hleft, hright, hmore]
  simp only [List.count_append, List.count_cons_self]
  omega

/-- A directive stands on the line that begins behind some full lines just if its number is theirs. -/
theorem contains_iff_lineOf {text front line rest : List Char} {d : Directive} (hd : d.StandsIn text)
    (htext : text = front ++ (line ++ '\n' :: rest)) (hfront : Text.lastLine front = []) (hline : '\n' ∉ line) :
    (Span.ofLength (byteLength front) (byteLength line)).contains d.span ↔
      lineOf text d = front.count '\n' := by
  obtain ⟨hd, hne, hspan, hhere, -⟩ := hd
  rename_i before here behind
  have hcount : lineOf text d = before.count '\n' := by
    rw [lineOf, hspan, Span.start_ofLength, hd, lineAmong_eq_count]
  have hzero : line.count '\n' = 0 := List.count_eq_zero.2 hline
  rw [hcount, hspan, Span.contains_iff]
  simp only [Span.start_ofLength, Span.stop_ofLength]
  have hend : text = (front ++ line) ++ '\n' :: rest := htext.trans (List.append_assoc ..).symm
  constructor
  · rintro ⟨hstart, hstop⟩
    obtain ⟨more, hmore, -⟩ := Text.exists_between htext hd hstart
    obtain ⟨more', hmore', -⟩ := Text.exists_between hd hend (by rw [Text.byteLength_append]; omega)
    have hle := congrArg (List.count '\n') hmore
    have hge := congrArg (List.count '\n') hmore'
    simp only [List.count_append] at hle hge
    omega
  · intro heq
    have hstart : byteLength front ≤ byteLength before := by
      by_contra hlt
      obtain ⟨more, rfl, -⟩ := Text.exists_between hd htext (by omega)
      have hmore : '\n' ∉ more := by
        rw [List.count_append] at heq
        exact List.count_eq_zero.1 (by omega)
      rw [Text.lastLine_append hmore] at hfront
      rw [(List.append_eq_nil_iff.1 hfront).2] at hlt
      simp at hlt
    refine ⟨hstart, ?_⟩
    by_contra hlt
    have hd' : text = (before ++ here) ++ behind := hd.trans (List.append_assoc ..).symm
    obtain ⟨more, hmore, hsplit⟩ := Text.exists_between hend hd' (by
      rw [Text.byteLength_append, Text.byteLength_append]
      omega)
    cases more with
    | nil =>
      have := congrArg byteLength hmore
      simp only [Text.byteLength_append, List.append_nil] at this
      omega
    | cons c more =>
      rw [List.cons_append] at hsplit
      obtain ⟨rfl, -⟩ := List.cons.inj hsplit
      have := congrArg (List.count '\n') hmore
      simp only [List.count_append, List.count_cons_self, List.count_eq_zero.2 hhere] at this
      omega

/-! ### Both readings -/

/-- The lines that the directives of a text map. -/
def mappedLines (text : List Char) (directives : List Directive) : List MappedLine :=
  directives.filterMap fun d =>
    (LineMapping.ofDirective? d.text).map fun mapping => ⟨lineOf text d, mapping⟩

variable {text : List Char} {directives : List Directive}

theorem pairwise_mappedLines (h : directives.Pairwise (lineOf text · < lineOf text ·)) :
    (mappedLines text directives).Pairwise (·.line < ·.line) := by
  apply List.Pairwise.filterMap _ _ h
  intro d d' hlt m hm m' hm'
  obtain ⟨_, -, rfl⟩ := Option.map_eq_some_iff.1 hm
  obtain ⟨_, -, rfl⟩ := Option.map_eq_some_iff.1 hm'
  exact hlt

/-- Of the directives on different lines the one on a line is found, whether it maps lines or not. -/
theorem find?_mappedLines (h : directives.Pairwise (lineOf text · < lineOf text ·)) (line : Nat) :
    ((mappedLines text directives).find? (·.line = line)).map (·.mapping) =
      (directives.find? (lineOf text · = line)).bind (LineMapping.ofDirective? ·.text) := by
  induction directives with
  | nil => rfl
  | cons d directives ih =>
    obtain ⟨hd, h⟩ := List.pairwise_cons.1 h
    have ih := ih h
    by_cases hline : lineOf text d = line
    · rw [List.find?_cons_of_pos (by simpa using hline), Option.bind_some]
      cases hm : LineMapping.ofDirective? d.text with
      | some mapping => simp [mappedLines, hm, hline]
      | none =>
        have hnone : directives.find? (lineOf text · = line) = none := by
          apply List.find?_eq_none.2
          intro d' hd'
          have := hd d' hd'
          simp only [decide_eq_true_eq]
          omega
        rw [hnone, Option.bind_none] at ih
        rw [← ih]
        simp [mappedLines, hm]
    · rw [List.find?_cons_of_neg (by simpa using hline), ← ih]
      cases hm : LineMapping.ofDirective? d.text with
      | some mapping => simp [mappedLines, hm, hline]
      | none => simp [mappedLines, hm]

/-- What the reader finds on a line is what the list of mapped lines says about it. -/
theorem saidOn_eq {front line rest : List Char} (hstands : ∀ d ∈ directives, d.StandsIn text)
    (h : directives.Pairwise (lineOf text · < lineOf text ·)) (htext : text = front ++ (line ++ '\n' :: rest))
    (hfront : Text.lastLine front = []) (hline : '\n' ∉ line) :
    saidOn directives (Span.ofLength (byteLength front) (byteLength line)) =
      ((mappedLines text directives).find? (·.line = front.count '\n')).map (·.mapping) := by
  rw [find?_mappedLines h, saidOn]
  congr 1
  rw [← List.head?_filter, ← List.head?_filter]
  congr 1
  apply List.filter_congr
  intro d hd
  rw [Bool.eq_iff_iff, decide_eq_true_eq]
  exact contains_iff_lineOf (hstands d hd) htext hfront hline

/-- The reader has in mind what the list of mapped lines says. -/
theorem readLines_eq {before after front rest : List Char}
    (hstands : ∀ d ∈ directives, d.StandsIn text) (h : directives.Pairwise (lineOf text · < lineOf text ·))
    (htext : text = front ++ rest) (hfront : Text.lastLine front = []) (hrest : rest = before ++ after) :
    (readLines directives (MappedLine.inForce (mappedLines text directives) (front.count '\n'))
        (byteLength front) (rest.splitOn '\n'))[before.count '\n']? =
      some (MappedLine.inForce (mappedLines text directives) ((front ++ before).count '\n')) := by
  generalize hn : before.count '\n' = n
  induction n generalizing front before rest with
  | zero =>
    have hlines : rest.splitOn '\n' ≠ [] := List.splitOnP_ne_nil _ _
    obtain ⟨line, lines, hlines⟩ := List.exists_cons_of_ne_nil hlines
    rw [hlines, readLines, List.getElem?_cons_zero, List.count_append, hn]
    rfl
  | succ n ih =>
    -- The first line, of which `before` has all, and the lines behind it.
    obtain ⟨line, more, rfl, hline⟩ : ∃ line more, before = line ++ '\n' :: more ∧ '\n' ∉ line :=
      List.eq_append_cons_of_mem (List.count_pos_iff.1 (by omega))
    have hzero : line.count '\n' = 0 := List.count_eq_zero.2 hline
    have hsplit : rest = line ++ '\n' :: (more ++ after) := by simp [hrest]
    have hsaid := saidOn_eq hstands h (hsplit ▸ htext) hfront hline
    have hlines : rest.splitOn '\n' = line :: (more ++ after).splitOn '\n' := by
      rw [hsplit]
      apply List.splitOnP_append_cons_of_forall_mem
      · intro c hc
        exact beq_eq_false_iff_ne.2 (ne_of_mem_of_not_mem hc hline)
      · rfl
    have hcount : (front ++ line ++ ['\n']).count '\n' = front.count '\n' + 1 := by
      simp only [List.count_append, hzero, List.count_singleton_self, Nat.add_zero]
    have hlength : byteLength (front ++ line ++ ['\n']) = byteLength front + byteLength line + '\n'.utf8Size := by
      simp only [Text.byteLength_append, byteLength, Nat.add_zero]
    have hbehind : text = (front ++ line ++ ['\n']) ++ (more ++ after) := by
      rw [htext, hsplit]
      simp
    have hstart : Text.lastLine (front ++ line ++ ['\n']) = [] := by
      rw [Text.lastLine_concat, if_pos rfl]
    have hmore : more.count '\n' = n := by
      simp only [List.count_append, List.count_cons_self, hzero] at hn
      omega
    have hnext := ih hbehind hstart rfl hmore
    rw [hcount, hlength, MappedLine.inForce_succ (pairwise_mappedLines h), ← hsaid] at hnext
    rw [hlines, readLines, List.getElem?_cons_succ, hnext]
    simp

theorem location?_eq (file : String) {text : String} (directives : List Directive) {before after : List Char}
    (h : text.toList = before ++ after) :
    (ofText file text directives).location? (byteLength before) =
      ((MappedLine.inForce (mappedLines text.toList directives) (before.count '\n')).wrapped.place? file
        (before.count '\n' + 1)).map fun (file, line) => ⟨file, line, (Text.lastLine before).length + 1⟩ := by
  have hmapped : (ofText file text directives).directives = mappedLines text.toList directives := rfl
  rw [location?, position?_eq file directives h, MappedLine.inForce]
  simp only [Option.bind_eq_bind, Option.bind_some, Nat.add_sub_cancel, directiveBefore?, hmapped]
  cases (mappedLines text.toList directives).reverse.find? (·.line < before.count '\n') with
  | none => rfl
  | some m =>
    obtain ⟨line, mapping⟩ := m
    cases mapping <;> rfl

end SourceMap

namespace SourceTree

/-- The directives of a text stand in it, on lines that go down the text. -/
theorem directives_of_ofText {text : String} {tree : SourceTree} (h : ofText text = .ok tree) :
    (∀ d ∈ tree.directives, d.StandsIn text.toList) ∧
      tree.directives.Pairwise (SourceMap.lineOf text.toList · < SourceMap.lineOf text.toList ·) := by
  obtain ⟨lexed, hl, -, hdirectives, -⟩ := ofText_eq_ok.1 h
  obtain ⟨lexemes, hs, rfl⟩ := Lexed.ofText_eq_ok.1 hl
  have htiles := hs.tiles 0 0
  have hpieces : tree.directives = (Lexed.piecesFrom 0 0 lexemes).filterMap Piece.directive? := by
    rw [Lexed.filterMap_directive?_piecesFrom, hdirectives]
    rfl
  have hmem {piece : Piece} {d : Directive} (hd : piece.directive? = some d) : piece = .directive d := by
    cases piece with
    | token => cases hd
    | directive => exact congrArg _ (Option.some.inj hd)
  have hstands : ∀ d ∈ tree.directives, d.StandsIn text.toList := by
    intro d hd
    rw [hpieces] at hd
    obtain ⟨piece, hp, hd⟩ := List.mem_filterMap.1 hd
    exact htiles.standsIn [] rfl d (hmem hd ▸ hp)
  have hordered : tree.directives.Pairwise fun d d' => d.span.stop ≤ d'.span.start := by
    rw [hpieces]
    apply List.Pairwise.filterMap _ _ htiles.pairwise
    intro piece piece' hle d hd d' hd'
    rw [hmem hd, hmem hd'] at hle
    exact hle
  refine ⟨hstands, hordered.imp_of_mem ?_⟩
  intro d d' hd hd' hle
  exact SourceMap.lineOf_lt (hstands d hd) (hstands d' hd') hle

/-- A comment over two lines with a directive behind it, and a directive that maps no lines. -/
def mappedText : String := "class A\x7b/*\n*/int a;\n/*\n*/#line 7 \"g\"\n#region\nint b;\n\x7d"

/-- The characters of this text before its second member. -/
def mappedFront : List Char := mappedText.toList.take 45

end SourceTree

end CultureLint
