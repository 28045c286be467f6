import CultureLint.Proofs.Text.LineDiff

/-! What the display of a difference tells. Without colours it is a list of full lines: a header for each
hunk, which begins with an at sign, and the closed lines of the hunk behind their marks. The lines of the
display can be told apart, they tell the closed hunks, and these tell the script with the old text. The one
thing that is lost is whether the last inserted line has an end. Nothing is used of how the difference is made,
but that it is correct. -/

namespace CultureLint.Text

variable {header : Nat → Nat → Nat → Nat → String}

/-! ### Correct differences -/

/-- A correct difference of two texts by their lines. -/
structure Diff.IsBetween (d : Diff) (header : Nat → Nat → Nat → Nat → String) (script : List Change)
    (old new : String) : Prop where
  /-- The script makes the lines of the new text from those of the old one. -/
  edits : Edits script (splitLines old.toList) (splitLines new.toList)
  /-- Equal texts give only kept lines. -/
  keeps : old = new → ∀ change ∈ script, change.isKeep = true
  /-- Operations other than those on equal lines stand for the changes. -/
  tags : (∃ tag ∈ d.tags, tag ≠ .equal) ↔ ∃ change ∈ script, change.isKeep = false
  /-- The changes stand in the hunks, under their headers. -/
  groups : Groups header 0 0 script d.hunks
  /-- A line misses its end where it has none. -/
  missing : ∀ change : Change, d.missingNewline change = !endsLine change.line

theorem Diff.isBetween_ofTexts (old new : String) :
    (ofTexts old new).IsBetween renderHeader (script old new) old new where
  edits := (suits_bestScript _ _).edits.deletionsFirst
  keeps h change hchange := by
    subst h
    exact isKeep_of_mem_script hchange
  tags := by
    have htag (change : Change) : change.tag ≠ .equal ↔ change.isKeep = false := by
      cases change <;> simp [Change.tag, Change.isKeep]
    simp only [ofTexts, List.mem_map, exists_exists_and_eq_and, htag]
  groups := (groups_stretchesFrom (covers_shown _)).1 0 0
  missing _ := rfl

/-! ### The lines of a display -/

namespace Change

/-- The character before a shown line. -/
def mark : Change → Char
  | .keep _ => ' '
  | .delete _ => '-'
  | .insert _ => '+'

def shownLine (change : Change) : List Char := change.mark :: closeLine change.line

theorem shownLine_closed (change : Change) : change.closed.shownLine = change.shownLine := by
  rw [shownLine, shownLine, line_closed, closeLine_closeLine]
  cases change <;> rfl

/-- A shown line tells the closed change. -/
theorem closed_inj {change change' : Change} (h : change.shownLine = change'.shownLine) :
    change.closed = change'.closed := by
  obtain ⟨hmark, hline⟩ := List.cons.inj h
  cases change <;> cases change' <;> simp_all [mark, closed, Change.line]

theorem isBreak_mark (change : Change) : isBreak change.mark = false := by cases change <;> rfl

theorem mark_ne (change : Change) : change.mark ≠ '@' := by cases change <;> simp [mark]

end Change

namespace Hunk

def headerLine (hunk : Hunk) : List Char := hunk.header.toList ++ ['\n']

def shownLines (hunk : Hunk) : List (List Char) := hunk.headerLine :: hunk.changes.map Change.shownLine

/-- The display of a hunk is the one of its closed lines. -/
theorem shownLines_closed (hunk : Hunk) : hunk.closed.shownLines = hunk.shownLines := by
  rw [shownLines, shownLines, closed, List.map_map]
  exact congrArg _ (List.map_congr_left fun change _ => change.shownLine_closed)

end Hunk

namespace Diff

variable {d d' : Diff} {script script' : List Change} {old new new' : String}

def shownLines (d : Diff) : List (List Char) := d.hunks.flatMap Hunk.shownLines

theorem toList_renderChange (h : ∀ change : Change, d.missingNewline change = !endsLine change.line)
    (change : Change) : (d.renderChange false change).toList = change.shownLine := by
  have hclose (mark line : List Char) :
      (if !endsLine line then String.ofList mark ++ String.ofList line ++ "\n"
        else String.ofList mark ++ String.ofList line).toList = mark ++ closeLine line := by
    cases hend : endsLine line <;> simp [closeLine, hend]
  simp only [renderChange, h]
  cases change with
  | keep line => exact hclose [' '] line
  | delete line => exact hclose ['-'] line
  | insert line => exact hclose ['+'] line

theorem toList_renderHunk (h : ∀ change : Change, d.missingNewline change = !endsLine change.line)
    (hunk : Hunk) : (d.renderHunk false hunk).toList = hunk.shownLines.flatten := by
  have hlines : (hunk.changes.map (d.renderChange false)).flatMap String.toList =
      (hunk.changes.map Change.shownLine).flatten := by
    rw [List.flatMap, List.map_map]
    exact congrArg _ (List.map_congr_left fun change _ => toList_renderChange h change)
  simp [renderHunk, paint, Hunk.shownLines, Hunk.headerLine, String.toList_join, hlines]

theorem toList_render_none (h : ∀ change : Change, d.missingNewline change = !endsLine change.line) :
    (d.render false none).toList = d.shownLines.flatten := by
  have hlines : d.hunks.flatMap (fun hunk => hunk.shownLines.flatten) = d.shownLines.flatten := by
    rw [shownLines, List.flatten_eq_flatMap, List.flatMap_assoc]
    simp only [List.flatMap_id]
  simp [render, String.toList_join, List.flatMap_map, toList_renderHunk h, hlines]

/-- The names before the hunks do not matter. -/
theorem render_inj_names (names : Option (String × String)) :
    d.render false names = d'.render false names ↔ d.render false none = d'.render false none := by
  simp [render, String.append_right_inj]

end Diff

/-! ### Displays apart -/

/-- The lines behind a header are those of its hunk, up to a line that begins with an at sign. -/
theorem map_closed_eq {changes changes' : List Change} {rest rest' : List (List Char)}
    (hrest : ∀ line ∈ rest.head?, line.head? = some '@') (hrest' : ∀ line ∈ rest'.head?, line.head? = some '@')
    (h : changes.map Change.shownLine ++ rest = changes'.map Change.shownLine ++ rest') :
    changes.map Change.closed = changes'.map Change.closed ∧ rest = rest' := by
  have hmark (change : Change) : change.shownLine.head? ≠ some '@' := fun hsome =>
    change.mark_ne (Option.some.inj hsome)
  induction changes generalizing changes' with
  | nil =>
    cases changes' with
    | nil => exact ⟨rfl, h⟩
    | cons change' changes' =>
      rw [List.map_nil, List.nil_append] at h
      exact absurd (hrest change'.shownLine (by rw [h]; rfl)) (hmark change')
  | cons change changes ih =>
    cases changes' with
    | nil =>
      rw [List.map_nil, List.nil_append] at h
      exact absurd (hrest' change.shownLine (by rw [← h]; rfl)) (hmark change)
    | cons change' changes' =>
      obtain ⟨hline, hlines⟩ := List.cons.inj h
      obtain ⟨hchanges, hrest⟩ := ih hlines
      rw [List.map_cons, List.map_cons, Change.closed_inj hline, hchanges]
      exact ⟨rfl, hrest⟩

/-- Hunks with headers of one kind. -/
def HaveHeaders (header : Nat → Nat → Nat → Nat → String) (hunks : List Hunk) : Prop :=
  ∀ hunk ∈ hunks, ∃ oldStart oldCount newStart newCount, hunk.header = header oldStart oldCount newStart newCount

theorem IsHeader.head?_headerLine (h : IsHeader header) {hunks : List Hunk} (hhunks : HaveHeaders header hunks)
    {hunk : Hunk} (hhunk : hunk ∈ hunks) : hunk.headerLine.head? = some '@' := by
  obtain ⟨oldStart, oldCount, newStart, newCount, hname⟩ := hhunks hunk hhunk
  rw [Hunk.headerLine, List.head?_append, hname, h.marked]
  rfl

theorem IsHeader.head?_flatMap_shownLines (h : IsHeader header) {hunks : List Hunk}
    (hhunks : HaveHeaders header hunks) :
    ∀ line ∈ (hunks.flatMap Hunk.shownLines).head?, line.head? = some '@' := by
  intro line hline
  cases hunks with
  | nil => cases hline
  | cons hunk hunks =>
    obtain rfl := Option.some.inj hline
    exact h.head?_headerLine hhunks List.mem_cons_self

/-- The shown lines tell the closed hunks. -/
theorem IsHeader.map_closed_of_shownLines (h : IsHeader header) {hunks hunks' : List Hunk}
    (hhunks : HaveHeaders header hunks) (hhunks' : HaveHeaders header hunks')
    (hlines : hunks.flatMap Hunk.shownLines = hunks'.flatMap Hunk.shownLines) :
    hunks.map Hunk.closed = hunks'.map Hunk.closed := by
  induction hunks generalizing hunks' with
  | nil =>
    cases hunks' with
    | nil => rfl
    | cons hunk' hunks' => cases hlines
  | cons hunk hunks ih =>
    cases hunks' with
    | nil => cases hlines
    | cons hunk' hunks' =>
      have hhunks := fun hunk hhunk => hhunks hunk (List.mem_cons_of_mem _ hhunk)
      have hhunks' := fun hunk hhunk => hhunks' hunk (List.mem_cons_of_mem _ hhunk)
      rw [List.flatMap_cons, List.flatMap_cons] at hlines
      obtain ⟨hname, hlines⟩ := List.cons.inj hlines
      obtain ⟨hchanges, hrest⟩ :=
        map_closed_eq (h.head?_flatMap_shownLines hhunks) (h.head?_flatMap_shownLines hhunks') hlines
      have hname := String.toList_inj.1 (List.append_cancel_right hname)
      rw [List.map_cons, List.map_cons, ih hhunks hhunks' hrest, Hunk.closed, Hunk.closed, hchanges, hname]

namespace Diff

variable {d d' : Diff} {script script' : List Change} {old new new' : String}

/-- The closed hunks of a difference tell its display. -/
theorem render_of_map_closed (h : d.IsBetween header script old new) (h' : d'.IsBetween header script' old new')
    (hclosed : d.hunks.map Hunk.closed = d'.hunks.map Hunk.closed) :
    d.render false none = d'.render false none := by
  have hlines (hunks : List Hunk) :
      (hunks.map Hunk.closed).flatMap Hunk.shownLines = hunks.flatMap Hunk.shownLines := by
    rw [List.flatMap_map]
    exact congrArg (hunks.flatMap ·) (funext Hunk.shownLines_closed)
  rw [← String.toList_inj, toList_render_none h.missing, toList_render_none h'.missing, shownLines, shownLines,
    ← hlines, hclosed, hlines]

theorem shownLines_full (hheader : IsHeader header) (h : d.IsBetween header script old new) {line : List Char}
    (hline : line ∈ d.shownLines) : IsFull line ∧ line.head? ≠ some '\n' := by
  obtain ⟨hunk, hhunk, hline⟩ := List.mem_flatMap.1 hline
  rcases List.mem_cons.1 hline with rfl | hline
  · obtain ⟨oldStart, oldCount, newStart, newCount, hname⟩ := h.groups.exists_header hhunk
    refine ⟨.append (fun c hc => ?_) .lineFeed, ?_⟩
    · rw [hname] at hc
      exact hheader.unbroken _ _ _ _ c hc
    · rw [hheader.head?_headerLine (fun _ => h.groups.exists_header) hhunk]
      simp
  · obtain ⟨change, hchange, rfl⟩ := List.mem_map.1 hline
    have hfull : IsFull (closeLine change.line) := by
      rcases h.edits.line_mem (h.groups.mem_script hhunk hchange) with hold | hnew
      · exact isFull_closeLine hold
      · exact isFull_closeLine hnew
    refine ⟨.cons change.isBreak_mark hfull, fun hhead => ?_⟩
    have hmark := change.isBreak_mark
    rw [Option.some.inj hhead] at hmark
    cases hmark

/-- Equal displays have equal lines. -/
theorem shownLines_inj (hheader : IsHeader header) (h : d.IsBetween header script old new)
    (h' : d'.IsBetween header script' old new') (heq : d.render false none = d'.render false none) :
    d.shownLines = d'.shownLines := by
  have hflatten := congrArg String.toList heq
  rw [toList_render_none h.missing, toList_render_none h'.missing] at hflatten
  rw [← splitLines_flatten (fun line hline => (shownLines_full hheader h hline).1) fun line hline =>
    (shownLines_full hheader h hline).2, hflatten]
  exact splitLines_flatten (fun line hline => (shownLines_full hheader h' hline).1) fun line hline =>
    (shownLines_full hheader h' hline).2

/-- Scripts that are the same up to the end of the last inserted line make texts that are the same up to a
line feed at their end. -/
theorem eq_append_lineFeed (h : d.IsBetween header script old new) (h' : d'.IsBetween header script' old new')
    (hopens : OpensEnd script script') : endsLine new.toList = false ∧ new' = new ++ "\n" := by
  obtain ⟨front, line, hline, hnews, hnews'⟩ := hopens.newLines_eq
  rw [h.edits.newLines_eq] at hnews
  rw [h'.edits.newLines_eq] at hnews'
  have hnew : new.toList = front.flatten ++ line := by
    rw [← flatten_splitLines new.toList, hnews]
    simp
  have hnew' : new'.toList = front.flatten ++ line ++ ['\n'] := by
    rw [← flatten_splitLines new'.toList, hnews']
    simp
  have hmem : line ∈ splitLines new.toList := by simp [hnews]
  have hne : line ≠ [] := ne_nil_of_mem_splitLines hmem
  constructor
  · rwa [hnew, endsLine, List.getLast?_append_of_ne_nil _ hne]
  · rw [← String.toList_inj, String.toList_append, hnew', hnew]
    rfl

/-- There are changes exactly if the texts are not equal. -/
theorem hasChanges_iff (h : d.IsBetween header script old new) : d.hasChanges = true ↔ old ≠ new := by
  have htags : d.hasChanges = true ↔ ∃ change ∈ script, change.isKeep = false := by
    simpa [hasChanges] using h.tags
  rw [htags, ← not_iff_not, not_not]
  constructor
  · intro hnone
    have hlines := h.edits.eq_of_isKeep fun change hchange => by
      by_contra hkeep
      exact hnone ⟨change, hchange, by simpa using hkeep⟩
    exact String.toList_inj.1 (splitLines_inj.1 hlines)
  · rintro heq ⟨change, hchange, hkeep⟩
    rw [h.keeps heq change hchange] at hkeep
    cases hkeep

/-- Displays of correct differences from one text are equal exactly if their hunks stand at the same places and
their scripts are equal up to the end of the last inserted line; so the new texts are equal, or one of them has
no line end behind its last line and the other is that text with a line feed. A difference has changes exactly
if the texts are not equal. -/
theorem render_determines (hheader : IsHeader header) (h : d.IsBetween header script old new)
    (h' : d'.IsBetween header script' old new') (names : Option (String × String)) :
    (d.render false names = d'.render false names ↔
      SameUpToEnd script script' ∧ d.hunks.map Hunk.header = d'.hunks.map Hunk.header) ∧
    (d.render false names = d'.render false names →
      new = new' ∨ (endsLine new.toList = false ∧ new' = new ++ "\n") ∨
        (endsLine new'.toList = false ∧ new = new' ++ "\n")) ∧
    (d.hasChanges = true ↔ old ≠ new) := by
  have hscripts : d.render false names = d'.render false names ↔
      SameUpToEnd script script' ∧ d.hunks.map Hunk.header = d'.hunks.map Hunk.header := by
    rw [render_inj_names]
    constructor
    · intro heq
      have hclosed := hheader.map_closed_of_shownLines (fun _ => h.groups.exists_header)
        (fun _ => h'.groups.exists_header) (shownLines_inj hheader h h' heq)
      refine ⟨h.edits.sameUpToEnd h'.edits (pairwise_splitLines _) (pairwise_splitLines _) ?_, ?_⟩
      · apply h.groups.map_closed_script hheader h'.groups hclosed
        rw [h.edits.oldLines_eq, h'.edits.oldLines_eq]
      · have hnames := congrArg (List.map Hunk.header) hclosed
        rwa [List.map_map, List.map_map] at hnames
    · rintro ⟨hsame, hnames⟩
      exact render_of_map_closed h h' (h.groups.map_closed_hunks hheader h'.groups hsame.map_closed hnames)
  refine ⟨hscripts, fun heq => ?_, hasChanges_iff h⟩
  rcases (hscripts.1 heq).1 with hsame | hopens | hopens
  · left
    apply String.toList_inj.1
    rw [← splitLines_inj, ← h.edits.newLines_eq, ← h'.edits.newLines_eq, hsame]
  · exact .inr (.inl (eq_append_lineFeed h h' hopens))
  · exact .inr (.inr (eq_append_lineFeed h' h hopens))

/-- A text without a line end and one with it, made from two lines. -/
theorem render_determines_open :
    ((ofTexts "a\nb\n" "a\nc").render false none = (ofTexts "a\nb\n" "a\nc\n").render false none →
      "a\nc" = "a\nc\n" ∨ (endsLine "a\nc".toList = false ∧ "a\nc\n" = "a\nc" ++ "\n") ∨
        (endsLine "a\nc\n".toList = false ∧ "a\nc" = "a\nc\n" ++ "\n")) ∧
    SameUpToEnd (Text.script "a\nb\n" "a\nc") (Text.script "a\nb\n" "a\nc\n") ∧
    (ofTexts "a\nb\n" "a\nc").hasChanges = true :=
  have h := render_determines isHeader_renderHeader (isBetween_ofTexts "a\nb\n" "a\nc")
    (isBetween_ofTexts "a\nb\n" "a\nc\n") none
  ⟨h.2.1, (h.1.1 (by decide +kernel)).1, h.2.2.2 (by decide)⟩

/-- The display does not tell whether the last inserted line has an end. -/
theorem render_open_end : ∃ (header : Nat → Nat → Nat → Nat → String) (d d' : Diff) (script script' : List Change),
    IsHeader header ∧ d.IsBetween header script "" "b" ∧ d'.IsBetween header script' "" "b\n" ∧
      d.render false none = d'.render false none ∧ "b" ≠ "b\n" :=
  ⟨_, _, _, _, _, isHeader_renderHeader, isBetween_ofTexts "" "b", isBetween_ofTexts "" "b\n",
    by decide +kernel, by decide⟩

end Diff

end CultureLint.Text
