import CultureLint.Proofs.Text.Lines

/-! Edit scripts between two texts. The lines of a script that are kept or deleted are the old ones and
those that are kept or inserted are the new ones. A script whose lines are closed tells the new lines, except
for the end of the last one that is inserted. -/

namespace CultureLint.Text

/-! ### Scripts between lines -/

def oldLines (script : List Change) : List (List Char) := (script.filter Change.inOld).map Change.line

def newLines (script : List Change) : List (List Char) := (script.filter Change.inNew).map Change.line

theorem length_oldLines (script : List Change) : (oldLines script).length = script.countP Change.inOld := by
  rw [oldLines, List.length_map, List.countP_eq_length_filter]

theorem length_newLines (script : List Change) : (newLines script).length = script.countP Change.inNew := by
  rw [newLines, List.length_map, List.countP_eq_length_filter]

/-- A script that makes new lines from old ones. -/
inductive Edits : List Change → List (List Char) → List (List Char) → Prop
  | nil : Edits [] [] []
  | keep {script olds news} (line : List Char) (h : Edits script olds news) :
      Edits (.keep line :: script) (line :: olds) (line :: news)
  | delete {script olds news} (line : List Char) (h : Edits script olds news) :
      Edits (.delete line :: script) (line :: olds) news
  | insert {script olds news} (line : List Char) (h : Edits script olds news) :
      Edits (.insert line :: script) olds (line :: news)

namespace Edits

variable {script : List Change} {olds news : List (List Char)}

/-- Without changes the new lines are the old ones. -/
theorem eq_of_isKeep (h : Edits script olds news) (hkeep : ∀ change ∈ script, change.isKeep = true) :
    olds = news := by
  induction h with
  | nil => rfl
  | keep line h ih => rw [ih fun change hchange => hkeep change (List.mem_cons_of_mem _ hchange)]
  | delete line h ih => simp [Change.isKeep] at hkeep
  | insert line h ih => simp [Change.isKeep] at hkeep

theorem oldLines_eq (h : Edits script olds news) : oldLines script = olds := by
  induction h with
  | nil => rfl
  | keep line h ih => exact congrArg (line :: ·) ih
  | delete line h ih => exact congrArg (line :: ·) ih
  | insert line h ih => exact ih

theorem newLines_eq (h : Edits script olds news) : newLines script = news := by
  induction h with
  | nil => rfl
  | keep line h ih => exact congrArg (line :: ·) ih
  | delete line h ih => exact ih
  | insert line h ih => exact congrArg (line :: ·) ih

/-- A script for no new lines deletes everything. -/
theorem eq_map_delete (h : Edits script olds []) : script = olds.map .delete := by
  generalize hnews : ([] : List (List Char)) = news at h
  induction h with
  | nil => rfl
  | keep line h ih => cases hnews
  | delete line h ih => rw [ih hnews, List.map_cons]
  | insert line h ih => cases hnews

/-- Every line of a script is one of the old or the new lines. -/
theorem line_mem (h : Edits script olds news) {change : Change} (hchange : change ∈ script) :
    change.line ∈ olds ∨ change.line ∈ news := by
  cases hold : change.inOld
  · right
    have hnew : change.inNew = true := by
      cases change <;> simp_all [Change.inOld, Change.inNew]
    rw [← h.newLines_eq]
    exact List.mem_map_of_mem (List.mem_filter.2 ⟨hchange, hnew⟩)
  · left
    rw [← h.oldLines_eq]
    exact List.mem_map_of_mem (List.mem_filter.2 ⟨hchange, hold⟩)

end Edits

/-! ### Closed scripts -/

namespace Change

/-- The same change of the closed line. -/
def closed : Change → Change
  | .keep line => .keep (closeLine line)
  | .delete line => .delete (closeLine line)
  | .insert line => .insert (closeLine line)

@[simp] theorem line_closed (change : Change) : change.closed.line = closeLine change.line := by
  cases change <;> rfl

@[simp] theorem isKeep_closed (change : Change) : change.closed.isKeep = change.isKeep := by
  cases change <;> rfl

@[simp] theorem inOld_closed (change : Change) : change.closed.inOld = change.inOld := by cases change <;> rfl

@[simp] theorem inNew_closed (change : Change) : change.closed.inNew = change.inNew := by cases change <;> rfl

end Change

/-- The first script inserts a last line without an end, and the second one the same line with a line
feed. Otherwise they are equal. -/
def OpensEnd (script script' : List Change) : Prop :=
  ∃ front line rest, endsLine line = false ∧ (∀ change ∈ rest, change.inNew = false) ∧
    script = front ++ .insert line :: rest ∧ script' = front ++ .insert (line ++ ['\n']) :: rest

theorem OpensEnd.cons {script script' : List Change} (change : Change) (h : OpensEnd script script') :
    OpensEnd (change :: script) (change :: script') := by
  obtain ⟨front, line, rest, hline, hrest, rfl, rfl⟩ := h
  exact ⟨change :: front, line, rest, hline, hrest, rfl, rfl⟩

theorem OpensEnd.map_closed {script script' : List Change} (h : OpensEnd script script') :
    script.map Change.closed = script'.map Change.closed := by
  obtain ⟨front, line, rest, hline, -, rfl, rfl⟩ := h
  have hclosed : endsLine (line ++ ['\n']) = true := by simp [endsLine]
  simp [Change.closed, closeLine, hline, hclosed]

/-- The new lines of the second script are those of the first, with a line feed behind the last one. -/
theorem OpensEnd.newLines_eq {script script' : List Change} (h : OpensEnd script script') :
    ∃ front line, endsLine line = false ∧ newLines script = front ++ [line] ∧
      newLines script' = front ++ [line ++ ['\n']] := by
  obtain ⟨front, line, rest, hline, hrest, rfl, rfl⟩ := h
  have hnone : rest.filter Change.inNew = [] := by
    rw [List.filter_eq_nil_iff]
    intro change hchange
    simp [hrest change hchange]
  refine ⟨newLines front, line, hline, ?_, ?_⟩ <;>
    simp [newLines, List.filter_cons, hnone, Change.inNew, Change.line]

/-- The scripts are equal, but for the end of the last line that is inserted. -/
def SameUpToEnd (script script' : List Change) : Prop :=
  script = script' ∨ OpensEnd script script' ∨ OpensEnd script' script

namespace SameUpToEnd

variable {script script' : List Change}

theorem cons (h : SameUpToEnd script script') (change : Change) :
    SameUpToEnd (change :: script) (change :: script') := by
  rcases h with rfl | hopens | hopens
  · exact .inl rfl
  · exact .inr (.inl (hopens.cons change))
  · exact .inr (.inr (hopens.cons change))

theorem map_closed (h : SameUpToEnd script script') : script.map Change.closed = script'.map Change.closed := by
  rcases h with rfl | hopens | hopens
  · rfl
  · exact hopens.map_closed
  · exact hopens.map_closed.symm

end SameUpToEnd

theorem eq_nil_of_endsLine {line : List Char} {lines : List (List Char)}
    (hends : (line :: lines).Pairwise fun line _ => endsLine line = true) (hline : endsLine line = false) :
    lines = [] := by
  rw [List.eq_nil_iff_forall_not_mem]
  intro next hnext
  rw [List.rel_of_pairwise_cons hends hnext] at hline
  cases hline

theorem countP_inNew_closed (script : List Change) :
    (script.map Change.closed).countP Change.inNew = script.countP Change.inNew := by
  rw [List.countP_map]
  exact List.countP_congr fun change _ => by simp

namespace Edits

variable {script script' : List Change} {olds news news' : List (List Char)}

/-- If the closed scripts are equal and nothing stands behind an inserted line, the same lines are deleted
behind it. -/
theorem opensEnd_of_insert {line : List Char} (h : Edits script olds []) (h' : Edits script' olds news')
    (hclosed : script.map Change.closed = script'.map Change.closed) (hline : endsLine line = false) :
    OpensEnd (.insert line :: script) (.insert (line ++ ['\n']) :: script') := by
  have hnews' : news' = [] := by
    apply List.eq_nil_of_length_eq_zero
    rw [← h'.newLines_eq, length_newLines, ← countP_inNew_closed, ← hclosed, countP_inNew_closed,
      ← length_newLines, h.newLines_eq]
    rfl
  subst hnews'
  refine ⟨[], line, script, hline, ?_, rfl, ?_⟩
  · intro change hchange
    rw [h.eq_map_delete, List.mem_map] at hchange
    obtain ⟨old, -, rfl⟩ := hchange
    rfl
  · rw [h.eq_map_delete, h'.eq_map_delete]
    rfl

/-- The closed script tells the script, up to the end of the last line that is inserted. -/
theorem sameUpToEnd (h : Edits script olds news) (h' : Edits script' olds news')
    (hends : news.Pairwise fun line _ => endsLine line = true)
    (hends' : news'.Pairwise fun line _ => endsLine line = true)
    (hclosed : script.map Change.closed = script'.map Change.closed) :
    SameUpToEnd script script' := by
  induction h generalizing script' news' with
  | nil =>
    left
    exact (List.map_eq_nil_iff.1 hclosed.symm).symm
  | keep line h ih =>
    cases h' with
    | keep line h' =>
      obtain ⟨-, hclosed⟩ := List.cons.inj hclosed
      exact (ih h' hends.of_cons hends'.of_cons hclosed).cons _
    | delete line h' => cases (List.cons.inj hclosed).1
    | insert line h' => cases (List.cons.inj hclosed).1
  | delete line h ih =>
    cases h' with
    | keep line h' => cases (List.cons.inj hclosed).1
    | delete line h' =>
      obtain ⟨-, hclosed⟩ := List.cons.inj hclosed
      exact (ih h' hends hends' hclosed).cons _
    | insert line h' => cases (List.cons.inj hclosed).1
  | @insert script olds news line h ih =>
    cases h' with
    | nil => cases hclosed
    | keep line h' => cases (List.cons.inj hclosed).1
    | delete line h' => cases (List.cons.inj hclosed).1
    | @insert script' _ news' line' h' =>
      obtain ⟨hlines, hrest⟩ := List.cons.inj hclosed
      rcases eq_of_closeLine_eq (Change.insert.inj hlines) with rfl | ⟨hline, rfl⟩ | ⟨hline, rfl⟩
      · exact (ih h' hends.of_cons hends'.of_cons hrest).cons _
      · -- Only the last of the new lines has no end.
        have hnews : news = [] := eq_nil_of_endsLine hends hline
        subst hnews
        exact .inr (.inl (h.opensEnd_of_insert h' hrest hline))
      · have hnews' : news' = [] := eq_nil_of_endsLine hends' hline
        subst hnews'
        exact .inr (.inr (h'.opensEnd_of_insert h hrest.symm hline))

end Edits

end CultureLint.Text
