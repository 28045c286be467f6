import CultureLint.Text.LineDiff
import Mathlib.Data.List.Basic

/-! Lines and their ends. A text is cut into full lines and perhaps a last line without an end; full lines
that are put one behind the other are cut apart again, where none begins with a line feed. -/

namespace CultureLint.Text

/-! ### Full lines -/

/-- A character that ends a line or belongs to the end of one. -/
def isBreak (c : Char) : Bool := c == '\n' || c == '\r'

/-- A line with its end, and without another one inside. -/
inductive IsFull : List Char → Prop
  | lineFeed : IsFull ['\n']
  | carriageReturn : IsFull ['\r']
  | both : IsFull ['\r', '\n']
  | cons {c : Char} {line : List Char} (hc : isBreak c = false) (h : IsFull line) : IsFull (c :: line)

namespace IsFull

variable {line : List Char}

theorem ne_nil (h : IsFull line) : line ≠ [] := by cases h <;> simp

theorem endsLine (h : IsFull line) : endsLine line = true := by
  induction h with
  | lineFeed => rfl
  | carriageReturn => rfl
  | both => rfl
  | @cons c line hc h ih => rwa [Text.endsLine, List.getLast?_cons_of_ne_nil h.ne_nil]

/-- Characters without an end, and an end behind them. -/
theorem append {front : List Char} (hfront : ∀ c ∈ front, isBreak c = false) (h : IsFull line) :
    IsFull (front ++ line) := by
  induction front with
  | nil => exact h
  | cons c front ih =>
    obtain ⟨hc, hfront⟩ := List.forall_mem_cons.1 hfront
    exact .cons hc (ih hfront)

end IsFull

theorem ne_carriageReturn {c : Char} (hc : isBreak c = false) (cs cs' : List Char) (h : c = '\r') :
    cs = '\n' :: cs' → False := by
  rw [h] at hc
  cases hc

/-- A character before a line belongs to it. -/
theorem splitLines_cons_cons {c : Char} (hc : isBreak c = false) {cs line : List Char} {lines : List (List Char)}
    (h : splitLines cs = line :: lines) : splitLines (c :: cs) = (c :: line) :: lines := by
  rw [splitLines, if_neg (by simpa [isBreak] using hc), h]
  exact fun cs' => ne_carriageReturn hc cs cs'

/-- A character at the end is a line. -/
theorem splitLines_cons_nil {c : Char} (hc : isBreak c = false) {cs : List Char} (h : splitLines cs = []) :
    splitLines (c :: cs) = [[c]] := by
  rw [splitLines, if_neg (by simpa [isBreak] using hc), h]
  exact fun cs' => ne_carriageReturn hc cs cs'

/-- A full line is cut off the text behind it, unless its end goes on there. -/
theorem splitLines_append {line rest : List Char} (h : IsFull line) (hrest : rest.head? ≠ some '\n') :
    splitLines (line ++ rest) = line :: splitLines rest := by
  induction h with
  | lineFeed =>
    rw [List.singleton_append, splitLines]
    · rfl
    · rintro cs' hc -
      cases hc
  | carriageReturn =>
    rw [List.singleton_append, splitLines]
    · rfl
    · rintro cs' - rfl
      exact hrest rfl
  | both => rfl
  | @cons c line hc h ih => rw [List.cons_append, splitLines_cons_cons hc ih]

theorem splitLines_flatten {lines : List (List Char)} (hfull : ∀ line ∈ lines, IsFull line)
    (hhead : ∀ line ∈ lines, line.head? ≠ some '\n') : splitLines lines.flatten = lines := by
  induction lines with
  | nil => rfl
  | cons line lines ih =>
    obtain ⟨hline, hfull⟩ := List.forall_mem_cons.1 hfull
    obtain ⟨-, hhead⟩ := List.forall_mem_cons.1 hhead
    rw [List.flatten_cons, splitLines_append hline, ih hfull hhead]
    cases lines with
    | nil => simp
    | cons next lines =>
      rw [List.flatten_cons, List.head?_append_of_ne_nil _ (hfull next List.mem_cons_self).ne_nil]
      exact hhead next List.mem_cons_self

/-! ### The lines of a text -/

/-- A text is cut into full lines, and the characters behind the last of them. -/
theorem exists_splitLines (cs : List Char) : ∃ (lines : List (List Char)) (last : List Char),
    splitLines cs = lines ++ (if last = [] then [] else [last]) ∧ cs = lines.flatten ++ last ∧
      (∀ line ∈ lines, IsFull line) ∧ ∀ c ∈ last, isBreak c = false := by
  induction cs using splitLines.induct with
  | case1 => exact ⟨[], [], rfl, rfl, by simp, by simp⟩
  | case2 cs ih =>
    obtain ⟨lines, last, hsplit, hcs, hlines, hlast⟩ := ih
    refine ⟨['\r', '\n'] :: lines, last, ?_, ?_, List.forall_mem_cons.2 ⟨.both, hlines⟩, hlast⟩
    · rw [splitLines, hsplit, List.cons_append]
    · rw [hcs]
      rfl
  | case3 c cs hne hc ih =>
    obtain ⟨lines, last, hsplit, hcs, hlines, hlast⟩ := ih
    have hfull : IsFull [c] := by
      simp only [Bool.or_eq_true, decide_eq_true_eq] at hc
      rcases hc with rfl | rfl
      · exact .lineFeed
      · exact .carriageReturn
    refine ⟨[c] :: lines, last, ?_, ?_, List.forall_mem_cons.2 ⟨hfull, hlines⟩, hlast⟩
    · rw [splitLines, if_pos hc, hsplit, List.cons_append]
      exact hne
    · rw [hcs]
      rfl
  | case4 c cs hne hc hnil ih =>
    have hc : isBreak c = false := by simpa [isBreak] using hc
    obtain ⟨lines, last, hsplit, hcs, -, -⟩ := ih
    -- No line was found, so that nothing is left.
    have hcs : cs = [] := by
      rw [hnil] at hsplit
      have hlines : lines = [] := (List.append_eq_nil_iff.1 hsplit.symm).1
      have hlast : last = [] := by
        by_contra hlast
        simp [hlast] at hsplit
      rw [hcs, hlines, hlast]
      rfl
    refine ⟨[], [c], ?_, by rw [hcs]; rfl, by simp, by simpa using hc⟩
    rw [splitLines_cons_nil hc hnil]
    rfl
  | case5 c cs hne hc line lines' hfound ih =>
    have hc : isBreak c = false := by simpa [isBreak] using hc
    obtain ⟨lines, last, hsplit, hcs, hlines, hlast⟩ := ih
    cases lines with
    | nil =>
      have hnonempty : last ≠ [] := by
        rintro rfl
        simp [hsplit] at hfound
      refine ⟨[], c :: last, ?_, by rw [hcs]; rfl, by simp, List.forall_mem_cons.2 ⟨hc, hlast⟩⟩
      rw [List.nil_append, if_neg hnonempty] at hsplit
      rw [splitLines_cons_cons hc hsplit]
      rfl
    | cons front lines =>
      obtain ⟨hfront, hlines⟩ := List.forall_mem_cons.1 hlines
      refine ⟨(c :: front) :: lines, last, ?_, by rw [hcs]; rfl,
        List.forall_mem_cons.2 ⟨.cons hc hfront, hlines⟩, hlast⟩
      rw [splitLines_cons_cons hc hsplit]
      rfl

theorem flatten_splitLines (cs : List Char) : (splitLines cs).flatten = cs := by
  obtain ⟨lines, last, hsplit, hcs, -, -⟩ := exists_splitLines cs
  rw [hsplit, hcs, List.flatten_append]
  by_cases hlast : last = [] <;> simp [hlast]

theorem splitLines_inj {cs cs' : List Char} : splitLines cs = splitLines cs' ↔ cs = cs' := by
  constructor
  · intro h
    rw [← flatten_splitLines cs, h, flatten_splitLines]
  · rintro rfl
    rfl

theorem endsLine_eq_false {line : List Char} (h : ∀ c ∈ line, isBreak c = false) : endsLine line = false := by
  rw [endsLine, Option.any_eq_false]
  intro c hc
  simpa [isBreak] using h c (List.mem_of_getLast? hc)

theorem ne_nil_of_mem_splitLines {cs line : List Char} (h : line ∈ splitLines cs) : line ≠ [] := by
  obtain ⟨lines, last, hsplit, -, hlines, -⟩ := exists_splitLines cs
  rw [hsplit, List.mem_append] at h
  rcases h with h | h
  · exact (hlines line h).ne_nil
  · split at h
    · cases h
    · rwa [List.mem_singleton.1 h]

/-- Only the last line of a text has no end. -/
theorem pairwise_splitLines (cs : List Char) :
    (splitLines cs).Pairwise fun line _ => endsLine line = true := by
  obtain ⟨lines, last, hsplit, -, hlines, -⟩ := exists_splitLines cs
  rw [hsplit, List.pairwise_append]
  refine ⟨?_, ?_, fun line hline _ _ => (hlines line hline).endsLine⟩
  · exact List.pairwise_of_forall_mem_list fun line hline _ _ => (hlines line hline).endsLine
  · split
    · exact .nil
    · exact List.pairwise_singleton _ _

/-! ### Closed lines -/

/-- A line with a line feed behind it, if it has no end. -/
def closeLine (line : List Char) : List Char := if endsLine line then line else line ++ ['\n']

/-- The lines of a text are full once they are closed. -/
theorem isFull_closeLine {cs line : List Char} (h : line ∈ splitLines cs) : IsFull (closeLine line) := by
  obtain ⟨lines, last, hsplit, -, hlines, hlast⟩ := exists_splitLines cs
  rw [hsplit, List.mem_append] at h
  rcases h with h | h
  · rw [closeLine, if_pos (hlines line h).endsLine]
    exact hlines line h
  · split at h
    · cases h
    · obtain rfl := List.mem_singleton.1 h
      rw [closeLine, endsLine_eq_false hlast]
      exact .append hlast .lineFeed

theorem endsLine_closeLine (line : List Char) : endsLine (closeLine line) = true := by
  rw [closeLine]
  split
  · assumption
  · simp [endsLine]

@[simp] theorem closeLine_closeLine (line : List Char) : closeLine (closeLine line) = closeLine line := by
  rw [closeLine, if_pos (endsLine_closeLine line)]

/-- Two lines that become equal by closing differ at most in the line feed of one of them. -/
theorem eq_of_closeLine_eq {line line' : List Char} (h : closeLine line = closeLine line') :
    line = line' ∨ (endsLine line = false ∧ line' = line ++ ['\n']) ∨
      (endsLine line' = false ∧ line = line' ++ ['\n']) := by
  cases hline : endsLine line <;> cases hline' : endsLine line'
  · simp only [closeLine, hline, hline', Bool.false_eq_true, if_false, List.append_cancel_right_eq] at h
    exact .inl h
  · simp only [closeLine, hline, hline', Bool.false_eq_true, if_false, if_true] at h
    exact .inr (.inl ⟨rfl, h.symm⟩)
  · simp only [closeLine, hline, hline', Bool.false_eq_true, if_false, if_true] at h
    exact .inr (.inr ⟨rfl, h⟩)
  · simp only [closeLine, hline, hline', if_true] at h
    exact .inl h

end CultureLint.Text
