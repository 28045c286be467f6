import CultureLint.Proofs.Text.Hunks
import Mathlib.Data.List.Forall2

/-! The difference of two texts by lines is a correct one. The table of best scripts holds one for each end part
of both texts, and moving deletions forward changes neither side; equal texts are only kept. Every change is
shown, so that the lines that are gathered are hunks of the script. And the header of a hunk tells all of its
numbers, since none of them has a comma or a blank inside. -/

namespace CultureLint.Text

/-! ### Moving deletions forward -/

namespace Edits

variable {script : List Change} {olds news : List (List Char)}

theorem insert_all (lines : List (List Char)) (h : Edits script olds news) :
    Edits (lines.map .insert ++ script) olds (lines ++ news) := by
  induction lines with
  | nil => exact h
  | cons line lines ih => exact ih.insert line

theorem deletionsFirst {waiting : List (List Char)} (h : Edits script olds news) :
    Edits (deletionsFirst waiting script) olds (waiting ++ news) := by
  induction h generalizing waiting with
  | nil => simpa [Text.deletionsFirst] using nil.insert_all waiting
  | keep line h ih =>
    rw [Text.deletionsFirst]
    exact (ih.keep line).insert_all waiting
  | delete line h ih =>
    rw [Text.deletionsFirst]
    exact ih.delete line
  | @insert script olds news line h ih =>
    rw [Text.deletionsFirst, List.append_cons waiting line news]
    exact ih

end Edits

/-! ### The best script -/

/-- A script that makes new lines from old ones, and nothing but keeps them where they are the same. -/
structure Suits (script : List Change) (olds news : List (List Char)) : Prop where
  edits : Edits script olds news
  keeps : olds = news → script = olds.map .keep

/-- A script for the new lines, followed by one for each end part of them. -/
inductive Table (olds : List (List Char)) : List (List Char) → List Scored → Prop
  | last {best : Scored} (h : Suits best.2 olds []) : Table olds [] [best]
  | more {new : List Char} {news : List (List Char)} {best : Scored} {shorter : List Scored}
      (h : Suits best.2 olds (new :: news)) (hshorter : Table olds news shorter) :
      Table olds (new :: news) (best :: shorter)

namespace Table

variable {olds news : List (List Char)} {scripts : List Scored}

theorem exists_cons (h : Table olds news scripts) :
    ∃ best shorter, scripts = best :: shorter ∧ Suits best.2 olds news := by
  cases h with
  | last h => exact ⟨_, _, rfl, h⟩
  | more h => exact ⟨_, _, rfl, h⟩

theorem scriptsFromNothing (news : List (List Char)) : Table [] news (scriptsFromNothing news) := by
  induction news with
  | nil =>
    apply last
    exact ⟨.nil, fun _ => rfl⟩
  | cons new news ih =>
    apply more _ ih
    refine ⟨?_, fun h => by cases h⟩
    simpa using Edits.nil.insert_all (new :: news)

theorem addOldLine (old : List Char) (h : Table olds news scripts) :
    Table (old :: olds) news (addOldLine old news scripts) := by
  induction h with
  | @last best h =>
    apply last
    exact ⟨h.edits.delete old, fun h => by cases h⟩
  | @more new news best shorter h hshorter ih =>
    obtain ⟨right, rights, hrights, hright⟩ := ih.exists_cons
    obtain ⟨diagonal, downs, rfl, hdiagonal⟩ := hshorter.exists_cons
    rw [hrights] at ih
    unfold Text.addOldLine
    simp only [hrights]
    apply more _ ih
    by_cases hold : old = new
    · subst hold
      rw [if_pos rfl]
      refine ⟨hdiagonal.edits.keep old, fun hsame => ?_⟩
      rw [hdiagonal.keeps (List.cons.inj hsame).2, List.map_cons]
    · rw [if_neg hold]
      refine ⟨?_, fun hsame => absurd (List.cons.inj hsame).1 hold⟩
      split
      · exact h.edits.delete old
      · exact hright.edits.insert new

end Table

theorem suits_bestScript (olds news : List (List Char)) : Suits (bestScript olds news) olds news := by
  have htable : Table olds news
      (olds.foldr (fun line scripts => addOldLine line news scripts) (scriptsFromNothing news)) := by
    induction olds with
    | nil => exact .scriptsFromNothing news
    | cons old olds ih => exact ih.addOldLine old
  obtain ⟨best, shorter, hscripts, hbest⟩ := htable.exists_cons
  rw [bestScript, hscripts]
  exact hbest

theorem deletionsFirst_keep (lines : List (List Char)) :
    deletionsFirst [] (lines.map .keep) = lines.map .keep := by
  induction lines with
  | nil => rfl
  | cons line lines ih => rw [List.map_cons, deletionsFirst, ih, List.map_nil, List.nil_append]

/-- Equal lines are all kept. -/
theorem isKeep_of_mem_script {text : String} {change : Change} (h : change ∈ script text text) :
    change.isKeep = true := by
  rw [script, (suits_bestScript _ _).keeps rfl, deletionsFirst_keep, List.mem_map] at h
  obtain ⟨line, -, rfl⟩ := h
  rfl

/-! ### The lines that are shown -/

/-- A line that is not shown is kept. -/
def Covers (script : List Change) (flags : List Bool) : Prop :=
  List.Forall₂ (fun change isShown => isShown = false → change.isKeep = true) script flags

theorem covers_shownBehind (left : Nat) (script : List Change) : Covers script (shownBehind left script) := by
  induction script generalizing left with
  | nil => exact .nil
  | cons change script ih =>
    rw [shownBehind]
    cases hkeep : change.isKeep
    · exact .cons (fun h => by cases h) (ih contextSize)
    · exact .cons (fun _ => hkeep) (ih (left - 1))

/-- Showing more lines covers a script too. -/
theorem Covers.or {script : List Change} {flags more : List Bool} (h : Covers script flags)
    (hmore : more.length = script.length) : Covers script (List.zipWith (· || ·) flags more) := by
  induction h generalizing more with
  | nil => exact .nil
  | cons hkeep h ih =>
    cases more with
    | nil => cases hmore
    | cons isShown more =>
      refine .cons (fun hneither => hkeep ?_) (ih (Nat.succ.inj hmore))
      exact (Bool.or_eq_false_iff.1 hneither).1

theorem covers_shown (script : List Change) : Covers script (shown script) := by
  apply (covers_shownBehind 0 script).or
  rw [List.length_reverse, ← (covers_shownBehind 0 script.reverse).length_eq, List.length_reverse]

/-! ### Gathered lines -/

/-- The number of lines of a text in front of the next line of a script. -/
theorem next_eq (start : Nat) (change : Change) (isIn : Change → Bool) :
    (if isIn change then start + 1 else start) = start + [change].countP isIn := by
  cases h : isIn change <;> simp [h]

/-- Gathered lines are hunks of a script: those behind an open stretch, and the stretch with them. -/
theorem groups_stretchesFrom {script : List Change} {flags : List Bool} (h : Covers script flags) :
    (∀ oldStart newStart, Groups renderHeader oldStart newStart script
      ((stretchesFrom oldStart newStart none (script.zip flags)).map Stretch.hunk)) ∧
    ∀ s : Stretch, Groups renderHeader s.oldStart s.newStart (s.changes ++ script)
      ((stretchesFrom (s.oldStart + s.changes.countP Change.inOld) (s.newStart + s.changes.countP Change.inNew)
        (some s) (script.zip flags)).map Stretch.hunk) := by
  induction h with
  | nil => exact ⟨fun i j => .done i j [], fun s => .hunk [] s.changes (.done _ _ [])⟩
  | @cons change isShown script flags hkeep h ih =>
    obtain ⟨hnone, hsome⟩ := ih
    cases isShown with
    | true =>
      refine ⟨fun oldStart newStart => ?_, fun s => ?_⟩
      · rw [List.zip_cons_cons, stretchesFrom, next_eq, next_eq, if_pos rfl]
        exact hsome ⟨oldStart, newStart, [change]⟩
      · rw [List.zip_cons_cons, stretchesFrom, next_eq, next_eq, if_pos rfl, Nat.add_assoc, Nat.add_assoc,
          ← List.countP_append, ← List.countP_append, List.append_cons]
        exact hsome { s with changes := s.changes ++ [change] }
    | false =>
      -- The line is kept, so that it may stand in front of what is behind it.
      obtain ⟨line, rfl⟩ : ∃ line, change = .keep line := by
        cases change with
        | keep line => exact ⟨line, rfl⟩
        | delete line => cases hkeep rfl
        | insert line => cases hkeep rfl
      refine ⟨fun oldStart newStart => (hnone _ _).keep line, fun s => ?_⟩
      rw [List.zip_cons_cons, stretchesFrom, if_neg Bool.false_ne_true, Option.toList_some,
        List.singleton_append, List.map_cons]
      exact .hunk [] s.changes ((hnone _ _).keep line)

/-! ### Headers -/

/-- The characters of a range. -/
def IsRangeChar (c : Char) : Prop := c = ',' ∨ c.isDigit = true

theorem isDigit_of_mem_toString {n : Nat} {c : Char} (h : c ∈ (toString n).toList) : c.isDigit = true := by
  rw [Nat.toString_eq_repr, Nat.toList_repr] at h
  exact Nat.isDigit_of_mem_toDigits (by decide) (by decide) h

theorem isRangeChar_of_mem {start count : Nat} {c : Char} (h : c ∈ (renderRange start count).toList) :
    IsRangeChar c := by
  rw [renderRange] at h
  split at h
  · exact .inr (isDigit_of_mem_toString h)
  · simp only [String.toList_append, List.mem_append] at h
    rcases h with (h | h) | h
    · exact .inr (isDigit_of_mem_toString h)
    · exact .inl (List.mem_singleton.1 h)
    · exact .inr (isDigit_of_mem_toString h)

theorem not_isRangeChar_blank : ¬ IsRangeChar ' ' := by
  rintro (h | h) <;> cases h

theorem isBreak_of_isRangeChar {c : Char} (h : IsRangeChar c) : isBreak c = false := by
  rcases h with rfl | h
  · rfl
  · by_contra hbreak
    simp only [isBreak, Bool.not_eq_false, Bool.or_eq_true, beq_iff_eq] at hbreak
    rcases hbreak with rfl | rfl <;> cases h

theorem toString_nat_inj {n n' : Nat} (h : toString n = toString n') : n = n' := by
  rw [Nat.toString_eq_repr, Nat.toString_eq_repr] at h
  have hdigits := congrArg (fun s => Nat.ofDigitChars 10 s.toList 0) h
  simpa only [Nat.toList_repr, Nat.ofDigitChars_ten_toDigits] using hdigits

theorem append_cons_inj {a : Char} {front front' rest rest' : List Char} (hfront : a ∉ front)
    (hfront' : a ∉ front') (h : front ++ a :: rest = front' ++ a :: rest') : front = front' ∧ rest = rest' := by
  have hlength : front.length = front'.length := by
    have := congrArg (List.idxOf a) h
    rwa [List.idxOf_append_of_notMem hfront, List.idxOf_append_of_notMem hfront', List.idxOf_cons_self,
      List.idxOf_cons_self] at this
  obtain ⟨hfront, hrest⟩ := List.append_inj h hlength
  exact ⟨hfront, (List.cons.inj hrest).2⟩

/-- A number has no comma inside. -/
theorem not_mem_toString (n : Nat) : ',' ∉ (toString n).toList := fun h => by
  cases isDigit_of_mem_toString h

/-- A range of one line is a number, and any other one is two numbers with a comma between them. -/
theorem toList_renderRange {start count : Nat} (h : count ≠ 1) : (renderRange start count).toList =
    (toString (if count = 0 then start else start + 1)).toList ++ ',' :: (toString count).toList := by
  simp [renderRange, h]

theorem renderRange_inj {start start' count count' : Nat} (h : renderRange start count = renderRange start' count') :
    start = start' ∧ count = count' := by
  have hone (start : Nat) : renderRange start 1 = toString (start + 1) := rfl
  by_cases hc : count = 1 <;> by_cases hc' : count' = 1
  · subst hc hc'
    exact ⟨Nat.succ.inj (toString_nat_inj h), rfl⟩
  · subst hc
    have hmem : ',' ∈ (renderRange start' count').toList := by simp [toList_renderRange hc']
    rw [← h, hone] at hmem
    exact absurd hmem (not_mem_toString _)
  · subst hc'
    have hmem : ',' ∈ (renderRange start count).toList := by simp [toList_renderRange hc]
    rw [h, hone] at hmem
    exact absurd hmem (not_mem_toString _)
  · have hlist := congrArg String.toList h
    rw [toList_renderRange hc, toList_renderRange hc'] at hlist
    obtain ⟨hstart, hcount⟩ := append_cons_inj (not_mem_toString _) (not_mem_toString _) hlist
    obtain rfl := toString_nat_inj (String.toList_inj.1 hcount)
    refine ⟨?_, rfl⟩
    have hstart := toString_nat_inj (String.toList_inj.1 hstart)
    split at hstart
    · exact hstart
    · exact Nat.succ.inj hstart

theorem toList_renderHeader (oldStart oldCount newStart newCount : Nat) :
    (renderHeader oldStart oldCount newStart newCount).toList =
      ['@', '@', ' ', '-'] ++ ((renderRange oldStart oldCount).toList ++
        ' ' :: ('+' :: (renderRange newStart newCount).toList ++ [' ', '@', '@'])) := by
  simp [renderHeader]

theorem isHeader_renderHeader : IsHeader renderHeader where
  marked oldStart oldCount newStart newCount := by
    rw [toList_renderHeader]
    rfl
  unbroken oldStart oldCount newStart newCount c h := by
    rw [toList_renderHeader] at h
    simp only [List.mem_append, List.mem_cons, List.not_mem_nil, or_false] at h
    rcases h with (rfl | rfl | rfl | rfl) | h | rfl | (rfl | h) | rfl | rfl | rfl <;>
      first | rfl | exact isBreak_of_isRangeChar (isRangeChar_of_mem h)
  tells {oldStart oldCount newStart newCount oldStart' oldCount' newStart' newCount'} h := by
    have hlist := congrArg String.toList h
    rw [toList_renderHeader, toList_renderHeader] at hlist
    have hblank (start count : Nat) : ' ' ∉ (renderRange start count).toList := fun hmem =>
      not_isRangeChar_blank (isRangeChar_of_mem hmem)
    obtain ⟨hold, hrest⟩ := append_cons_inj (hblank _ _) (hblank _ _) (List.append_cancel_left hlist)
    have hnew := List.append_cancel_right (List.cons.inj hrest).2
    obtain ⟨hstart, hcount⟩ := renderRange_inj (String.toList_inj.1 hold)
    obtain ⟨hstart', hcount'⟩ := renderRange_inj (String.toList_inj.1 hnew)
    exact ⟨hstart, hcount, hstart', hcount'⟩

end CultureLint.Text
