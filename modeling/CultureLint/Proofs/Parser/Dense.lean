import CultureLint.Proofs.Parser.MovingRules
import CultureLint.Proofs.Token.Tiling
import Mathlib.Algebra.GroupWithZero.Nat

/-! Texts with the same tokens. Whatever stands between the tokens, they can be moved so close together that
nothing is left between them, and then they are the same for both texts. So the texts are read alike: both
are refused, or both give the same tree once each offset is counted in tokens. -/

namespace CultureLint

/-! ### Counting in tokens -/

/-- How many of the tokens end at an offset or before it. Where a token starts this is its own number, and
where it ends the next one. -/
def tokenNumber (w : List Token) : Shift where
  toFun offset := w.countP fun t => t.span.stop ≤ offset
  monotone' a b hab := List.countP_mono_left fun t _ ht => by simp_all; omega

/-- How many bytes there are in the tokens that end at an offset or before it. -/
def tokenBytes (w : List Token) : Shift where
  toFun offset := ((w.filter fun t => t.span.stop ≤ offset).map fun t => t.text.utf8ByteSize).sum
  monotone' a b hab := by
    induction w with
    | nil => exact Nat.le_refl _
    | cons t w ih =>
      simp only [List.filter_cons]
      split <;> split <;> simp_all <;> omega

/-- The tokens one right behind the other, from an offset on. -/
def denseFrom (offset : Nat) : List Token → List Token
  | [] => []
  | t :: w => { t with start := offset } :: denseFrom (offset + t.text.utf8ByteSize) w

/-- How many bytes there are in all of the tokens. -/
def bytesOf (w : List Token) : Nat := (w.map fun t => t.text.utf8ByteSize).sum

section

variable {w u v : List Token} {offset : Nat}

theorem denseFrom_append (offset : Nat) (u v : List Token) :
    denseFrom offset (u ++ v) = denseFrom offset u ++ denseFrom (offset + bytesOf u) v := by
  induction u generalizing offset with
  | nil => rfl
  | cons t u ih => simp [denseFrom, ih, bytesOf, Nat.add_assoc]

theorem length_denseFrom (offset : Nat) (w : List Token) : (denseFrom offset w).length = w.length := by
  induction w generalizing offset with
  | nil => rfl
  | cons t w ih => simp [denseFrom, ih]

/-- Tokens put close together lie behind the offset, and end where their bytes do. -/
theorem bounds_of_mem_denseFrom {t : Token} (h : t ∈ denseFrom offset w) :
    offset + t.text.utf8ByteSize ≤ t.span.stop ∧ t.span.stop ≤ offset + bytesOf w ∧ ∃ a ∈ w, a.text = t.text := by
  induction w generalizing offset with
  | nil => cases h
  | cons a w ih =>
    have hbytes : bytesOf (a :: w) = a.text.utf8ByteSize + bytesOf w := by simp [bytesOf]
    obtain rfl | h := List.mem_cons.1 h
    · simp only [Token.span, Span.stop_ofLength, hbytes]
      exact ⟨Nat.le_refl _, by omega, a, List.mem_cons_self, rfl⟩
    · obtain ⟨hstart, hstop, b, hb, htext⟩ := ih h
      exact ⟨by omega, by omega, b, List.mem_cons_of_mem _ hb, htext⟩

/-- An offset cuts the tokens into those that end before it and those that end behind it. -/
theorem Ordered.exists_cut (h : Ordered w) (offset : Nat) : ∃ u v, w = u ++ v ∧
    (∀ t ∈ u, t.span.stop ≤ offset) ∧ ∀ t ∈ v, offset < t.span.stop := by
  induction w with
  | nil => exact ⟨[], [], rfl, by simp, by simp⟩
  | cons t w ih =>
    by_cases ht : t.span.stop ≤ offset
    · obtain ⟨u, v, rfl, hu, hv⟩ := ih h.tail
      exact ⟨t :: u, v, rfl, by simpa [ht] using hu, hv⟩
    · refine ⟨[], t :: w, rfl, by simp, fun a ha => ?_⟩
      obtain rfl | ha := List.mem_cons.1 ha
      · omega
      · have := List.rel_of_pairwise_cons h.pairwise ha
        have := h.nonempty a (List.mem_cons_of_mem _ ha)
        omega

theorem filter_of_cut (hu : ∀ t ∈ u, t.span.stop ≤ offset) (hv : ∀ t ∈ v, offset < t.span.stop) :
    (u ++ v).filter (fun t => t.span.stop ≤ offset) = u := by
  rw [List.filter_append, List.filter_eq_self.2 (by simpa using hu), List.filter_eq_nil_iff.2,
    List.append_nil]
  intro t ht
  have := hv t ht
  simp
  omega

theorem tokenBytes_of_cut (hu : ∀ t ∈ u, t.span.stop ≤ offset) (hv : ∀ t ∈ v, offset < t.span.stop) :
    tokenBytes (u ++ v) offset = bytesOf u := by
  change List.sum (List.map _ _) = _
  rw [filter_of_cut hu hv]
  rfl

theorem tokenNumber_of_cut (hu : ∀ t ∈ u, t.span.stop ≤ offset) (hv : ∀ t ∈ v, offset < t.span.stop) :
    tokenNumber (u ++ v) offset = u.length := by
  change List.countP _ _ = _
  rw [List.countP_eq_length_filter, filter_of_cut hu hv]

/-- Moved by the bytes in front of them, tokens stand one right behind the other and keep their lengths. -/
theorem Ordered.move_tokenBytes_right (h : Ordered (u ++ v)) :
    move (tokenBytes (u ++ v)) v = denseFrom (bytesOf u) v ∧ ∀ t ∈ v, t.Rigid (tokenBytes (u ++ v)) := by
  induction v generalizing u with
  | nil => exact ⟨rfl, by simp⟩
  | cons t v ih =>
    obtain ⟨-, hv, hbefore⟩ := Ordered.append_iff.1 h
    have hstart : tokenBytes (u ++ t :: v) t.start = bytesOf u := by
      refine tokenBytes_of_cut (fun a ha => hbefore a ha t List.mem_cons_self) fun a ha => ?_
      obtain rfl | ha := List.mem_cons.1 ha
      · exact h.nonempty a (by simp)
      · have := List.rel_of_pairwise_cons hv.pairwise ha
        have := h.nonempty a (by simp [ha])
        have := h.nonempty t (by simp)
        omega
    have happend : u ++ t :: v = (u ++ [t]) ++ v := by simp
    have hbytes : bytesOf (u ++ [t]) = bytesOf u + t.text.utf8ByteSize := by simp [bytesOf]
    have hstop : tokenBytes (u ++ t :: v) t.span.stop = bytesOf u + t.text.utf8ByteSize := by
      rw [happend, ← hbytes]
      refine tokenBytes_of_cut (fun a ha => ?_) fun a ha => ?_
      · obtain ha | ha := List.mem_append.1 ha
        · have := hbefore a ha t List.mem_cons_self
          have := h.nonempty t (by simp)
          omega
        · obtain rfl := List.mem_singleton.1 ha
          exact Nat.le_refl _
      · have := List.rel_of_pairwise_cons hv.pairwise ha
        have := h.nonempty a (by simp [ha])
        omega
    obtain ⟨hmove, hrigid⟩ := ih (happend ▸ h)
    rw [← happend, hbytes] at hmove
    rw [← happend] at hrigid
    refine ⟨?_, ?_⟩
    · rw [move_cons, hmove, denseFrom]
      exact congrArg (fun start => { t with start } :: _) hstart
    · intro a ha
      obtain rfl | ha := List.mem_cons.1 ha
      · simp only [Token.Rigid, Token.span, move, Span.ofLength, Span.mk.injEq, true_and, hstart]
        exact hstop.symm
      · exact hrigid a ha

theorem Ordered.move_tokenBytes (h : Ordered w) : move (tokenBytes w) w = denseFrom 0 w :=
  (Ordered.move_tokenBytes_right (u := []) h).1

theorem Ordered.rigid (h : Ordered w) : ∀ t ∈ w, t.Rigid (tokenBytes w) :=
  (Ordered.move_tokenBytes_right (u := []) h).2

/-- Counted in tokens, an offset is the same before and after the tokens were moved. -/
theorem Ordered.tokenNumber_comp (h : Ordered w) :
    (tokenNumber (denseFrom 0 w)).comp (tokenBytes w) = tokenNumber w := by
  refine OrderHom.ext _ _ (funext fun offset => ?_)
  obtain ⟨u, v, rfl, hu, hv⟩ := h.exists_cut offset
  change tokenNumber _ (tokenBytes _ offset) = _
  rw [tokenBytes_of_cut hu hv, tokenNumber_of_cut hu hv, denseFrom_append, Nat.zero_add]
  refine (tokenNumber_of_cut (fun t ht => ?_) fun t ht => ?_).trans (length_denseFrom 0 u)
  · have := (bounds_of_mem_denseFrom ht).2.1
    omega
  · obtain ⟨hstart, -, a, ha, htext⟩ := bounds_of_mem_denseFrom ht
    have := h.nonempty a (List.mem_append_right _ ha)
    simp only [Token.span, Span.stop_ofLength, htext] at this
    omega

end

/-! ### Reading the dense tokens -/

theorem denseFrom_congr {w v : List Token} (h : Alike w v) (hindex : w.map Token.index = v.map Token.index)
    (offset : Nat) : denseFrom offset w = denseFrom offset v := by
  induction w generalizing v offset with
  | nil => rw [Alike.nil_left.1 h]
  | cons t w ih =>
    obtain ⟨t', v, rfl, ht, hw⟩ := Alike.cons_left.1 h
    simp only [List.map_cons, List.cons.injEq] at hindex
    obtain ⟨index, kind, text, start⟩ := t
    obtain ⟨index', kind', text', start'⟩ := t'
    simp only [bare, Token.mk.injEq, true_and, and_true] at ht
    obtain ⟨rfl, rfl⟩ := ht
    obtain rfl : index = index' := hindex.1
    rw [denseFrom, denseFrom, ih hw hindex.2]

namespace Parser

/-- What becomes of a result when the tokens are put close together. -/
def moveRead {α : Type} [Movable α] (f : Shift) : Except SyntaxError α → Except SyntaxError α
  | .ok a => .ok (move f a)
  | .error e => .error (e.move f)

/-- A document is read from the tokens put close together as it is read from the tokens where they are. -/
theorem runOn_denseFrom {w : List Token} (h : Ordered w) {size : Nat} (hsize : ∀ t ∈ w, t.span.stop ≤ size) :
    runOn compilationUnit (denseFrom 0 w) (bytesOf w) =
      moveRead (tokenBytes w) (runOn compilationUnit w size) := by
  have hzero : tokenBytes w 0 = 0 :=
    tokenBytes_of_cut (u := []) (by simp) fun t ht => by have := h.nonempty t ht; omega
  have htotal : tokenBytes w size = bytesOf w := by
    have := tokenBytes_of_cut (v := []) hsize (by simp)
    rwa [List.append_nil] at this
  have hcursor : (Cursor.ofTokens w size).move (tokenBytes w) = Cursor.ofTokens (denseFrom 0 w) (bytesOf w) := by
    simp only [Cursor.move, Cursor.ofTokens, h.move_tokenBytes, hzero, htotal]
  have hrun := (moves_compilationUnit (w.length + 1) hzero).run (Cursor.ofTokens w size) h.rigid
  unfold runOn
  rw [length_denseFrom, ← hcursor, hrun]
  cases compilationUnit (w.length + 1) (Cursor.ofTokens w size) with
  | ok r => rfl
  | error e => rfl

end Parser

end CultureLint
