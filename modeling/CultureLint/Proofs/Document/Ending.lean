import CultureLint.Proofs.Document.Reread
import CultureLint.Proofs.Parser.Depth
import CultureLint.Proofs.Parser.Loops
import CultureLint.Proofs.Parser.MovingRules
import CultureLint.Proofs.Token.Ending
import Mathlib.Data.Nat.Find

/-! The end of the reading of a document. It always ends: the lexer by the characters left, the parser by the
tokens left. If it ends well, no token is left; if not, the error names a place of the text. -/

namespace CultureLint

open CultureLint.Parser

open Text (byteLength)

/-! ### Places of errors -/

/-- Each offset is moved back to the last mark that is not behind it, or to zero. -/
def lastMark (P : Nat → Prop) [DecidablePred P] : Shift :=
  ⟨Nat.findGreatest P, fun _ _ h => Nat.findGreatest_mono_right P h⟩

section

variable {P : Nat → Prop} [DecidablePred P]

variable (P) in
theorem lastMark_zero : lastMark P 0 = 0 := Nat.findGreatest_zero (P := P)

theorem lastMark_of_mark {x : Nat} (h : P x) : lastMark P x = x := Nat.findGreatest_eq h

theorem mark_of_lastMark {x : Nat} (h : lastMark P x = x) : x = 0 ∨ P x := by
  by_cases hx : x = 0
  · exact .inl hx
  · exact .inr (Nat.findGreatest_of_ne_zero h hx)

end

/-- A cursor all of whose offsets are marks. -/
structure Cursor.Marked (P : Nat → Prop) (s : Cursor) : Prop where
  rest : ∀ t ∈ s.rest, P t.start ∧ P t.span.stop
  previousEnd : P s.previousEnd
  size : P s.size

namespace Cursor.Marked

variable {P : Nat → Prop} [DecidablePred P] {s : Cursor}

theorem move (h : s.Marked P) : s.move (lastMark P) = s := by
  have hrest : Movable.move (lastMark P) s.rest = s.rest := by
    refine (List.map_congr_left fun t ht => ?_).trans (List.map_id s.rest)
    change { t with start := lastMark P t.start } = t
    rw [lastMark_of_mark (h.rest t ht).1]
  rw [Cursor.move, hrest, lastMark_of_mark h.previousEnd, lastMark_of_mark h.size]

theorem rigid (h : s.Marked P) : s.Rigid (lastMark P) := by
  intro t ht
  obtain ⟨hstart, hstop⟩ := h.rest t ht
  have hsame : Movable.move (lastMark P) t = t := by
    change { t with start := lastMark P t.start } = t
    rw [lastMark_of_mark hstart]
  rw [Token.Rigid, hsame]
  exact (Span.mk.injEq ..).mpr ⟨(lastMark_of_mark hstart).symm, (lastMark_of_mark hstop).symm⟩

end Cursor.Marked

/-- A parser that does not care where its tokens stand can only complain at a place that it has been given. -/
theorem Parser.mark_of_error {α : Type} [Movable α] {p : Parser α} (hp : ∀ f : Shift, f 0 = 0 → Moves f p p)
    {P : Nat → Prop} {s : Cursor} (hs : s.Marked P) {e : SyntaxError} (he : p s = .error e) :
    e.offset = 0 ∨ P e.offset := by
  classical
  have hrun := (hp (lastMark P) (lastMark_zero P)).run s hs.rigid
  rw [hs.move, he] at hrun
  exact mark_of_lastMark (congrArg SyntaxError.offset (Except.error.inj hrun)).symm

/-! ### Places of a text -/

namespace Text

/-- A character begins at the offset, or the text ends there. -/
def IsPlace (cs : List Char) (offset : Nat) : Prop := (splitAt? offset cs).isSome = true

theorem isPlace_iff {cs : List Char} {offset : Nat} :
    IsPlace cs offset ↔ ∃ before after, cs = before ++ after ∧ byteLength before = offset := by
  rw [IsPlace, Option.isSome_iff_exists]
  constructor
  · rintro ⟨⟨before, after⟩, h⟩
    exact ⟨before, after, splitAt?_eq_some h⟩
  · rintro ⟨before, after, rfl, rfl⟩
    exact ⟨(before, after), splitAt?_append before after⟩

theorem IsPlace.le {text : String} {offset : Nat} (h : IsPlace text.toList offset) : offset ≤ text.utf8ByteSize := by
  obtain ⟨before, after, htext, rfl⟩ := isPlace_iff.1 h
  rw [utf8ByteSize_eq, htext, byteLength_append]
  exact Nat.le_add_right ..

end Text

namespace Lexed

variable {text : String}

/-- The tokens of a text begin and end at places of it. -/
theorem marked_of_ofText {lexed : Lexed} (h : ofText text = .ok lexed) :
    (Cursor.ofTokens lexed.tokens text.utf8ByteSize).Marked (Text.IsPlace text.toList) := by
  obtain ⟨lexemes, hs, rfl⟩ := ofText_eq_ok.1 h
  refine ⟨fun t ht => ?_, Text.isPlace_iff.2 ⟨[], text.toList, rfl, rfl⟩,
    Text.isPlace_iff.2 ⟨text.toList, [], (List.append_nil _).symm, (utf8ByteSize_eq text).symm⟩⟩
  obtain ⟨u, r, hu⟩ := List.append_of_mem ht
  obtain ⟨first, kind, word, second, rfl, -, rfl, -⟩ := tokensFrom_split hu
  have htext : text.toList = written first ++ (word ++ written second) := by
    rw [hs.eq_written, written_append, written_cons]
  refine ⟨Text.isPlace_iff.2 ⟨written first, word ++ written second, htext, by simp⟩,
    Text.isPlace_iff.2 ⟨written first ++ word, written second, by rw [htext, List.append_assoc], ?_⟩⟩
  simp [Token.span, Span.ofLength, utf8ByteSize_ofList]

theorem isPlace_of_error {e : SyntaxError} (h : ofText text = .error e) : Text.IsPlace text.toList e.offset := by
  unfold ofText at h
  cases hl : Lexeme.ofText text.toList with
  | ok lexemes => simp [hl, Functor.map, Except.map] at h
  | error e' =>
    obtain rfl : e' = e := by simpa [hl, Functor.map, Except.map] using h
    obtain ⟨before, c, after, htext, he⟩ := Lexeme.offset_of_scanUpTo hl
    exact Text.isPlace_iff.2 ⟨before, c :: after, htext, by omega⟩

end Lexed

namespace Parser

/-- A parser that does not care where its tokens stand complains at a place of the text. -/
theorem isPlace_of_parse_error {α : Type} [Movable α] {p : Parser α} (hp : ∀ f : Shift, f 0 = 0 → Moves f p p)
    {text : String} {lexed : Lexed} (hl : Lexed.ofText text = .ok lexed) {e : SyntaxError}
    (he : p (.ofTokens lexed.tokens text.utf8ByteSize) = .error e) : Text.IsPlace text.toList e.offset := by
  obtain hzero | hplace := mark_of_error hp (Lexed.marked_of_ofText hl) he
  · exact Text.isPlace_iff.2 ⟨[], text.toList, rfl, hzero.symm⟩
  · exact hplace

theorem forward_compilationUnit (depth : Nat) : Forward (compilationUnit depth) :=
  Steady.usings.forward.bind fun _ =>
    (Grammar.forward_namespaceMembers (Grammar.goesForward_layered depth) depth).bind fun _ =>
      (Takes.ask _).bind fun _ => .ite ((Takes.ask _).bind fun _ => .pure _) (.fail _)

/-- Whoever reads a document has taken all of its tokens. -/
theorem took_of_compilationUnit {depth : Nat} {s s' : Cursor} {unit : CompilationUnit}
    (h : compilationUnit depth s = .ok (unit, s')) : Took s s.rest s' := by
  obtain ⟨w, hw, -⟩ := forward_compilationUnit depth s unit s' h
  have hall : s.rest = w := by simpa [rest_compilationUnit h] using hw.rest
  rwa [hall]

end Parser

namespace SourceTree

/-- What is read from the tokens of a text is the document. -/
theorem ofText_of_lexed {text : String} {lexed : Lexed} (h : Lexed.ofText text = .ok lexed) :
    ofText text = (compilationUnit (lexed.tokens.length + 1) (.ofTokens lexed.tokens text.utf8ByteSize)).map
      fun r => ⟨r.1, lexed.directives, lexed.header⟩ := by
  unfold ofText Parser.runOn
  rw [h]
  cases hu : compilationUnit (lexed.tokens.length + 1) (.ofTokens lexed.tokens text.utf8ByteSize) <;>
    simp [Except.map, bind, Except.bind, hu, Functor.map, pure, Except.pure]

/-- A document that is read has all of its tokens taken. -/
theorem took_of_ofText {text : String} {tree : SourceTree} (h : ofText text = .ok tree) :
    ∃ lexed s, Lexed.ofText text = .ok lexed ∧
      compilationUnit (lexed.tokens.length + 1) (.ofTokens lexed.tokens text.utf8ByteSize) = .ok (tree.unit, s) ∧
      Took (.ofTokens lexed.tokens text.utf8ByteSize) lexed.tokens s ∧ s.rest = [] := by
  obtain ⟨lexed, hl, hu, -⟩ := ofText_eq_ok.1 h
  obtain ⟨s, hs⟩ := runOn_eq_ok.1 hu
  exact ⟨lexed, s, hl, hs, took_of_compilationUnit hs, rest_compilationUnit hs⟩

/-- An error names a place of the text. -/
theorem isPlace_of_error {text : String} {e : SyntaxError} (h : ofText text = .error e) :
    Text.IsPlace text.toList e.offset := by
  cases hl : Lexed.ofText text with
  | error e' =>
    obtain rfl : e' = e := by simpa [ofText, hl, bind, Except.bind] using h
    exact Lexed.isPlace_of_error hl
  | ok lexed =>
    rw [ofText_of_lexed hl] at h
    cases hu : compilationUnit (lexed.tokens.length + 1) (.ofTokens lexed.tokens text.utf8ByteSize) with
    | ok r => simp [hu, Except.map] at h
    | error e' =>
      obtain rfl : e' = e := by simpa [hu, Except.map] using h
      exact isPlace_of_parse_error (fun f hf => moves_compilationUnit _ hf) hl hu

/-- The reading of a text always ends. The lexer does not come to the end of a bound above the number of
characters; the parser does not come to the bottom of its layers, whatever stands there, if these are more than
the tokens, and every loop ends by itself; where it speculates, it does not go back behind the place where it
began to. A document that is read has all of its tokens taken, and an error names a place of the text. -/
theorem ofText_ends (text : String) :
    (∀ past bound, text.toList.length < bound →
      Lexeme.scanPast past bound true 0 text.toList = Lexeme.ofText text.toList) ∧
    (∀ lexed, Lexed.ofText text = .ok lexed → ∀ lowest innermost depth, lexed.tokens.length < depth →
      ofText text = (compilationUnitOver lowest innermost depth (.ofTokens lexed.tokens text.utf8ByteSize)).map
        fun r => ⟨r.1, lexed.directives, lexed.header⟩) ∧
    (∀ depth, (Grammar.layered depth).LoopsEnd) ∧
    (Forward Grammar.castType? ∧ Forward Grammar.localType?) ∧
    (∀ tree, ofText text = .ok tree → ∃ lexed s, Lexed.ofText text = .ok lexed ∧
      compilationUnit (lexed.tokens.length + 1) (.ofTokens lexed.tokens text.utf8ByteSize) = .ok (tree.unit, s) ∧
      Took (.ofTokens lexed.tokens text.utf8ByteSize) lexed.tokens s ∧ s.rest = []) ∧
    ∀ e, Lexed.ofText text = .error e ∨ ofText text = .error e →
      e.offset ≤ text.utf8ByteSize ∧ Text.IsPlace text.toList e.offset := by
  refine ⟨fun past bound hb => Lexeme.scanPast_eq_scanUpTo hb (Nat.le_refl _),
    fun lexed hl lowest innermost depth hd => ?_, fun depth => (Grammar.goesForward_layered depth).loopsEnd,
    ⟨Grammar.forward_castType?, Grammar.forward_localType?⟩, fun tree => took_of_ofText, fun e he => ?_⟩
  · rw [ofText_of_lexed hl, compilationUnitOver_eq lowest innermost hd]
    rfl
  · have hplace := he.elim Lexed.isPlace_of_error isPlace_of_error
    exact ⟨hplace.le, hplace⟩

/-- A type that is cut off, with a name in which a character takes two bytes. -/
def cutText : String := "class é\x7bint F(é"

theorem ofText_ends_cut : ∃ e, ofText cutText = .error e ∧ e.offset = 17 ∧ e.offset ≤ cutText.utf8ByteSize ∧
    Text.IsPlace cutText.toList e.offset := by
  have exists_error (r : Except SyntaxError SourceTree)
      (h : (match r with | .error e => e.offset == 17 | .ok _ => false) = true) :
      ∃ e, r = .error e ∧ e.offset = 17 := by
    cases r with
    | error e => exact ⟨e, rfl, beq_iff_eq.1 h⟩
    | ok tree => cases h
  obtain ⟨e, he, hoffset⟩ := exists_error (ofText cutText) (by decide +kernel)
  exact ⟨e, he, hoffset, (ofText_ends cutText).2.2.2.2.2 e (.inr he)⟩

end SourceTree

end CultureLint
