import CultureLint.Proofs.Token.Lexemes

/-! Where cutting a text into lexemes ends. Every lexeme takes a character, so that the bound on their number is
never used up; and where no lexeme can be read, the error names the place behind those before. -/

namespace CultureLint

open Text (byteLength)

namespace Lexeme

/-- The scanning of a text that goes on in any way when its bound is used up. -/
def scanPast (past : Bool → Nat → List Char → Except SyntaxError (List Lexeme)) :
    Nat → Bool → Nat → List Char → Except SyntaxError (List Lexeme)
  | 0, lineStart, offset, cs => past lineStart offset cs
  | _ + 1, _, _, [] => .ok []
  | bound + 1, lineStart, offset, c :: cs =>
    match scan lineStart c cs with
    | .error cause => .error ⟨offset, cause⟩
    | .ok (lexeme, rest) => do
      let offset := offset + Text.byteLength lexeme.text
      let lexemes ← scanPast past bound (lexeme.lineStartAfter lineStart) offset rest
      return lexeme :: lexemes

/-- A lexeme is the front of the text, and takes at least one character of it. -/
theorem scan_front {lineStart : Bool} {c : Char} {cs r : List Char} {lexeme : Lexeme}
    (h : scan lineStart c cs = .ok (lexeme, r)) : c :: cs = lexeme.text ++ r ∧ r.length < (c :: cs).length := by
  obtain ⟨t, ht, rfl, -⟩ := scan_stable h
  refine ⟨by rw [ht, List.cons_append], ?_⟩
  simp only [List.length_cons, List.length_append]
  omega

/-- The bounds that allow for a lexeme at each character all give the same. -/
theorem scanPast_eq_scanUpTo {past : Bool → Nat → List Char → Except SyntaxError (List Lexeme)}
    {bound limit offset : Nat} {lineStart : Bool} {cs : List Char} (hb : cs.length < bound)
    (hl : cs.length ≤ limit) : scanPast past bound lineStart offset cs = scanUpTo limit lineStart offset cs := by
  induction bound generalizing limit offset lineStart cs with
  | zero => omega
  | succ bound ih =>
    cases cs with
    | nil => cases limit <;> rfl
    | cons c cs =>
      cases limit with
      | zero => simp at hl
      | succ limit =>
        rw [scanPast, scanUpTo]
        cases hs : scan lineStart c cs with
        | error cause => rfl
        | ok r =>
          obtain ⟨lexeme, rest⟩ := r
          have hrest : rest.length < (c :: cs).length := (scan_front hs).2
          have hrec := @ih limit (offset + byteLength lexeme.text) (lexeme.lineStartAfter lineStart) rest
            (by omega) (by omega)
          simp only [hrec]

/-- Where nothing can be read, there stands a character. -/
theorem offset_of_scanUpTo {bound offset : Nat} {lineStart : Bool} {cs : List Char} {e : SyntaxError}
    (h : scanUpTo bound lineStart offset cs = .error e) :
    ∃ front c back, cs = front ++ c :: back ∧ e.offset = offset + byteLength front := by
  induction bound generalizing offset lineStart cs with
  | zero => cases h
  | succ bound ih =>
    cases cs with
    | nil => cases h
    | cons c cs =>
      rw [scanUpTo] at h
      split at h
      · cases h
        exact ⟨[], c, cs, rfl, rfl⟩
      · rename_i lexeme rest hs
        cases hr : scanUpTo bound (lexeme.lineStartAfter lineStart) (offset + byteLength lexeme.text) rest with
        | ok lexemes => simp [hr, bind, Except.bind, pure, Except.pure] at h
        | error e' =>
          obtain rfl : e' = e := by simpa [hr, bind, Except.bind] using h
          obtain ⟨front, d, back, rfl, he⟩ := ih hr
          exact ⟨lexeme.text ++ front, d, back, by rw [(scan_front hs).1, List.append_assoc], by
            rw [he, Text.byteLength_append, Nat.add_assoc]⟩

end Lexeme

end CultureLint
