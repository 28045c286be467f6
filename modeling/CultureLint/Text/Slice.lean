import CultureLint.Text.Span

/-! Cutting and splicing a text at byte offsets. An offset is good only where a character starts or
the text ends; every operation here gives `none` at any other offset. -/

namespace CultureLint.Text

/-- The number of bytes that the characters take up in UTF-8. -/
def byteLength : List Char → Nat
  | [] => 0
  | c :: cs => c.utf8Size + byteLength cs

/-- The characters before and after a byte offset. -/
def splitAt? : Nat → List Char → Option (List Char × List Char)
  | 0, cs => some ([], cs)
  | _ + 1, [] => none
  | n + 1, c :: cs =>
    if c.utf8Size ≤ n + 1 then
      (splitAt? (n + 1 - c.utf8Size) cs).map fun (before, after) => (c :: before, after)
    else none

/-- The characters before, inside and after a span. -/
def cut? (cs : List Char) (span : Span) : Option (List Char × List Char × List Char) := do
  let (before, rest) ← splitAt? span.start cs
  let (inside, after) ← splitAt? span.length rest
  return (before, inside, after)

/-- The part of the text that a span covers. -/
def slice? (text : String) (span : Span) : Option String :=
  (cut? text.toList span).map fun (_, inside, _) => String.ofList inside

/-- The text with a span replaced. -/
def replace? (text : String) (span : Span) (replacement : String) : Option String :=
  (cut? text.toList span).map fun (before, _, after) =>
    String.ofList (before ++ replacement.toList ++ after)

/-- The text with something put in at an offset. -/
def insert? (text : String) (offset : Nat) (inserted : String) : Option String :=
  replace? text (Span.empty offset) inserted

@[simp] theorem byteLength_append (a b : List Char) :
    byteLength (a ++ b) = byteLength a + byteLength b := by
  induction a with
  | nil => simp [byteLength]
  | cons c cs ih => simp [byteLength, ih]; omega

/-- A split takes the text apart exactly at the offset. -/
theorem splitAt?_eq_some {n : Nat} {cs before after : List Char}
    (h : splitAt? n cs = some (before, after)) : cs = before ++ after ∧ byteLength before = n := by
  induction cs generalizing n before with
  | nil =>
    cases n with
    | zero => simp_all [splitAt?, byteLength]
    | succ n => simp [splitAt?] at h
  | cons c cs ih =>
    cases n with
    | zero => simp_all [splitAt?, byteLength]
    | succ n =>
      simp only [splitAt?] at h
      split at h
      · obtain ⟨⟨b, a⟩, hs, he⟩ := Option.map_eq_some_iff.1 h
        simp only [Prod.mk.injEq] at he
        obtain ⟨rfl, rfl⟩ := he
        obtain ⟨rfl, hb⟩ := ih hs
        refine ⟨rfl, ?_⟩
        simp only [byteLength]; omega
      · simp at h

/-- Every way of taking a text apart is found by splitting at the length of its first part. -/
@[simp] theorem splitAt?_append (before after : List Char) :
    splitAt? (byteLength before) (before ++ after) = some (before, after) := by
  induction before with
  | nil => cases after <;> rfl
  | cons c cs ih =>
    have hc := c.utf8Size_pos
    obtain ⟨n, hn⟩ : ∃ n, byteLength (c :: cs) = n + 1 := ⟨byteLength (c :: cs) - 1, by
      simp only [byteLength]; omega⟩
    have hsub : n + 1 - c.utf8Size = byteLength cs := by simp only [byteLength] at hn; omega
    have hle : c.utf8Size ≤ n + 1 := by simp only [byteLength] at hn; omega
    rw [hn, List.cons_append, splitAt?, if_pos hle, hsub, ih]
    rfl

end CultureLint.Text
