import CultureLint.Proofs.Token.Words
import Mathlib.Data.Nat.Digits.Defs

/-! How integers are written: a mark for the base, digits that underscores may separate, and a suffix.
Every integer among the tokens of a text is written so, though not always with digits of its base. The
value is that of the digits in the base, and has no bound. -/

namespace CultureLint

namespace Token

/-- The bases in which an integer may be written. -/
inductive Radix
  | decimal
  | hexadecimal
  | binary
deriving DecidableEq, Repr

namespace Radix

def base : Radix → Nat
  | .decimal => 10
  | .hexadecimal => 16
  | .binary => 2

/-- What may stand before the digits to tell the base. -/
def marks : Radix → List (List Char)
  | .decimal => [[]]
  | .hexadecimal => [['0', 'x'], ['0', 'X']]
  | .binary => [['0', 'b'], ['0', 'B']]

/-- What may stand among the digits. Behind a mark those of hexadecimal are taken in either base. -/
def isBody : Radix → Char → Bool
  | .decimal => isDigitOrSeparator
  | .hexadecimal | .binary => isHexDigitOrSeparator

theorem base_le (radix : Radix) : radix.base ≤ 16 := by
  cases radix <;> decide

end Radix

/-- The digits of hexadecimal in their order, with letters of either case. -/
def lowerDigits : List Char :=
  ['0', '1', '2', '3', '4', '5', '6', '7', '8', '9', 'a', 'b', 'c', 'd', 'e', 'f']

def upperDigits : List Char :=
  ['0', '1', '2', '3', '4', '5', '6', '7', '8', '9', 'A', 'B', 'C', 'D', 'E', 'F']

/-- The number that a digit stands for; it is 16 where the character is none. -/
def digit (c : Char) : Nat := min (lowerDigits.idxOf c) (upperDigits.idxOf c)

theorem mem_of_digit_lt {c : Char} (h : digit c < 16) : c ∈ lowerDigits ∨ c ∈ upperDigits := by
  obtain h | h := min_lt_iff.1 h
  · exact .inl (List.idxOf_lt_length_iff.1 h)
  · exact .inr (List.idxOf_lt_length_iff.1 h)

/-- An integer as it is written. -/
structure Integer where
  radix : Radix
  mark : List Char
  body : List Char
  suffix : List Char
  mark_mem : mark ∈ radix.marks
  body_class : ∀ c ∈ body, radix.isBody c = true
  suffix_class : ∀ c ∈ suffix, isIntegerSuffix c = true

namespace Integer

variable (n : Integer)

def text : List Char := n.mark ++ n.body ++ n.suffix

/-- The digits from the first to the last, without what separates them. -/
def digits : List Nat := (n.body.filter (· != '_')).map digit

/-- There is a digit, and all of them are digits of the base. -/
def Readable : Prop := n.digits ≠ [] ∧ ∀ d ∈ n.digits, d < n.radix.base

instance : Decidable n.Readable := inferInstanceAs (Decidable (_ ∧ _))

def value : Nat := Nat.ofDigits n.radix.base n.digits.reverse

/-! ### Where the suffix begins

No letter of a suffix is a digit or in a mark, so the suffix is all that such letters are at the end. -/

theorem isIntegerSuffix_of_mem {c : Char} (h : c ∈ n.mark ++ n.body) : isIntegerSuffix c = false := by
  obtain h | h := List.mem_append.1 h
  · have marks : n.radix.marks.all (·.all fun c => !isIntegerSuffix c) = true := by
      cases n.radix <;> decide
    simpa using List.all_eq_true.1 (List.all_eq_true.1 marks _ n.mark_mem) c h
  · refine Bool.eq_false_iff.2 fun hc => ?_
    simp only [isIntegerSuffix, Bool.or_eq_true, beq_iff_eq] at hc
    have hbody := n.body_class c h
    revert hbody
    obtain ((rfl | rfl) | rfl) | rfl := hc <;> cases n.radix <;> decide

theorem any_head_reverse : (n.mark ++ n.body).reverse.head?.any isIntegerSuffix = false := by
  cases h : (n.mark ++ n.body).reverse.head? with
  | none => rfl
  | some c => exact n.isIntegerSuffix_of_mem (List.mem_reverse.1 (List.mem_of_head? h))

theorem takeWhile_reverse_text : (n.text.reverse.takeWhile isIntegerSuffix).reverse = n.suffix := by
  have hsuffix : ∀ c ∈ n.suffix.reverse, isIntegerSuffix c = true :=
    fun c hc => n.suffix_class c (List.mem_reverse.1 hc)
  rw [text, List.reverse_append, takeWhile_append hsuffix n.any_head_reverse, List.reverse_reverse]

theorem dropWhile_reverse_text :
    (n.text.reverse.dropWhile isIntegerSuffix).reverse = n.mark ++ n.body := by
  have hsuffix : ∀ c ∈ n.suffix.reverse, isIntegerSuffix c = true :=
    fun c hc => n.suffix_class c (List.mem_reverse.1 hc)
  rw [text, List.reverse_append, dropWhile_append hsuffix n.any_head_reverse, List.reverse_reverse]

end Integer

/-! ### The integers among the tokens -/

theorem radixMark?_cases {cs mark rest : List Char} (h : radixMark? cs = some (mark, rest)) :
    mark ∈ Radix.hexadecimal.marks ∨ mark ∈ Radix.binary.marks := by
  unfold radixMark? at h
  split at h
  · split at h
    · rename_i m _ hm
      obtain ⟨rfl, -⟩ := Prod.mk.inj (Option.some.inj h)
      simp only [Bool.or_eq_true, beq_iff_eq] at hm
      obtain ((rfl | rfl) | rfl) | rfl := hm <;> simp [Radix.marks]
    · cases h
  · cases h

theorem exists_integer_of_scanNumber {cs text r : List Char} (h : scanNumber cs = (.integer, text, r)) :
    ∃ n : Integer, n.text = text := by
  rw [scanNumber] at h
  split at h
  · rename_i mark rest hmark
    cases h
    obtain hmem | hmem := radixMark?_cases hmark
    · exact ⟨⟨.hexadecimal, mark, _, _, hmem, mem_takeWhile, mem_takeWhile⟩, rfl⟩
    · exact ⟨⟨.binary, mark, _, _, hmem, mem_takeWhile, mem_takeWhile⟩, rfl⟩
  · dsimp only at h
    split at h
    · cases h
      exact ⟨⟨.decimal, [], _, _, by simp [Radix.marks], mem_takeWhile, mem_takeWhile⟩, rfl⟩
    · simp at h

theorem scanNumber_of_scanToken {c : Char} {cs text r : List Char}
    (h : Lexeme.scanToken c cs = .ok (.integer, text, r)) :
    scanNumber (c :: cs) = (.integer, text, r) := by
  unfold Lexeme.scanToken at h
  split at h
  · split at h <;> simp at h
  split at h
  · split at h <;> simp at h
  split at h
  · exact Except.ok.inj h
  split at h
  · have hword : Lexeme.wordKind (c :: cs.takeWhile Lexeme.isIdentifierPart) ≠ .integer := by
      unfold Lexeme.wordKind
      split <;> simp
    exact absurd (Prod.mk.inj (Except.ok.inj h)).1 hword
  · split at h <;> simp at h

/-- Every integer of a text is written with a mark, digits and a suffix. -/
theorem StandsAlone.exists_integer {t : Token} (h : t.StandsAlone) (hkind : t.kind = .integer) :
    ∃ n : Integer, n.text = t.text.toList := by
  have hscans := standsAlone_iff.1 h
  rw [hkind] at hscans
  generalize t.text.toList = text at hscans
  cases hscans with
  | cons hs hr =>
    obtain ⟨-, -, -, -, htoken⟩ := Lexeme.scan_eq_token.1 hs
    exact exists_integer_of_scanNumber (scanNumber_of_scanToken htoken)

end Token

end CultureLint
