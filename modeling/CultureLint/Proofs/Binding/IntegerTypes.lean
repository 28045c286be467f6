import CultureLint.Binding.Literal
import CultureLint.Proofs.Token.Integers

/-! The types of integers. The value that is read off an integer is that of its digits, but for values of
more than 64 bits, of which only the greatest that fits is left; and its type is the first of those that the
suffix allows in whose range the value is. That one value is in the range of no other type than the last, so
nothing is lost by it. -/

namespace CultureLint

open Token

namespace SpecialType

/-- The least number of an integer type, and the first that is above its range. -/
def range? : SpecialType → Option (Int × Nat)
  | .sbyte => some (-0x80, 0x80)
  | .byte => some (0, 0x100)
  | .int16 => some (-0x8000, 0x8000)
  | .uint16 => some (0, 0x10000)
  | .int32 => some (-0x80000000, 0x80000000)
  | .uint32 => some (0, 0x100000000)
  | .int64 => some (-0x8000000000000000, 0x8000000000000000)
  | .uint64 => some (0, 0x10000000000000000)
  | _ => none

/-- Whether a number is in the range of an integer type. -/
def holds (T : SpecialType) (n : Int) : Bool :=
  T.range?.any fun range => range.1 ≤ n && n < range.2

/-- Among integer types the first that holds a number without a sign is found by where their ranges end. -/
theorem find?_holds_cons {T : SpecialType} {least : Int} {bound : Nat} (h : T.range? = some (least, bound))
    (hleast : least ≤ 0) (types : List SpecialType) (v : Nat) :
    (T :: types).find? (·.holds v) = if v < bound then some T else types.find? (·.holds v) := by
  have hholds : T.holds v = decide (v < bound) := by
    simp [holds, h, hleast.trans (Int.natCast_nonneg v)]
  rw [List.find?_cons, hholds]
  by_cases hv : v < bound <;> simp [hv]

end SpecialType

/-- The types that the suffix of an integer allows, from the smallest. -/
def Token.Integer.types? (n : Integer) : Option (List SpecialType) :=
  match n.suffix.map Char.toLower with
  | [] => some [.int32, .uint32, .int64, .uint64]
  | ['u'] => some [.uint32, .uint64]
  | ['l'] => some [.int64, .uint64]
  | ['u', 'l'] | ['l', 'u'] => some [.uint64]
  | _ => none

namespace LiteralKind

/-! ### The value -/

theorem digitValue?_eq {c : Char} (h : digit c < 16) : digitValue? c = some (digit c) := by
  have lower : lowerDigits.all (fun c => digitValue? c = some (digit c)) := by decide
  have upper : upperDigits.all (fun c => digitValue? c = some (digit c)) := by decide
  obtain hc | hc := mem_of_digit_lt h
  · simpa using List.all_eq_true.1 lower c hc
  · simpa using List.all_eq_true.1 upper c hc

/-- Digits behind others go on with the value that these have. -/
theorem digitsValue?_eq {base : Nat} (hbase : base ≤ 16) {cs : List Char}
    (h : ∀ c ∈ cs, digit c < base) (value : Nat) : digitsValue? base value cs =
      some (value * base ^ cs.length + Nat.ofDigits base (cs.map digit).reverse) := by
  induction cs generalizing value with
  | nil => simp [digitsValue?]
  | cons c cs ih =>
    obtain ⟨hc, hcs⟩ := List.forall_mem_cons.1 h
    rw [digitsValue?, digitValue?_eq (hc.trans_le hbase)]
    simp only [Option.bind_eq_bind, Option.bind_some, if_pos hc, ih hcs, Option.some.injEq]
    rw [List.map_cons, Nat.ofDigits_reverse_cons, List.length_map, List.length_cons]
    ring

theorem number?_eq {base : Nat} (hbase : base ≤ 16) {cs : List Char} (hne : cs ≠ [])
    (h : ∀ c ∈ cs, digit c < base) :
    number? base cs = some (Nat.ofDigits base (cs.map digit).reverse) := by
  cases cs with
  | nil => exact absurd rfl hne
  | cons c cs => simpa [number?] using digitsValue?_eq hbase h 0

/-- The mark tells the base again once the separators are out: the second digit of a decimal is no letter. -/
theorem radixAndDigits_filter (n : Integer) : radixAndDigits ((n.mark ++ n.body).filter (· != '_')) =
    (n.radix.base, n.body.filter (· != '_')) := by
  obtain ⟨radix, mark, body, suffix, hmark, hbody, -⟩ := n
  cases radix with
  | decimal =>
    obtain rfl := List.mem_singleton.1 hmark
    have digits : ∀ c ∈ body.filter (· != '_'), c.isDigit := by
      intro c hc
      obtain ⟨hc, hne⟩ := List.mem_filter.1 hc
      simpa [Radix.isBody, isDigitOrSeparator, show c ≠ '_' by simpa using hne] using hbody c hc
    rw [List.nil_append]
    generalize body.filter (· != '_') = cs at digits
    unfold radixAndDigits
    split
    · exact absurd (digits 'x' (by simp)) (by decide)
    · exact absurd (digits 'X' (by simp)) (by decide)
    · exact absurd (digits 'b' (by simp)) (by decide)
    · exact absurd (digits 'B' (by simp)) (by decide)
    · rfl
  | hexadecimal | binary =>
    simp only [Radix.marks, List.mem_cons, List.not_mem_nil, or_false] at hmark
    obtain rfl | rfl := hmark <;> rfl

/-- What is read off an integer is its value, up to the greatest number of 64 bits. -/
theorem integerValue_eq {n : Integer} (h : n.Readable) :
    integerValue (n.mark ++ n.body) = min n.value 0xFFFFFFFFFFFFFFFF := by
  have hne : n.body.filter (· != '_') ≠ [] := fun he => h.1 (by rw [Integer.digits, he, List.map_nil])
  have hdigits : ∀ c ∈ n.body.filter (· != '_'), digit c < n.radix.base :=
    fun c hc => h.2 _ (List.mem_map_of_mem hc)
  rw [integerValue, radixAndDigits_filter]
  simp only [number?_eq n.radix.base_le hne hdigits, Option.getD_some]
  rfl

/-! ### The type -/

/-- The type is the first of those that the suffix allows that holds what was read. -/
theorem find?_holds_integerValue {n : Integer} {text : String} (h : n.text = text.toList)
    {types : List SpecialType} (htypes : n.types? = some types) :
    types.find? (·.holds (integerValue (n.mark ++ n.body))) = some (integerType text) := by
  have hstem := n.dropWhile_reverse_text
  have hsuffix := n.takeWhile_reverse_text
  rw [h] at hstem hsuffix
  have hbound : integerValue (n.mark ++ n.body) < 0x10000000000000000 := by
    refine Nat.lt_of_le_of_lt (Nat.min_le_right ..) ?_
    decide
  rw [integerType, hstem, hsuffix]
  generalize integerValue (n.mark ++ n.body) = v at hbound
  have int32 types := SpecialType.find?_holds_cons (T := .int32) rfl (by decide) types v
  have uint32 types := SpecialType.find?_holds_cons (T := .uint32) rfl (by decide) types v
  have int64 types := SpecialType.find?_holds_cons (T := .int64) rfl (by decide) types v
  have uint64 types := SpecialType.find?_holds_cons (T := .uint64) rfl (by decide) types v
  unfold Integer.types? at htypes
  generalize n.suffix.map Char.toLower = letters at htypes
  -- one case for each suffix; the last of the types holds whatever was read
  split at htypes
  · obtain rfl := Option.some.inj htypes
    simp only [int32, uint32, int64, uint64, if_pos hbound]
    simp [apply_ite some]
  · obtain rfl := Option.some.inj htypes
    simp only [uint32, uint64, if_pos hbound]
    simp [apply_ite some]
  · obtain rfl := Option.some.inj htypes
    simp only [int64, uint64, if_pos hbound]
    simp [apply_ite some]
  · obtain rfl := Option.some.inj htypes
    simp only [uint64, if_pos hbound]
    simp
  · obtain rfl := Option.some.inj htypes
    simp only [uint64, if_pos hbound]
    simp
  · cases htypes

/-- Whatever the suffix, the greatest number of 64 bits needs the last type. -/
theorem find?_holds_greatest {n : Integer} {types : List SpecialType} (h : n.types? = some types) :
    types.find? (·.holds (0xFFFFFFFFFFFFFFFF : Nat)) = some .uint64 := by
  unfold Integer.types? at h
  split at h <;> cases h <;> rfl

/-- Every integer of a text is written with a mark, digits and a suffix. If there are digits and all are of its
base, and its suffix is one that there is, its type is the first of those that the suffix allows in whose
range the value is, and the last of them where the value is in the range of none. -/
theorem integerType_first_holds {text : String} {lexed : Lexed} {t : Token}
    (h : Lexed.ofText text = .ok lexed) (ht : t ∈ lexed.tokens) (hkind : t.kind = .integer) :
    (∃ n : Integer, n.text = t.text.toList) ∧
      ∀ n : Integer, n.text = t.text.toList → n.Readable → ∀ types, n.types? = some types →
        (n.value < 2 ^ 64 → types.find? (·.holds n.value) = some (integerType t.text)) ∧
        (2 ^ 64 ≤ n.value → integerType t.text = .uint64) := by
  refine ⟨(standsAlone_of_ofText h t ht).exists_integer hkind, fun n hn hread types htypes => ?_⟩
  have hfirst := find?_holds_integerValue hn htypes
  rw [integerValue_eq hread] at hfirst
  refine ⟨fun hsmall => ?_, fun hlarge => ?_⟩
  · rwa [min_eq_left (by omega)] at hfirst
  · rw [min_eq_right (by omega), find?_holds_greatest htypes] at hfirst
    exact (Option.some.inj hfirst).symm

/-- The least number that is too great for a `long`, as one. -/
def aboveLong : Integer :=
  ⟨.hexadecimal, ['0', 'X'], "8000_0000_0000_0000".toList, ['L'], by decide,
    List.all_eq_true.1 (by decide), List.all_eq_true.1 (by decide)⟩

/-- The least number that is too great for any type. -/
def aboveAll : Integer :=
  ⟨.decimal, [], "18446744073709551616".toList, [], by decide, List.all_eq_true.1 (by decide),
    List.all_eq_true.1 (by decide)⟩

/-- The tokens of the two with a blank between them. -/
def limitTokens : List Token :=
  [⟨0, .integer, "0X8000_0000_0000_0000L", 0⟩, ⟨1, .integer, "18446744073709551616", 23⟩]

theorem integerType_first_holds_limits : ∃ s t : Token,
    Lexed.ofText "0X8000_0000_0000_0000L 18446744073709551616" = .ok ⟨limitTokens, [], none⟩ ∧
    s ∈ limitTokens ∧ s.kind = .integer ∧ aboveLong.text = s.text.toList ∧ aboveLong.Readable ∧
    aboveLong.types? = some [.int64, .uint64] ∧ aboveLong.value < 2 ^ 64 ∧
    [SpecialType.int64, .uint64].find? (·.holds aboveLong.value) = some (integerType s.text) ∧
    integerType s.text = .uint64 ∧
    t ∈ limitTokens ∧ t.kind = .integer ∧ aboveAll.text = t.text.toList ∧ aboveAll.Readable ∧
    aboveAll.types? = some [.int32, .uint32, .int64, .uint64] ∧ 2 ^ 64 ≤ aboveAll.value ∧
    integerType t.text = .uint64 := by
  have h : Lexed.ofText "0X8000_0000_0000_0000L 18446744073709551616" = .ok ⟨limitTokens, [], none⟩ := by
    rfl
  have hs : ⟨0, .integer, "0X8000_0000_0000_0000L", 0⟩ ∈ limitTokens := by simp [limitTokens]
  have ht : ⟨1, .integer, "18446744073709551616", 23⟩ ∈ limitTokens := by simp [limitTokens]
  have hlong : aboveLong.text = "0X8000_0000_0000_0000L".toList := by decide
  have hall : aboveAll.text = "18446744073709551616".toList := by decide
  have hfirst := ((integerType_first_holds h hs rfl).2 aboveLong hlong (by decide) _ rfl).1 (by decide)
  have hlast := ((integerType_first_holds h ht rfl).2 aboveAll hall (by decide) _ rfl).2 (by decide)
  have hulong : [SpecialType.int64, .uint64].find? (·.holds aboveLong.value) = some .uint64 := by decide
  exact ⟨_, _, h, hs, rfl, hlong, by decide, rfl, by decide, hfirst,
    Option.some.inj (hfirst.symm.trans hulong), ht, rfl, hall, by decide, rfl, by decide, hlast⟩

end LiteralKind

end CultureLint
