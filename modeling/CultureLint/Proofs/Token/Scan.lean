import CultureLint.Token.Lexer

/-! How far a scanner looks. What it takes off the front of a text depends on what it leaves only by the
first few characters; `Calm` says that other characters there make no difference. -/

namespace CultureLint

open Token

/-- The characters that may be put behind a token without any of them becoming part of it. -/
def stops : List Char := ['(', ')', '.', ' ']

/-- A scanner that stops before `r` does not go on into `r'` either. -/
structure Calm (r r' : List Char) : Prop where
  head : ∀ c, r'.head? = some c → c ∈ stops ∨ r.head? = some c
  fraction : (scanFraction r).1 = [] → (scanFraction r').1 = []
  exponent : (scanExponent r).1 = [] → (scanExponent r').1 = []
  signed : startsDigit (scanSign r').2 = true → startsDigit (scanSign r).2 = true
  quoted : openString? ('@' :: r) = none → openString? ('@' :: r') = none

namespace Calm

variable {r r' : List Char}

theorem refl (r : List Char) : Calm r r := ⟨fun _ h => .inr h, id, id, id, id⟩

/-- A class of characters without the stops is left before `r'` too. -/
theorem not_class (h : Calm r r') {p : Char → Bool} (hp : stops.any p = false)
    (hr : r.head?.any p = false) : r'.head?.any p = false := by
  cases hc : r'.head? with
  | none => rfl
  | some c =>
    obtain hs | hs := h.head c hc
    · simpa using List.any_eq_false.1 hp c hs
    · rwa [hs] at hr

theorem head_of_not_stop (h : Calm r r') {c : Char} (hc : c ∉ stops) (hr : r'.head? = some c) :
    r.head? = some c := (h.head c hr).resolve_left hc

theorem startsDigit_eq (r : List Char) : startsDigit r = r.head?.any Char.isDigit := by
  cases r <;> rfl

theorem startsDigit_of (h : Calm r r') (hr : startsDigit r' = true) : startsDigit r = true := by
  cases hn : startsDigit r with
  | true => rfl
  | false =>
    rw [startsDigit_eq] at hn hr
    exact absurd (h.not_class (by decide) hn) (by simp [hr])

/-- A scanner that stops even before what comes next is not concerned with what is behind that. -/
theorem cons (h : Calm r r') (c : Char) : Calm (c :: r) (c :: r') where
  head _ hc := .inr hc
  fraction hr := by
    by_cases hc : c = '.'
    · subst hc
      simp only [scanFraction] at hr ⊢
      split at hr
      · simp at hr
      · rw [if_neg fun hd => ‹¬ _› (h.startsDigit_of hd)]
    · simp [scanFraction, hc]
  exponent hr := by
    simp only [scanExponent] at hr ⊢
    split at hr
    · simp at hr
    · rename_i hn
      rw [if_neg]
      simp only [Bool.and_eq_true, not_and] at hn ⊢
      exact fun he hd => hn he (h.signed hd)
  signed hr := by
    by_cases hp : c = '+'
    · subst hp
      exact h.startsDigit_of hr
    by_cases hm : c = '-'
    · subst hm
      exact h.startsDigit_of hr
    · have hs (s : List Char) : startsDigit (scanSign (c :: s)).2 = c.isDigit := by
        simp [scanSign, hp, hm, startsDigit]
      rwa [hs] at hr ⊢
  quoted hr := by
    by_cases hq : c = '\x22'
    · subst hq
      simp [openString?] at hr
    by_cases hd : c = '$'
    · subst hd
      have hn : r.head? ≠ some '\x22' := by
        intro hq
        obtain ⟨s, rfl⟩ := List.head?_eq_some_iff.1 hq
        simp [openString?] at hr
      have hn' : r'.head? ≠ some '\x22' := fun hq => hn (h.head_of_not_stop (by decide) hq)
      cases r' with
      | nil => rfl
      | cons x s =>
        have hx : x ≠ '\x22' := fun hx => hn' (congrArg some hx)
        simp [openString?, hx]
    · simp [openString?, hq, hd]

theorem append (h : Calm r r') (w : List Char) : Calm (w ++ r) (w ++ r') := by
  induction w with
  | nil => exact h
  | cons c w ih => exact ih.cons c

/-- A character that no scanner looks past cuts off what is behind it. -/
theorem of_cons {c : Char} (hc : c ∉ ['.', '+', '-', 'e', 'E', '$', '\x22']) (r r' : List Char) :
    Calm (c :: r) (c :: r') := by
  simp only [List.mem_cons, not_or] at hc
  obtain ⟨hp, hplus, hminus, he, hE, hd, hq, -⟩ := hc
  have hs (s : List Char) : startsDigit (scanSign (c :: s)).2 = c.isDigit := by
    simp [scanSign, hplus, hminus, startsDigit]
  refine ⟨fun _ h => .inr h, fun _ => ?_, fun _ => ?_, fun h => by rwa [hs] at h ⊢, fun _ => ?_⟩
  · simp [scanFraction, hp]
  · simp [scanExponent, he, hE]
  · simp [openString?, hd, hq]

/-- Behind a token a parenthesis or a space may follow. -/
theorem of_stop {c : Char} (hc : c ∈ ['(', ')', ' ']) (r s : List Char) : Calm r (c :: s) := by
  simp only [List.mem_cons, List.not_mem_nil, or_false] at hc
  obtain rfl | rfl | rfl := hc <;>
    exact ⟨by simp [stops], fun _ => rfl, fun _ => rfl, fun h => absurd h (by simp [scanSign, startsDigit]),
      fun _ => by simp [openString?]⟩

/-- Behind a token the text may end. -/
theorem nil (r : List Char) : Calm r [] :=
  ⟨by simp, fun _ => rfl, fun _ => rfl, fun h => absurd h (by decide), fun _ => rfl⟩

/-- Behind a token a point may follow, if no digit is behind that. -/
theorem of_point (r : List Char) {s : List Char} (hs : startsDigit s = false) : Calm r ('.' :: s) :=
  ⟨by simp [stops], fun _ => by simp [scanFraction, hs], fun _ => rfl,
    fun h => absurd h (by simp [scanSign, startsDigit]), fun _ => by simp [openString?]⟩

end Calm

/-! ### Classes of characters -/

theorem takeWhile_append {p : Char → Bool} {w r : List Char} (hw : ∀ c ∈ w, p c = true)
    (hr : r.head?.any p = false) : (w ++ r).takeWhile p = w := by
  rw [List.takeWhile_append_of_pos hw]
  cases r with
  | nil => simp
  | cons c r => simp [List.takeWhile_cons_of_neg (show ¬ p c = true by simpa using hr)]

theorem dropWhile_append {p : Char → Bool} {w r : List Char} (hw : ∀ c ∈ w, p c = true)
    (hr : r.head?.any p = false) : (w ++ r).dropWhile p = r := by
  rw [List.dropWhile_append_of_pos hw]
  cases r with
  | nil => rfl
  | cons c r => rw [List.dropWhile_cons_of_neg (show ¬ p c = true by simpa using hr)]

theorem any_head_dropWhile (p : Char → Bool) (cs : List Char) :
    (cs.dropWhile p).head?.any p = false := by
  induction cs with
  | nil => rfl
  | cons c cs ih =>
    rw [List.dropWhile_cons]
    split
    · exact ih
    · exact Bool.eq_false_iff.2 ‹_›

theorem mem_takeWhile {p : Char → Bool} {cs : List Char} : ∀ c ∈ cs.takeWhile p, p c = true := by
  intro c hc
  exact List.all_eq_true.1 List.all_takeWhile c hc

/-- A scanner that takes the same off the front before anything that is calm. -/
def Stable (f : List Char → List Char × List Char) : Prop :=
  ∀ cs w r, f cs = (w, r) → cs = w ++ r ∧ ∀ r', Calm r r' → f (w ++ r') = (w, r')

theorem stable_splitWhile {p : Char → Bool} (hp : stops.any p = false) : Stable (splitWhile p) := by
  intro cs w r h
  obtain ⟨rfl, rfl⟩ := Prod.mk.inj h
  refine ⟨List.takeWhile_append_dropWhile.symm, fun r' hc => ?_⟩
  have hr' := hc.not_class hp (any_head_dropWhile p cs)
  exact Prod.ext (takeWhile_append mem_takeWhile hr') (dropWhile_append mem_takeWhile hr')

/-! ### Numbers -/

theorem scanFraction_of_nil {cs : List Char} (h : (scanFraction cs).1 = []) :
    scanFraction cs = ([], cs) := by
  unfold scanFraction at h ⊢
  split
  · split
    · simp_all
    · rfl
  · rfl

theorem startsDigit_takeWhile {p : Char → Bool} (hp : ∀ c : Char, c.isDigit = true → p c = true)
    {cs : List Char} (h : startsDigit cs = true) (r : List Char) :
    startsDigit (cs.takeWhile p ++ r) = true := by
  cases cs with
  | nil => simp [startsDigit] at h
  | cons c cs =>
    rw [List.takeWhile_cons_of_pos (hp c h)]
    exact h

theorem stable_scanFraction : Stable scanFraction := by
  intro cs w r h
  by_cases hw : w = []
  · subst hw
    have hcs : scanFraction cs = ([], cs) := scanFraction_of_nil (by rw [h])
    obtain rfl : r = cs := (Prod.mk.inj (h.symm.trans hcs)).2
    exact ⟨rfl, fun r' hc => scanFraction_of_nil (hc.fraction (by rw [h]))⟩
  · obtain ⟨s, rfl, hs⟩ : ∃ s, cs = '.' :: s ∧ startsDigit s = true := by
      unfold scanFraction at h
      split at h
      · split at h
        · exact ⟨_, rfl, ‹_›⟩
        · simp_all
      · simp_all
    rw [scanFraction, if_pos hs] at h
    obtain ⟨rfl, rfl⟩ := Prod.mk.inj h
    refine ⟨by simp, fun r' hc => ?_⟩
    obtain ⟨-, hst⟩ := stable_splitWhile (p := isDigitOrSeparator) (by decide) s _ _ rfl
    obtain ⟨htake, hdrop⟩ := Prod.mk.inj (hst r' hc)
    have hd := startsDigit_takeWhile (p := isDigitOrSeparator) (fun c h => by simp [isDigitOrSeparator, h])
      hs r'
    rw [List.cons_append, scanFraction, if_pos hd, htake, hdrop]

theorem scanSign_append (cs : List Char) : (scanSign cs).1 ++ (scanSign cs).2 = cs := by
  unfold scanSign
  split <;> rfl

/-- A sign before a digit is found again. -/
theorem scanSign_sign {s : List Char} (hs : startsDigit s = true) (cs : List Char) :
    scanSign ((scanSign cs).1 ++ s) = ((scanSign cs).1, s) := by
  cases s with
  | nil => simp [startsDigit] at hs
  | cons d s =>
    have hp : d ≠ '+' := by rintro rfl; simp [startsDigit] at hs
    have hm : d ≠ '-' := by rintro rfl; simp [startsDigit] at hs
    rw [scanSign.eq_def cs]
    split <;> simp [scanSign, hp, hm]

theorem scanExponent_of_nil {cs : List Char} (h : (scanExponent cs).1 = []) :
    scanExponent cs = ([], cs) := by
  cases cs with
  | nil => rfl
  | cons e cs =>
    simp only [scanExponent] at h ⊢
    split
    · simp_all
    · rfl

theorem stable_scanExponent : Stable scanExponent := by
  intro cs w r h
  by_cases hw : w = []
  · subst hw
    have hcs : scanExponent cs = ([], cs) := scanExponent_of_nil (by rw [h])
    obtain rfl : r = cs := (Prod.mk.inj (h.symm.trans hcs)).2
    exact ⟨rfl, fun r' hc => scanExponent_of_nil (hc.exponent (by rw [h]))⟩
  cases cs with
  | nil => exact absurd (Prod.mk.inj h).1.symm hw
  | cons e s =>
    simp only [scanExponent] at h
    split at h
    · rename_i he
      simp only [Bool.and_eq_true] at he
      obtain ⟨rfl, rfl⟩ := Prod.mk.inj h
      refine ⟨?_, fun r' hc => ?_⟩
      · rw [List.cons_append, List.cons_append, List.append_assoc, List.takeWhile_append_dropWhile,
          scanSign_append]
      · obtain ⟨-, hst⟩ := stable_splitWhile (p := Char.isDigit) (by decide) (scanSign s).2 _ _ rfl
        obtain ⟨htake, hdrop⟩ := Prod.mk.inj (hst r' hc)
        have hd := startsDigit_takeWhile (p := Char.isDigit) (fun _ h => h) he.2 r'
        simp only [List.cons_append, List.append_assoc, scanExponent]
        rw [scanSign_sign hd, if_pos (by rw [Bool.and_eq_true]; exact ⟨he.1, hd⟩), htake, hdrop]
    · exact absurd (Prod.mk.inj h).1.symm hw

theorem stable_scanRealSuffix : Stable scanRealSuffix := by
  intro cs w r h
  have nil (s : List Char) (hs : s.head?.any isRealSuffix = false) : scanRealSuffix s = ([], s) := by
    cases s with
    | nil => rfl
    | cons c s => rw [scanRealSuffix, if_neg (by simpa using hs)]
  by_cases hs : cs.head?.any isRealSuffix = true
  · cases cs with
    | nil => simp at hs
    | cons c cs =>
      have hc : isRealSuffix c = true := hs
      rw [scanRealSuffix, if_pos hc] at h
      obtain ⟨rfl, rfl⟩ := Prod.mk.inj h
      exact ⟨rfl, fun r' _ => if_pos hc⟩
  · rw [Bool.not_eq_true] at hs
    rw [nil cs hs] at h
    obtain ⟨rfl, rfl⟩ := Prod.mk.inj h
    exact ⟨rfl, fun r' hc => nil r' (hc.not_class (by decide) hs)⟩

theorem radixMark?_eq_some {cs mark rest : List Char} (h : radixMark? cs = some (mark, rest)) :
    cs = mark ++ rest ∧ mark ≠ [] ∧ startsNumber mark = true ∧
      ∀ r, radixMark? (mark ++ r) = some (mark, r) := by
  unfold radixMark? at h
  split at h
  · split at h
    · obtain ⟨rfl, rfl⟩ := Prod.mk.inj (Option.some.inj h)
      exact ⟨rfl, by simp, rfl, fun r => if_pos ‹_›⟩
    · simp at h
  · simp at h

theorem radixMark?_none {c : Char} {r r' : List Char} (h : radixMark? (c :: r) = none)
    (hc : Calm r r') : radixMark? (c :: r') = none := by
  let p (m : Char) : Bool := m == 'x' || m == 'X' || m == 'b' || m == 'B'
  have none_iff (s : List Char) : radixMark? ('0' :: s) = none ↔ s.head?.any p = false := by
    cases s with
    | nil => simp [radixMark?]
    | cons m s => simp [radixMark?, p]
  by_cases h0 : c = '0'
  · subst h0
    exact (none_iff r').2 (hc.not_class (by decide) ((none_iff r).1 h))
  · cases r' <;> simp [radixMark?, h0]

/-- What a number begins with, it also is found by. -/
theorem startsNumber_scanNumber {cs : List Char} (h : startsNumber cs = true) :
    startsNumber (scanNumber cs).2.1 = true := by
  cases cs with
  | nil => simp [startsNumber] at h
  | cons c s =>
    have starts {w x : List Char} (hw : startsNumber w = true) : startsNumber (w ++ x) = true := by
      cases w with
      | nil => simp [startsNumber] at hw
      | cons a w =>
        simp only [startsNumber, Bool.or_eq_true, Bool.and_eq_true] at hw
        simp only [List.cons_append, startsNumber, Bool.or_eq_true, Bool.and_eq_true]
        refine hw.imp_right fun hw => ⟨hw.1, ?_⟩
        cases w with
        | nil => simp [startsDigit] at hw
        | cons d w => exact hw.2
    simp only [scanNumber]
    split
    · rename_i mark rest hm
      rw [List.append_assoc]
      exact starts (radixMark?_eq_some hm).2.2.1
    · simp only [startsNumber, Bool.or_eq_true, Bool.and_eq_true, beq_iff_eq] at h
      obtain hd | ⟨rfl, hd⟩ := h
      · have hw : startsNumber (splitWhile isDigitOrSeparator (c :: s)).1 = true := by
          have hc : isDigitOrSeparator c = true := by simp [isDigitOrSeparator, hd]
          simp [splitWhile, hc, startsNumber, hd]
        split
        · exact starts hw
        · rw [List.append_assoc, List.append_assoc]
          exact starts hw
      · have hf : scanFraction ('.' :: s) =
            ('.' :: s.takeWhile isDigitOrSeparator, s.dropWhile isDigitOrSeparator) := by
          rw [scanFraction, if_pos hd]
        have hw : splitWhile isDigitOrSeparator ('.' :: s) = ([], '.' :: s) := rfl
        have hd' := startsDigit_takeWhile (p := isDigitOrSeparator)
          (fun c h => by simp [isDigitOrSeparator, h]) hd []
        rw [List.append_nil] at hd'
        rw [hw, hf]
        simp only [List.isEmpty_cons, Bool.false_and, Bool.false_eq_true, if_false, List.nil_append]
        rw [List.append_assoc]
        exact starts (by simp [startsNumber, hd'])

theorem scanNumber_stable {cs w r : List Char} {k : TokenKind} (h : scanNumber cs = (k, w, r))
    (hn : startsNumber cs = true) :
    cs = w ++ r ∧ ∀ r', Calm r r' → scanNumber (w ++ r') = (k, w, r') := by
  have hw : startsNumber w = true := by
    have := startsNumber_scanNumber hn
    rwa [h] at this
  rw [scanNumber] at h
  split at h
  · rename_i mark rest hm
    rcases h₁ : splitWhile isHexDigitOrSeparator rest with ⟨digits, r₁⟩
    rcases h₂ : splitWhile isIntegerSuffix r₁ with ⟨suffix, r₂⟩
    simp only [h₁, h₂, Prod.mk.injEq] at h
    obtain ⟨rfl, rfl, rfl⟩ := h
    obtain ⟨rfl, -, -, hmark⟩ := radixMark?_eq_some hm
    obtain ⟨rfl, s₁⟩ := stable_splitWhile (by decide) _ _ _ h₁
    obtain ⟨rfl, s₂⟩ := stable_splitWhile (by decide) _ _ _ h₂
    refine ⟨by simp, fun r' hc => ?_⟩
    simp only [List.append_assoc, scanNumber, hmark, s₁ _ (hc.append suffix), s₂ _ hc]
  · rename_i hm
    rcases h₁ : splitWhile isDigitOrSeparator cs with ⟨whole, r₁⟩
    rcases h₂ : scanFraction r₁ with ⟨fraction, r₂⟩
    rcases h₃ : scanExponent r₂ with ⟨exponent, r₃⟩
    rcases h₄ : scanRealSuffix r₃ with ⟨letter, r₄⟩
    simp only [h₁, h₂, h₃, h₄] at h
    obtain ⟨rfl, s₁⟩ := stable_splitWhile (by decide) _ _ _ h₁
    obtain ⟨rfl, s₂⟩ := stable_scanFraction _ _ _ h₂
    obtain ⟨rfl, s₃⟩ := stable_scanExponent _ _ _ h₃
    obtain ⟨rfl, s₄⟩ := stable_scanRealSuffix _ _ _ h₄
    -- the text still has no mark of another base
    have unmarked {r : List Char} (hcs : whole ++ (fraction ++ (exponent ++ (letter ++ r₄))) = w ++ r)
        {r' : List Char} (hc : Calm r r') : radixMark? (w ++ r') = none := by
      cases w with
      | nil => simp [startsNumber] at hw
      | cons c w =>
        rw [hcs] at hm
        exact radixMark?_none hm (hc.append w)
    split at h
    · rename_i hempty
      simp only [Bool.and_eq_true, List.isEmpty_iff] at hempty
      obtain ⟨⟨rfl, rfl⟩, rfl⟩ := hempty
      rcases h₅ : splitWhile isIntegerSuffix r₄ with ⟨suffix, r₅⟩
      simp only [h₅, Prod.mk.injEq] at h
      obtain ⟨rfl, rfl, rfl⟩ := h
      obtain ⟨rfl, s₅⟩ := stable_splitWhile (by decide) _ _ _ h₅
      have hcs : whole ++ ([] ++ ([] ++ ([] ++ (suffix ++ r₅)))) = whole ++ suffix ++ r₅ := by simp
      refine ⟨hcs, fun r' hc => ?_⟩
      have hc' := hc.append suffix
      rw [scanNumber, unmarked hcs hc]
      simp only [List.append_assoc]
      have e₂ := s₂ _ hc'
      have e₃ := s₃ _ hc'
      have e₄ := s₄ _ hc'
      simp only [List.nil_append] at e₂ e₃ e₄ s₁
      simp [s₁ _ hc', e₂, e₃, e₄, s₅ _ hc]
    · rename_i hempty
      simp only [Prod.mk.injEq] at h
      obtain ⟨rfl, rfl, rfl⟩ := h
      have hcs : whole ++ (fraction ++ (exponent ++ (letter ++ r₄))) =
          whole ++ fraction ++ exponent ++ letter ++ r₄ := by simp
      refine ⟨hcs, fun r' hc => ?_⟩
      rw [scanNumber, unmarked hcs hc]
      have c₄ := hc.append letter
      have c₃ := c₄.append exponent
      simp only [List.append_assoc, s₁ _ (c₃.append fraction), s₂ _ c₃, s₃ _ c₄, s₄ _ hc, if_neg hempty]

/-! ### Strings, characters and comments -/

theorem consume_eq_some {c : Char} {o : Option (List Char × List Char)} {w r : List Char}
    (h : consume c o = some (w, r)) : ∃ v, w = c :: v ∧ o = some (v, r) := by
  obtain ⟨⟨v, s⟩, rfl, he⟩ := Option.map_eq_some_iff.1 h
  obtain ⟨rfl, rfl⟩ := Prod.mk.inj he
  exact ⟨v, rfl, rfl⟩

theorem openString?_eq_some {cs opening rest : List Char} {style : StringStyle}
    (h : openString? cs = some (style, opening, rest)) :
    cs = opening ++ rest ∧ opening ≠ [] ∧ ∀ r, openString? (opening ++ r) = some (style, opening, r) := by
  unfold openString? at h
  split at h <;> simp only [Option.some.injEq, Prod.mk.injEq, reduceCtorEq] at h
  all_goals
    obtain ⟨rfl, rfl, rfl⟩ := h
    exact ⟨rfl, by simp, fun _ => rfl⟩

theorem scanString_ne_nil {style : StringStyle} {place : StringPlace} {cs w r : List Char}
    (h : scanString style place cs = some (w, r)) : w ≠ [] := by
  cases cs with
  | nil => simp [scanString] at h
  | cons c cs =>
    rw [scanString] at h
    split at h
    · simp [← (Prod.mk.inj (Option.some.inj h)).1]
    · obtain ⟨_, -, h⟩ := Option.bind_eq_some_iff.1 h
      obtain ⟨v, rfl, -⟩ := consume_eq_some h
      simp

theorem scanString_stable {style : StringStyle} {place : StringPlace} {cs w r : List Char}
    (h : scanString style place cs = some (w, r)) :
    cs = w ++ r ∧ ∀ r', Calm r r' → scanString style place (w ++ r') = some (w, r') := by
  induction cs generalizing place w with
  | nil => simp [scanString] at h
  | cons c cs ih =>
    rw [scanString] at h
    split at h
    · rename_i hcl
      obtain ⟨rfl, rfl⟩ := Prod.mk.inj (Option.some.inj h)
      refine ⟨rfl, fun r' hc => if_pos ?_⟩
      -- only a doubled quote would keep a literal open
      cases place <;> simp only [StringPlace.closes, Bool.false_eq_true] at hcl ⊢
      simp only [Bool.and_eq_true, decide_eq_true_eq, Bool.not_eq_true', Bool.and_eq_false_iff,
        decide_eq_false_iff_not] at hcl ⊢
      exact ⟨hcl.1, hcl.2.imp_right fun hq hq' => hq (hc.head_of_not_stop (by decide) hq')⟩
    · rename_i hcl
      obtain ⟨next, hnext, h⟩ := Option.bind_eq_some_iff.1 h
      obtain ⟨v, rfl, hv⟩ := consume_eq_some h
      obtain ⟨rfl, hst⟩ := ih hv
      refine ⟨rfl, fun r' hc => ?_⟩
      -- the literal goes on, so the next character is one of it
      have hne : v ≠ [] := scanString_ne_nil hv
      have hhead : (v ++ r').head? = (v ++ r).head? := by
        cases v with
        | nil => exact absurd rfl hne
        | cons d v => rfl
      have hcl' : place.closes style c (v ++ r') = place.closes style c (v ++ r) := by
        cases place <;> simp only [StringPlace.closes, hhead]
      have hnext' : place.next? style c (v ++ r') = place.next? style c (v ++ r) := by
        cases place <;> simp only [StringPlace.next?, hhead]
      rw [List.cons_append, scanString, hcl', if_neg hcl, hnext', hnext, Option.bind_some, hst r' hc]
      rfl

theorem scanChar_stable {escaped : Bool} {cs w r : List Char}
    (h : scanChar escaped cs = some (w, r)) :
    cs = w ++ r ∧ ∀ r', scanChar escaped (w ++ r') = some (w, r') := by
  induction cs generalizing escaped w with
  | nil => simp [scanChar] at h
  | cons c cs ih =>
    cases escaped with
    | true =>
      obtain ⟨v, rfl, hv⟩ := consume_eq_some h
      obtain ⟨rfl, hst⟩ := ih hv
      exact ⟨rfl, fun r' => by simp [scanChar, hst, consume]⟩
    | false =>
      rw [scanChar] at h
      split at h
      · obtain ⟨rfl, rfl⟩ := Prod.mk.inj (Option.some.inj h)
        exact ⟨rfl, fun r' => if_pos ‹_›⟩
      · split at h
        · simp at h
        · obtain ⟨v, rfl, hv⟩ := consume_eq_some h
          obtain ⟨rfl, hst⟩ := ih hv
          refine ⟨rfl, fun r' => ?_⟩
          rw [List.cons_append, scanChar, if_neg ‹_›, if_neg ‹_›, hst]
          rfl

theorem scanComment_ne_nil {cs w r : List Char} (h : Lexeme.scanComment cs = some (w, r)) : w ≠ [] := by
  unfold Lexeme.scanComment at h
  split at h
  · simp at h
  · simp [← (Prod.mk.inj (Option.some.inj h)).1]
  · obtain ⟨v, rfl, -⟩ := consume_eq_some h
    simp

theorem scanComment_stable {cs w r : List Char} (h : Lexeme.scanComment cs = some (w, r)) :
    cs = w ++ r ∧ ∀ r', Lexeme.scanComment (w ++ r') = some (w, r') := by
  fun_induction Lexeme.scanComment cs generalizing w with
  | case1 => simp at h
  | case2 cs =>
    obtain ⟨rfl, rfl⟩ := Prod.mk.inj (Option.some.inj h)
    exact ⟨rfl, fun _ => rfl⟩
  | case3 c cs hne ih =>
    obtain ⟨v, rfl, hv⟩ := consume_eq_some h
    obtain ⟨rfl, hst⟩ := ih hv
    refine ⟨rfl, fun r' => ?_⟩
    rw [List.cons_append, Lexeme.scanComment, hst]
    · rfl
    · rintro d rfl hd
      cases v with
      | nil => exact absurd rfl (scanComment_ne_nil hv)
      | cons a v => exact hne (v ++ r) rfl (by rw [List.cons_append, (List.cons.inj hd).1])

/-! ### Operators -/

namespace Lexeme

/-- The characters of each operator. -/
def operatorTexts : List (List Char) := operators.map String.toList

theorem operatorTexts_ordered : operatorTexts.Pairwise fun a b => ¬ a <+: b := by decide +kernel

theorem take_mem_operatorTexts :
    ∀ op ∈ operatorTexts, ∀ n < op.length, op.take (n + 1) ∈ operatorTexts := by decide +kernel

theorem ne_nil_of_mem_operatorTexts : ∀ op ∈ operatorTexts, op ≠ [] := by decide

/-- Only an operator that begins with a question mark goes on with a stop. -/
theorem eq_question_of_stop {op : List Char} (ho : op ∈ operatorTexts) {c : Char} (hc : c ∈ stops)
    (h : op ++ [c] ∈ operatorTexts) : op = ['?'] ∧ c = '.' := by
  have last : operatorTexts.all (fun op =>
      op.length == 1 || op == ['?', '.'] || !op.getLast?.any stops.contains) = true := by decide
  have heq : op ++ [c] = ['?'] ++ ['.'] := by
    simpa [ne_nil_of_mem_operatorTexts op ho, hc] using List.all_eq_true.1 last _ h
  simpa using List.append_inj' heq rfl

theorem dollar_not_mem (t : List Char) : '$' :: t ∉ operatorTexts := by
  intro h
  have : ∀ op ∈ operatorTexts, op.head? ≠ some '$' := by decide
  exact this _ h rfl

theorem operator?_eq_some {cs op : List Char} (h : operator? cs = some op) :
    op ∈ operatorTexts ∧ op <+: cs ∧ ∀ c, op ++ [c] <+: cs → op ++ [c] ∉ operatorTexts := by
  unfold operator? at h
  have hp : op <+: cs := by
    have := List.find?_some h
    exact List.isPrefixOf_iff_prefix.1 this
  refine ⟨List.mem_of_find?_eq_some h, hp, fun c hc hmem => ?_⟩
  obtain ⟨-, before, behind, heq, hbefore⟩ := List.find?_eq_some_iff_append.1 h
  change operatorTexts = _ at heq
  have hord := operatorTexts_ordered
  rw [heq] at hmem hord
  obtain hmem | hmem := List.mem_append.1 hmem
  · have hnot := hbefore _ hmem
    have hyes : (op ++ [c]).isPrefixOf cs = true := List.isPrefixOf_iff_prefix.2 hc
    rw [hyes] at hnot
    simp at hnot
  · obtain heq | hmem := List.mem_cons.1 hmem
    · simp at heq
    · have hcons := (List.pairwise_append.1 hord).2.1
      exact List.rel_of_pairwise_cons hcons hmem (List.prefix_append op [c])

/-- Of two operators that a text begins with, the longer one goes on by one character. -/
theorem exists_longer {cs a b : List Char} (ha : a <+: cs) (hb : b <+: cs)
    (hmem : b ∈ operatorTexts) (hlt : a.length < b.length) :
    ∃ c, a ++ [c] <+: cs ∧ a ++ [c] ∈ operatorTexts := by
  obtain ⟨x, rfl⟩ := List.prefix_of_prefix_length_le ha hb (Nat.le_of_lt hlt)
  cases x with
  | nil => simp at hlt
  | cons c x =>
    have htake : (a ++ c :: x).take (a.length + 1) = a ++ [c] := by
      rw [List.take_length_add_append, List.take_succ_cons, List.take_zero]
    refine ⟨c, ?_, htake ▸ take_mem_operatorTexts _ hmem a.length hlt⟩
    exact (htake ▸ List.take_prefix _ _ : a ++ [c] <+: a ++ c :: x).trans hb

/-- The operator at the front is the one that does not go on with the next character. -/
theorem operator?_append_iff {op r : List Char} : operator? (op ++ r) = some op ↔
    op ∈ operatorTexts ∧ ∀ c, r.head? = some c → op ++ [c] ∉ operatorTexts := by
  have next {c : Char} : op ++ [c] <+: op ++ r ↔ r.head? = some c := by
    rw [List.prefix_append_right_inj]
    cases r <;> simp [eq_comm]
  constructor
  · intro h
    obtain ⟨hmem, -, hnext⟩ := operator?_eq_some h
    exact ⟨hmem, fun c hc => hnext c (next.2 hc)⟩
  · rintro ⟨hmem, hnext⟩
    have hp : op <+: op ++ r := List.prefix_append op r
    obtain ⟨found, hf⟩ : ∃ found, operator? (op ++ r) = some found :=
      Option.isSome_iff_exists.1
        (List.find?_isSome.2 ⟨op, hmem, List.isPrefixOf_iff_prefix.2 hp⟩)
    obtain ⟨hfmem, hfp, hfnext⟩ := operator?_eq_some hf
    rcases Nat.lt_trichotomy found.length op.length with hlt | heq | hlt
    · obtain ⟨c, hc, hcmem⟩ := exists_longer hfp hp hmem hlt
      exact absurd hcmem (hfnext c hc)
    · rw [hf, (List.prefix_of_prefix_length_le hfp hp (Nat.le_of_eq heq)).eq_of_length heq]
    · obtain ⟨c, hc, hcmem⟩ := exists_longer hp hfp hfmem hlt
      exact absurd hcmem (hnext c (next.1 hc))

theorem operator?_stable {op r r' : List Char} (h : operator? (op ++ r) = some op) (hc : Calm r r')
    (hq : op = ['?'] → r'.head? = some '.' → r.head? = some '.') : operator? (op ++ r') = some op := by
  obtain ⟨hmem, hnext⟩ := operator?_append_iff.1 h
  refine operator?_append_iff.2 ⟨hmem, fun c hr' hlong => ?_⟩
  obtain hs | hr := hc.head c hr'
  · obtain ⟨rfl, rfl⟩ := eq_question_of_stop hmem hs hlong
    exact hnext _ (hq rfl hr') hlong
  · exact hnext c hr hlong

/-! ### Tokens -/

theorem isIdentifierPart_of_start {c : Char} (h : isIdentifierStart c = true) :
    isIdentifierPart c = true := by
  simp only [isIdentifierPart, Bool.or_eq_true]
  exact .inl (by simpa [isIdentifierStart] using h)

theorem openString?_none {c : Char} {cs cs' : List Char} (h : openString? (c :: cs) = none)
    (hd : c ≠ '$') (hc : Calm cs cs') : openString? (c :: cs') = none := by
  by_cases ha : c = '@'
  · subst ha
    exact hc.quoted h
  · have hq : c ≠ '\x22' := by
      rintro rfl
      simp [openString?] at h
    simp [openString?, hd, ha, hq]

theorem startsNumber_of {c : Char} {cs cs' : List Char} (hc : Calm cs cs')
    (h : startsNumber (c :: cs') = true) : startsNumber (c :: cs) = true := by
  simp only [startsNumber, Bool.or_eq_true, Bool.and_eq_true] at h ⊢
  exact h.imp_right fun h => ⟨h.1, hc.startsDigit_of h.2⟩

theorem startsIdentifier_of {c : Char} {cs cs' : List Char} (hc : Calm cs cs')
    (h : startsIdentifier (c :: cs') = true) : startsIdentifier (c :: cs) = true := by
  simp only [startsIdentifier, Bool.or_eq_true, Bool.and_eq_true] at h ⊢
  refine h.imp_right fun h => ⟨h.1, ?_⟩
  cases hs : cs.head?.any isIdentifierStart with
  | true => rfl
  | false => exact absurd (hc.not_class (by decide) hs) (by simp [h.2])

/-- What a text of another beginning than a quote, a digit or a point gives. -/
theorem openString?_of_digit {c : Char} {cs : List Char} (h : startsNumber (c :: cs) = true)
    (r : List Char) : openString? (c :: r) = none ∧ c ≠ '\x27' := by
  have hc : c.isDigit = true ∨ c = '.' := by
    simp only [startsNumber, Bool.or_eq_true, Bool.and_eq_true, beq_iff_eq] at h
    exact h.imp_right And.left
  have ne {x : Char} (hx : x.isDigit = false ∧ x ≠ '.') : c ≠ x := by
    rintro rfl
    obtain hc | hc := hc
    · simp [hx.1] at hc
    · exact hx.2 hc
  have hd := ne (x := '$') (by decide)
  have ha := ne (x := '@') (by decide)
  have hq := ne (x := '\x22') (by decide)
  exact ⟨by simp [openString?, hd, ha, hq], ne (by decide)⟩

/-- The token at the front depends on what is behind it only as far as that may go on with it. -/
theorem scanToken_stable {c : Char} {cs w r : List Char} {k : TokenKind}
    (h : scanToken c cs = .ok (k, w, r)) : ∃ t, w = c :: t ∧ cs = t ++ r ∧ ∀ r', Calm r r' →
      (k = .punctuation → w = ['?'] → r'.head? = some '.' → r.head? = some '.') →
      scanToken c (t ++ r') = .ok (k, w, r') := by
  unfold scanToken at h
  split at h
  · -- a string
    rename_i style opening rest hopen
    split at h
    · rename_i body rest' hbody
      simp only [Except.ok.injEq, Prod.mk.injEq] at h
      obtain ⟨rfl, rfl, rfl⟩ := h
      obtain ⟨hcs, hne, hopen'⟩ := openString?_eq_some hopen
      obtain ⟨rfl, hst⟩ := scanString_stable hbody
      obtain ⟨d, o, rfl⟩ := List.exists_cons_of_ne_nil hne
      obtain ⟨rfl, rfl⟩ := List.cons.inj hcs
      refine ⟨o ++ body, rfl, by simp, fun r' hc _ => ?_⟩
      have hr' := hopen' (body ++ r')
      rw [List.cons_append] at hr'
      rw [scanToken, List.append_assoc, hr']
      simp only [hst r' hc]
    · simp at h
  rename_i hopen
  split at h
  · -- a character
    rename_i hq
    split at h
    · rename_i body rest' hbody
      simp only [Except.ok.injEq, Prod.mk.injEq] at h
      obtain ⟨rfl, rfl, rfl⟩ := h
      obtain ⟨rfl, hst⟩ := scanChar_stable hbody
      refine ⟨body, rfl, rfl, fun r' _ _ => ?_⟩
      subst hq
      have hnone : openString? ('\x27' :: (body ++ r')) = none := by simp [openString?]
      rw [scanToken, hnone]
      simp only [if_pos, hst r']
    · simp at h
  rename_i hq
  split at h
  · -- a number
    rename_i hn
    obtain ⟨hcs, hst⟩ := scanNumber_stable (Except.ok.inj h) hn
    have hw : startsNumber w = true := by
      have := startsNumber_scanNumber hn
      rwa [Except.ok.inj h] at this
    cases w with
    | nil => simp [startsNumber] at hw
    | cons d t =>
      obtain ⟨rfl, rfl⟩ := List.cons.inj hcs
      refine ⟨t, rfl, rfl, fun r' hc _ => ?_⟩
      obtain ⟨hnone, -⟩ := openString?_of_digit hn (t ++ r')
      have hn' : startsNumber (c :: (t ++ r')) = true := by
        simp only [startsNumber, Bool.or_eq_true, Bool.and_eq_true] at hw ⊢
        refine hw.imp_right fun hw => ⟨hw.1, ?_⟩
        cases t with
        | nil => simp [startsDigit] at hw
        | cons d t => exact hw.2
      rw [scanToken, hnone]
      simp only [if_neg hq, if_pos hn']
      exact congrArg Except.ok (hst r' hc)
  rename_i hn
  have hn {cs' : List Char} (hc : Calm cs cs') : ¬ startsNumber (c :: cs') = true :=
    fun h => hn (startsNumber_of hc h)
  split at h
  · -- a word
    rename_i hi
    simp only [Except.ok.injEq, Prod.mk.injEq] at h
    obtain ⟨rfl, rfl, rfl⟩ := h
    refine ⟨_, rfl, List.takeWhile_append_dropWhile.symm, fun r' hc _ => ?_⟩
    obtain ⟨hcs, hst⟩ := stable_splitWhile (p := isIdentifierPart) (by decide) cs _ _ rfl
    obtain ⟨htake, hdrop⟩ := Prod.mk.inj (hst r' hc)
    have hc' : Calm cs (cs.takeWhile isIdentifierPart ++ r') := by
      have := hc.append (cs.takeWhile isIdentifierPart)
      rwa [List.takeWhile_append_dropWhile] at this
    have hd : c ≠ '$' := by
      rintro rfl
      simp [startsIdentifier, show isIdentifierStart '$' = false by decide] at hi
    have hi' : startsIdentifier (c :: (cs.takeWhile isIdentifierPart ++ r')) = true := by
      simp only [startsIdentifier, Bool.or_eq_true, Bool.and_eq_true] at hi ⊢
      refine hi.imp_right fun hi => ⟨hi.1, ?_⟩
      cases cs with
      | nil => simp at hi
      | cons d cs =>
        have : isIdentifierPart d = true := isIdentifierPart_of_start hi.2
        simpa [List.takeWhile_cons_of_pos this] using hi.2
    rw [scanToken, openString?_none hopen hd hc']
    simp only [if_neg hq, if_neg (hn hc'), if_pos hi', htake, hdrop]
  · -- an operator
    rename_i hi
    split at h
    · rename_i op hop
      simp only [Except.ok.injEq, Prod.mk.injEq] at h
      obtain ⟨rfl, rfl, rfl⟩ := h
      obtain ⟨hmem, ⟨r, hr⟩, -⟩ := operator?_eq_some hop
      obtain ⟨d, t, rfl⟩ := List.exists_cons_of_ne_nil (ne_nil_of_mem_operatorTexts op hmem)
      rw [List.cons_append] at hr
      obtain ⟨rfl, rfl⟩ := List.cons.inj hr
      have hdrop (s : List Char) : (d :: (t ++ s)).drop (d :: t).length = s :=
        @List.drop_left _ (d :: t) s
      rw [hdrop]
      refine ⟨t, rfl, rfl, fun r' hc hquest => ?_⟩
      have hc' := hc.append t
      have hd : d ≠ '$' := by
        rintro rfl
        exact absurd hmem (dollar_not_mem t)
      rw [scanToken, openString?_none hopen hd hc']
      simp only [if_neg hq, if_neg (hn hc'), if_neg fun h => hi (startsIdentifier_of hc' h)]
      have hop' : operator? (d :: (t ++ r')) = some (d :: t) :=
        @operator?_stable (d :: t) _ _ hop hc (hquest rfl)
      rw [hop']
      simp only [hdrop]
    · simp at h

/-! ### Lexemes -/

theorem exceptBind_eq_ok {ε α β : Type} {x : Except ε α} {f : α → Except ε β} {b : β} :
    x >>= f = .ok b ↔ ∃ a, x = .ok a ∧ f a = .ok b := by
  cases x with
  | error e => simp [bind, Except.bind]
  | ok a => simp [bind, Except.bind]

/-- The lexeme, which stands before `r`, may also stand before `r'`: a line comment or directive needs a
line end there, blanks go on into blanks, and a question mark takes up a point. -/
structure Holds (lexeme : Lexeme) (r r' : List Char) : Prop where
  line : (∃ kind, lexeme.kind = .token kind) ∨ r'.head? = r.head? ∨ ∃ c, r.head? = some c ∧ c ≠ '\n'
  blank : (∃ kind, lexeme.kind = .token kind) ∨ r'.head? = r.head? ∨ r'.head?.any Text.isBlank = false
  question : lexeme.kind = .token .punctuation → lexeme.text = ['?'] → r'.head? = some '.' →
    r.head? = some '.'

theorem Holds.of_head {r r' : List Char} (lexeme : Lexeme) (h : r'.head? = r.head?) :
    Holds lexeme r r' := ⟨.inr (.inl h), .inr (.inl h), fun _ _ hr' => h ▸ hr'⟩

/-- A token goes on into another text only as a question mark does. -/
theorem Holds.of_token {kind : TokenKind} {text r r' : List Char}
    (h : kind = .punctuation → text = ['?'] → r'.head? = some '.' → r.head? = some '.') :
    Holds ⟨.token kind, text⟩ r r' :=
  ⟨.inl ⟨kind, rfl⟩, .inl ⟨kind, rfl⟩, fun hk => h (LexemeKind.token.inj hk)⟩

theorem takeWhile_cons_stable {p : Char → Bool} {c : Char} (hc : p c = true) (cs : List Char) :
    (c :: cs).takeWhile p = c :: cs.takeWhile p ∧ cs = cs.takeWhile p ++ (c :: cs).dropWhile p ∧
      ∀ r', r'.head?.any p = false →
        (c :: (cs.takeWhile p ++ r')).takeWhile p = (c :: cs).takeWhile p ∧
        (c :: (cs.takeWhile p ++ r')).dropWhile p = r' := by
  refine ⟨List.takeWhile_cons_of_pos hc, ?_, fun r' hr' => ⟨?_, ?_⟩⟩
  · rw [List.dropWhile_cons_of_pos hc, List.takeWhile_append_dropWhile]
  · rw [List.takeWhile_cons_of_pos hc, List.takeWhile_cons_of_pos hc,
      takeWhile_append mem_takeWhile hr']
  · rw [List.dropWhile_cons_of_pos hc, dropWhile_append mem_takeWhile hr']

/-- A lexeme that goes on to the end of its line. -/
def endsLine (lexeme : Lexeme) : Bool :=
  lexeme.kind == .directive || (lexeme.kind == .comment && ['/', '/'].isPrefixOf lexeme.text)

/-- Before a line that ends, there may stand only what ends a line as well. -/
theorem Holds.lineEnd {lexeme : Lexeme} {r r' : List Char} (h : Holds lexeme r r')
    (hr : r.head?.any (· != '\n') = false) (hk : ∀ kind, lexeme.kind ≠ .token kind) :
    r'.head?.any (· != '\n') = false := by
  obtain ⟨kind, hkind⟩ | hhead | ⟨c, hc, hne⟩ := h.line
  · exact absurd hkind (hk kind)
  · rwa [hhead]
  · simp [hc, hne] at hr

/-- Behind blanks nothing blank may stand. -/
theorem Holds.notBlank {lexeme : Lexeme} {r r' : List Char} (h : Holds lexeme r r')
    (hr : r.head?.any Text.isBlank = false) (hk : ∀ kind, lexeme.kind ≠ .token kind) :
    r'.head?.any Text.isBlank = false := by
  obtain ⟨kind, hkind⟩ | hhead | hblank := h.blank
  · exact absurd hkind (hk kind)
  · rwa [hhead]
  · exact hblank

/-- What is no token is either blank, or goes to the end of the line, or to its own end; so much of what
is behind it is looked at. -/
theorem scan_trivia {lineStart : Bool} {c : Char} {cs r : List Char} {lexeme : Lexeme}
    (h : scan lineStart c cs = .ok (lexeme, r)) (hk : ∀ kind, lexeme.kind ≠ .token kind) :
    ∃ t, lexeme.text = c :: t ∧ cs = t ++ r ∧ (lexeme.kind = .blank → r.head?.any Text.isBlank = false) ∧
      (lexeme.endsLine = true → r.head?.any (· != '\n') = false) ∧
      ∀ r', (lexeme.kind = .blank → r'.head?.any Text.isBlank = false) →
        (lexeme.endsLine = true → r'.head?.any (· != '\n') = false) →
        scan lineStart c (t ++ r') = .ok (lexeme, r') := by
  unfold scan at h
  split at h
  · -- blanks
    rename_i hb
    obtain ⟨rfl, rfl⟩ := Prod.mk.inj (Except.ok.inj h)
    obtain ⟨hw, hcs, hst⟩ := takeWhile_cons_stable hb cs
    refine ⟨_, hw, hcs, fun _ => any_head_dropWhile _ _, by simp [endsLine], fun r' hr' _ => ?_⟩
    obtain ⟨htake, hdrop⟩ := hst r' (hr' rfl)
    rw [scan, if_pos hb, htake, hdrop]
  rename_i hb
  split at h
  · -- a comment up to the line end
    rename_i hl
    simp only [Bool.and_eq_true, decide_eq_true_eq] at hl
    obtain ⟨rfl, rfl⟩ := Prod.mk.inj (Except.ok.inj h)
    have hp : (c != '\n') = true := by simp [hl.1]
    obtain ⟨rest, rfl⟩ := List.head?_eq_some_iff.1 hl.2
    obtain ⟨hw, hcs, hst⟩ := takeWhile_cons_stable (p := (· != '\n')) hp ('/' :: rest)
    refine ⟨_, hw, hcs, by simp, fun _ => any_head_dropWhile _ _, fun r' _ hr' => ?_⟩
    obtain ⟨htake, hdrop⟩ := hst r' (hr' (by simp [endsLine, hl.1, List.isPrefixOf]))
    rw [scan, if_neg hb, if_pos (by simp [hl.1]), htake, hdrop]
  rename_i hl
  split at h
  · -- a comment up to its closing
    rename_i ho
    simp only [Bool.and_eq_true, decide_eq_true_eq] at ho
    obtain ⟨rest, rfl⟩ := List.head?_eq_some_iff.1 ho.2
    rw [List.tail_cons] at h
    split at h
    · rename_i body rest' hbody
      obtain ⟨rfl, rfl⟩ := Prod.mk.inj (Except.ok.inj h)
      obtain ⟨rfl, hst⟩ := scanComment_stable hbody
      refine ⟨'*' :: body, rfl, rfl, by simp, by simp [endsLine, List.isPrefixOf], fun r' _ _ => ?_⟩
      rw [scan, if_neg hb, if_neg (by simp), if_pos (by simp [ho.1])]
      simp only [List.cons_append, List.tail_cons, hst r']
    · simp at h
  rename_i ho
  split at h
  · -- a directive
    rename_i hd
    simp only [Bool.and_eq_true, decide_eq_true_eq] at hd
    obtain ⟨rfl, rfl⟩ := Prod.mk.inj (Except.ok.inj h)
    have hp : (c != '\n') = true := by simp [hd.1]
    obtain ⟨hw, hcs, hst⟩ := takeWhile_cons_stable (p := (· != '\n')) hp cs
    refine ⟨_, hw, hcs, by simp, fun _ => any_head_dropWhile _ _, fun r' _ hr' => ?_⟩
    obtain ⟨htake, hdrop⟩ := hst r' (hr' rfl)
    rw [scan, if_neg hb, if_neg (by simp [hd.1]), if_neg (by simp [hd.1]), if_pos (by simp [hd]), htake,
      hdrop]
  · obtain ⟨⟨kind, text, rest⟩, -, h⟩ := exceptBind_eq_ok.1 h
    obtain ⟨rfl, rfl⟩ := Prod.mk.inj (Except.ok.inj h)
    exact absurd rfl (hk kind)

/-- A token is what is left when nothing else begins. -/
theorem scan_eq_token {lineStart : Bool} {c : Char} {cs r : List Char} {kind : TokenKind}
    {text : List Char} : scan lineStart c cs = .ok (⟨.token kind, text⟩, r) ↔
      Text.isBlank c = false ∧ (c = '/' && cs.head? = some '/') = false ∧
      (c = '/' && cs.head? = some '*') = false ∧ (c = '#' && lineStart) = false ∧
      scanToken c cs = .ok (kind, text, r) := by
  constructor
  · intro h
    unfold scan at h
    split at h
    · simp at h
    split at h
    · simp at h
    split at h
    · split at h <;> simp at h
    split at h
    · simp at h
    · obtain ⟨⟨k, x, rest⟩, htok, h⟩ := exceptBind_eq_ok.1 h
      obtain ⟨hlexeme, rfl⟩ := Prod.mk.inj (Except.ok.inj h)
      obtain ⟨hk, rfl⟩ := Lexeme.mk.inj hlexeme
      obtain rfl := LexemeKind.token.inj hk
      exact ⟨Bool.eq_false_iff.2 ‹_›, Bool.eq_false_iff.2 ‹_›, Bool.eq_false_iff.2 ‹_›,
        Bool.eq_false_iff.2 ‹_›, htok⟩
  · rintro ⟨hb, hl, ho, hd, htok⟩
    rw [scan, if_neg (by simp [hb]), if_neg (by simp [hl]), if_neg (by simp [ho]), if_neg (by simp [hd]), htok]
    rfl

/-- The lexeme at the front depends on what is behind it only as far as that may go on with it. -/
theorem scan_stable {lineStart : Bool} {c : Char} {cs r : List Char} {lexeme : Lexeme}
    (h : scan lineStart c cs = .ok (lexeme, r)) : ∃ t, lexeme.text = c :: t ∧ cs = t ++ r ∧
      ∀ r', Calm r r' → lexeme.Holds r r' → scan lineStart c (t ++ r') = .ok (lexeme, r') := by
  obtain ⟨kind, text⟩ := lexeme
  by_cases htoken : ∃ k, kind = .token k
  · obtain ⟨k, rfl⟩ := htoken
    obtain ⟨hb, hl, ho, hd, htok⟩ := scan_eq_token.1 h
    obtain ⟨t, rfl, rfl, hst⟩ := scanToken_stable htok
    refine ⟨t, rfl, rfl, fun r' hc hh => scan_eq_token.2 ?_⟩
    have other {x : Char} (hx : x ∉ stops) (hn : (c = '/' && (t ++ r).head? = some x) = false) :
        (c = '/' && (t ++ r').head? = some x) = false := by
      simp only [Bool.and_eq_false_iff, decide_eq_false_iff_not] at hn ⊢
      exact hn.imp_right fun hn h => hn ((hc.append t).head_of_not_stop hx h)
    exact ⟨hb, other (by decide) hl, other (by decide) ho, hd,
      hst r' hc fun hk => hh.question (congrArg LexemeKind.token hk)⟩
  · have hk (k : TokenKind) : kind ≠ .token k := fun hk => htoken ⟨k, hk⟩
    obtain ⟨t, ht, hcs, hblank, hline, hst⟩ := scan_trivia h hk
    exact ⟨t, ht, hcs, fun r' _ hh => hst r' (fun hb => hh.notBlank (hblank hb) hk)
      fun hl => hh.lineEnd (hline hl) hk⟩

end Lexeme

end CultureLint
