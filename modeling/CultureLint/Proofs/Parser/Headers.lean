import CultureLint.Proofs.Parser.Steady

/-! The rules that read no expressions are steady: dotted names, types, `using` lines, attributes,
modifiers and base types. -/

namespace CultureLint

namespace Token

theorem isPlain_iff {t : Token} : t.isPlain = true ↔ t.isIdentifier = false ∧ t.isPunct "." = false ∧
    t.isPunct "?" = false ∧ t.isPunct "[" = false ∧
      Parser.contextualModifiers.contains t.text = false := by
  simp only [isPlain, Bool.not_eq_true', Bool.or_eq_false_iff, and_assoc]

theorem spells_of_isPlain {t : Token} (h : t.isPlain = true) (word : String) :
    t.spells word = false := by
  simp [spells, (isPlain_iff.1 h).1]

end Token

namespace Parser

variable {α : Type}

/-! ### Going forward -/

theorem Takes.afterComma {p : Parser α} (hp : Forward p) : Forward (afterComma p) :=
  (eat fun _ _ => trivial).bind fun _ => .ite hp.map (pure _)

theorem progresses_afterComma {p : Parser α} (hp : Forward p) : Progresses (afterComma p) :=
  .ifEat hp.map .none

theorem Takes.commaList {p : Parser α} (hp : Forward p) : Forward (commaList p) :=
  hp.bind fun _ => hp.afterComma.many.bind fun _ => pure _

theorem takes_passing? (ws : List String) :
    Takes (fun t => ws.any t.isKeyword = true) (passing? ws) :=
  .ifAsk (fun _ => first?_any.1) (.pure _) (.pure _)

theorem progresses_passing? (ws : List String) : Progresses (passing? ws) :=
  .ifAsk (fun _ => rest_ne_nil_of_at) (.pure _) .none

/-- The marks of types. -/
def typeMarks : List String := [".", "::", "?", "[", "]"]

/-- Whether a token can stand in a type. -/
def inType (t : Token) : Bool :=
  t.isIdentifier || (t.kind == .keyword && (Primitive.ofWord? t.text).isSome) ||
    typeMarks.any t.isPunct

theorem inType_of_isIdentifier {t : Token} (h : t.isIdentifier = true) : inType t = true := by
  simp [inType, h]

theorem inType_of_spells {t : Token} {word : String} (h : t.spells word = true) :
    inType t = true := inType_of_isIdentifier (Bool.and_eq_true_iff.1 h).1

theorem inType_of_isPunct {t : Token} {c : String} (hc : c ∈ typeMarks) (h : t.isPunct c = true) :
    inType t = true := by
  simp only [inType, Bool.or_eq_true, List.any_eq_true]
  exact .inr ⟨c, hc, h⟩

theorem takes_namePart? : Takes (inType ·) namePart? := by
  refine .ifAsk (fun s hs => ?_) (Takes.expectIdent fun _ => inType_of_isIdentifier).map (.pure _)
  obtain ⟨t, r, hr, ht⟩ := first?_any.1 (Bool.and_eq_true_iff.1 hs).1
  exact ⟨t, r, hr, inType_of_isPunct (by decide) ht⟩

theorem progresses_namePart? : Progresses namePart? :=
  .ifAsk (fun _ => rest_ne_nil_of_at2) (Takes.expectIdent fun _ _ => trivial).map .none

theorem takes_qualifiedName : Takes (inType ·) qualifiedName :=
  (Takes.ask _).bind fun _ =>
    (Takes.eat2 (fun _ => inType_of_spells) fun _ => inType_of_isPunct (by decide)).bind fun _ =>
      (Takes.expectIdent fun _ => inType_of_isIdentifier).bind fun _ =>
        takes_namePart?.many.bind fun _ => (Takes.ask _).bind fun _ => .pure _

theorem progresses_typeSuffix (start : Nat) (type : TypeExpr) :
    Progresses (typeSuffix start type) := by
  refine .ifAsk (fun _ => rest_ne_nil_of_at2) ((Takes.ask _).bind fun _ => .pure _) ?_
  intro s a s' h
  simp only [bind_eq_ok, eat2_eq_ok, exists_eq_left] at h
  split at h
  · rename_i hc
    simp only [bind_eq_ok, exists_eq_left, spanFrom_eq_ok, pure_eq_ok, Prod.mk.injEq] at h
    obtain ⟨-, rfl⟩ := h
    obtain ⟨t, u, -, -, ht⟩ := took_second hc
    exact ht.length_lt
  · simp at h

theorem takes_simpleType : Takes (inType ·) simpleType := by
  intro s x s' h
  simp only [simpleType, bind_eq_ok, ask_eq_ok, exists_eq_left] at h
  cases ht : s.first? with
  | none => simp [ht] at h
  | some t =>
    simp only [ht] at h
    obtain ⟨r, hr⟩ := List.head?_eq_some_iff.1 ht
    cases hk : t.kind with
    | keyword =>
      cases hw : Primitive.ofWord? t.text with
      | none => simp [hk, hw] at h
      | some type =>
        simp only [hk, hw, bind_eq_ok, advance_eq_ok, exists_eq_left, pure_eq_ok, Prod.mk.injEq] at h
        obtain ⟨-, rfl⟩ := h
        exact ⟨[t], .advance hr, by simp [inType, hk, hw]⟩
    | identifier =>
      simp only [hk, map_eq_ok, Prod.mk.injEq] at h
      obtain ⟨⟨n, m⟩, hn, -, rfl⟩ := h
      exact takes_qualifiedName s n _ hn
    | _ => simp [hk] at h

/-- A type is made of names, type words and the marks of types. -/
theorem takes_type : Takes (inType ·) type := by
  refine (Takes.ask _).bind fun start => takes_simpleType.bind fun simple =>
    (Takes.ask _).bind fun _ => ?_
  have suffixes : Takes (inType ·) (grow (typeSuffix start) simple) := by
    refine Takes.grow (fun a => .ifAsk (fun s hs => ?_) ((Takes.ask _).bind fun _ => .pure _) ?_) _
    · obtain ⟨t, r, hr, ht⟩ := first?_any.1 (Bool.and_eq_true_iff.1 hs).1
      exact ⟨t, r, hr, inType_of_isPunct (by decide) ht⟩
    · exact (Takes.eat2 (fun _ => inType_of_isPunct (by decide)) fun _ =>
        inType_of_isPunct (by decide)).bind fun _ => .ite ((Takes.ask _).bind fun _ => .pure _) (.pure _)
  exact .ite ((Takes.fail _).bind fun _ => suffixes) suffixes

theorem forward_usingAlias? : Forward usingAlias? :=
  (Takes.ask _).bind fun _ => .ite ((Takes.expectIdent fun _ _ => trivial).bind fun _ =>
    forward_advance.bind fun _ => .pure _) (.pure _)

theorem forward_usingLine (start : Nat) (isGlobal : Bool) : Forward (usingLine start isGlobal) :=
  (Takes.eat fun _ _ => trivial).bind fun _ => forward_usingAlias?.bind fun _ =>
    takes_qualifiedName.forward.bind fun _ => (Takes.expectPunct fun _ _ => trivial).bind fun _ =>
      (Takes.ask _).bind fun _ => .pure _

theorem progresses_using? : Progresses using? := by
  refine .bind (.ask _) fun start => .bind (.ask _) fun isGlobal => ?_
  have line : Progresses (eatKeyword "using" >>= fun b =>
      if b = true then some <$> usingLine start isGlobal else pure none) :=
    .ifEat (forward_usingLine start isGlobal).map .none
  exact .ite (.bind forward_advance fun _ => line) line

/-- What closes a group is found by the words alone. -/
theorem closeGroup?_alike {opening closing : String} {depth : Int} {l r : List Token} {t : Token}
    (h : closeGroup? opening closing depth l = some (t, r)) :
    ∃ w, l = w ++ t :: r ∧ ∀ v t' r', Alike w v → bare t = bare t' →
      closeGroup? opening closing depth (v ++ t' :: r') = some (t', r') := by
  have same {a b : Token} (hab : bare a = bare b) (c : String) : a.isPunct c = b.isPunct c :=
    Token.congr hab (·.isPunct c) fun _ => rfl
  induction l generalizing depth with
  | nil => simp [closeGroup?] at h
  | cons a l ih =>
    -- the group is closed further on, and the token before that only changes the depth
    have further {d : Int} (hd : closeGroup? opening closing d l = some (t, r))
        (hs : ∀ b r, bare a = bare b → closeGroup? opening closing depth (b :: r) =
          closeGroup? opening closing d r) :
        ∃ w, a :: l = w ++ t :: r ∧ ∀ v t' r', Alike w v → bare t = bare t' →
          closeGroup? opening closing depth (v ++ t' :: r') = some (t', r') := by
      obtain ⟨w, rfl, hw⟩ := ih hd
      refine ⟨a :: w, rfl, fun v t' r' hv ht => ?_⟩
      obtain ⟨b, v, rfl, hb, hv⟩ := Alike.cons_left.1 hv
      rw [List.cons_append, hs b _ hb, hw v t' r' hv ht]
    rw [closeGroup?] at h
    split at h
    · rename_i ho
      exact further h fun b r hb => by rw [closeGroup?, ← same hb, if_pos ho]
    · rename_i ho
      split at h
      · rename_i hc
        split at h
        · rename_i hd
          simp only [Option.some.injEq, Prod.mk.injEq] at h
          obtain ⟨rfl, rfl⟩ := h
          refine ⟨[], rfl, fun v t' r' hv ht => ?_⟩
          obtain rfl := Alike.nil_left.1 hv
          rw [List.nil_append, closeGroup?, ← same ht, ← same ht, if_neg ho, if_pos hc, if_pos hd]
        · rename_i hd
          exact further h fun b r hb => by
            rw [closeGroup?, ← same hb, ← same hb, if_neg ho, if_pos hc, if_neg hd]
      · rename_i hc
        exact further h fun b r hb => by
          rw [closeGroup?, ← same hb, ← same hb, if_neg ho, if_neg hc]

theorem skipGroup_eq_ok {opening closing : String} {s s' : Cursor} {u : Unit} :
    skipGroup opening closing s = .ok (u, s') ↔ ∃ t r,
      closeGroup? opening closing 0 s.rest = some (t, r) ∧
        s' = { s with rest := r, previousEnd := t.span.stop } := by
  unfold skipGroup
  cases closeGroup? opening closing 0 s.rest with
  | none => simp
  | some a =>
    simp only [Except.ok.injEq, Prod.mk.injEq, Option.some.injEq, true_and]
    exact ⟨fun h => ⟨_, _, rfl, h.symm⟩, fun ⟨_, _, h, h'⟩ => by rw [h', h]⟩

theorem forward_skipGroup (opening closing : String) : Forward (skipGroup opening closing) := by
  intro s u s' hs
  obtain ⟨t, r, h, rfl⟩ := skipGroup_eq_ok.1 hs
  obtain ⟨w, hw, -⟩ := closeGroup?_alike h
  exact ⟨w ++ [t], ⟨by simp [hw], by simp, Nat.le_refl _⟩, by simp⟩

theorem forward_oneAttribute : Forward oneAttribute := by
  have span (start : Nat) (name : QualifiedName) :
      Forward (spanFrom start >>= fun span => pure (⟨name, span⟩ : Attribute)) :=
    (Takes.ask _).bind fun _ => .pure _
  exact (Takes.ask _).bind fun _ => takes_qualifiedName.forward.bind fun _ =>
    (Takes.ask _).bind fun _ => .ite ((forward_skipGroup _ _).bind fun _ => span _ _) (span _ _)

theorem progresses_attributeList? : Progresses attributeList? :=
  .ifEat (forward_oneAttribute.commaList.bind fun _ =>
    (Takes.expectPunct fun _ _ => trivial).bind fun _ => .pure _) .none

theorem progresses_modifier? : Progresses modifier? := by
  intro s a s' h
  simp only [modifier?, bind_eq_ok, ask_eq_ok, exists_eq_left] at h
  cases ht : s.first?.filter (isModifier · s.second?) with
  | none => simp [ht] at h
  | some t =>
    simp only [ht, bind_eq_ok, advance_eq_ok, exists_eq_left, pure_eq_ok, Prod.mk.injEq] at h
    obtain ⟨-, rfl⟩ := h
    obtain ⟨ht, -⟩ := Option.filter_eq_some_iff.1 ht
    obtain ⟨r, hr⟩ := List.head?_eq_some_iff.1 ht
    exact (Took.advance hr).length_lt

namespace Steady

/-! ### Lists and small words -/

section

variable [Bare α] {p p' : Parser α}

theorem afterComma (hp : Steady p p') : Steady (afterComma p) (afterComma p') := by
  unfold Parser.afterComma
  refine eatPunct.bind fun a b hab => ?_
  obtain rfl : a = b := hab
  exact .ite (fun _ => hp.map fun a b h => by simp [h]) fun _ => .pure rfl

theorem commaList (hp : Steady p p') (hp' : Forward p') : Steady (commaList p) (commaList p') := by
  unfold Parser.commaList
  refine hp.bind fun a b hab => ?_
  refine (hp.afterComma.many (progresses_afterComma hp.forward) (progresses_afterComma hp')).bind
    fun as bs habs => .pure ?_
  simp [hab, habs]

end

theorem passing? {ws : List String} : Steady (passing? ws) (passing? ws) := by
  unfold Parser.passing?
  refine (at? fun _ => rfl).bind fun a b hab => ?_
  obtain rfl : a = b := hab
  exact .ite (fun _ => advance.bind fun _ _ _ => .pure rfl) fun _ => .pure rfl

/-! ### Names and types -/

theorem namePart? : Steady namePart? namePart? := by
  unfold Parser.namePart?
  refine (at2? (fun _ => rfl) (fun _ => rfl) fun t h => (Token.isPlain_iff.1 h).2.1).bind
    fun a b hab => ?_
  obtain rfl : a = b := hab
  exact .ite (fun _ => advance.bind fun _ _ _ => expectIdent.map fun a b h => by simp [h])
    fun _ => .pure rfl

theorem qualifiedName : Steady qualifiedName qualifiedName := by
  unfold Parser.qualifiedName
  refine offset.bind fun _ _ _ => ?_
  refine (eat2 (fun _ => rfl) (fun _ => rfl) fun t h => Token.spells_of_isPlain h _).bind
    fun a b hab => ?_
  obtain rfl : a = b := hab
  refine expectIdent.bind fun i j hij => ?_
  refine (namePart?.many progresses_namePart? progresses_namePart?).bind fun is js hijs => ?_
  exact spanFrom.bind fun _ _ _ => .pure (by simp only [bare] at *; simp [hij, hijs])

theorem simpleType : Steady simpleType simpleType := by
  unfold Parser.simpleType
  refine first.bind fun a b hab => ?_
  cases a <;> cases b <;> simp only [bare_none, bare_some, Option.some.injEq, reduceCtorEq] at hab
  · exact .fail
  · rename_i t u
    have hk : t.kind = u.kind := Token.congr hab Token.kind fun _ => rfl
    have ht : t.text = u.text := Token.congr hab Token.text fun _ => rfl
    simp only [hk, ht]
    split
    · split
      · exact advance.bind fun _ _ _ => .pure rfl
      · exact .fail
    · exact qualifiedName.map fun a b h => congrArg TypeExpr.named h
    · exact .fail

theorem typeSuffix {start start' : Nat} {a b : TypeExpr} (hab : bare a = bare b) :
    Steady (typeSuffix start a) (typeSuffix start' b) := by
  have hab' : a.bare = b.bare := hab
  unfold Parser.typeSuffix
  refine (at2? (fun _ => rfl) (fun _ => rfl) fun t h => (Token.isPlain_iff.1 h).2.2.1).bind
    fun c d hcd => ?_
  obtain rfl : c = d := hcd
  refine .ite (fun _ => advance.bind fun _ _ _ => spanFrom.bind fun _ _ _ => .pure ?_) fun _ => ?_
  · simp [bare, TypeExpr.bare, hab']
  · refine (eat2 (fun _ => rfl) (fun _ => rfl) fun t h => (Token.isPlain_iff.1 h).2.2.2.1).bind
      fun c d hcd => ?_
    obtain rfl : c = d := hcd
    refine .ite (fun _ => spanFrom.bind fun _ _ _ => .pure ?_) fun _ => .pure rfl
    simp [bare, TypeExpr.bare, hab']

theorem type : Steady type type := by
  unfold Parser.type
  refine offset.bind fun s t _ => simpleType.bind fun a b hab => atPunct.bind fun c d hcd => ?_
  obtain rfl : c = d := hcd
  dsimp only
  refine .ite (fun _ => .bind .fail fun _ _ _ => ?_) fun _ => ?_
  all_goals
    refine grow (fun _ _ h => typeSuffix h) ?_ ?_ hab
    · exact progresses_typeSuffix s
    · exact progresses_typeSuffix t

/-! ### Lines before declarations -/

theorem usingAlias? : Steady usingAlias? usingAlias? := by
  unfold Parser.usingAlias?
  refine (at2? (fun _ => rfl) (fun _ => rfl) fun t h => (Token.isPlain_iff.1 h).1).bind
    fun a b hab => ?_
  obtain rfl : a = b := hab
  refine .ite (fun _ => expectIdent.bind fun i j hij => ?_) fun _ => .pure rfl
  exact advance.bind fun _ _ _ => .pure (by simp [hij])

theorem usingLine {start start' : Nat} {isGlobal : Bool} :
    Steady (usingLine start isGlobal) (usingLine start' isGlobal) := by
  unfold Parser.usingLine
  refine eatKeyword.bind fun a b hab => usingAlias?.bind fun i j hij => ?_
  refine qualifiedName.bind fun n m hnm => expectPunct.bind fun _ _ _ => ?_
  refine spanFrom.bind fun _ _ _ => .pure ?_
  simp only [bare, id] at *
  simp [hab, hij, hnm]

theorem using? : Steady using? using? := by
  unfold Parser.using?
  refine offset.bind fun _ _ _ => ?_
  refine (at2? (fun _ => rfl) (fun _ => rfl) fun t h => Token.spells_of_isPlain h _).bind
    fun g g' hg => ?_
  obtain rfl : g = g' := hg
  refine .when advance <| eatKeyword.bind fun a b hab => ?_
  obtain rfl : a = b := hab
  exact .ite (fun _ => usingLine.map fun a b h => by simp [h]) fun _ => .pure rfl

theorem usings : Steady usings usings := using?.many progresses_using? progresses_using?

theorem skipGroup {opening closing : String} :
    Steady (skipGroup opening closing) (skipGroup opening closing) := by
  intro s u s' hs
  obtain ⟨t, r, h, rfl⟩ := skipGroup_eq_ok.1 hs
  obtain ⟨w, hw, hc⟩ := closeGroup?_alike h
  refine ⟨w ++ [t], ⟨by simp [hw], by simp, Nat.le_refl _⟩, fun c v r' hr hv _ => ?_⟩
  obtain ⟨v, v', rfl, hw', hv'⟩ := Alike.append_left.1 hv
  obtain ⟨t', v', rfl, ht, hn⟩ := Alike.cons_left.1 hv'
  obtain rfl := Alike.nil_left.1 hn
  have hc' := hc v t' r' hw' ht
  refine ⟨(), _, skipGroup_eq_ok.2 ⟨t', r', ?_, rfl⟩, rfl, rfl⟩
  rw [hr, ← hc', List.append_assoc, List.singleton_append]

theorem oneAttribute : Steady oneAttribute oneAttribute := by
  unfold Parser.oneAttribute
  refine offset.bind fun _ _ _ => qualifiedName.bind fun n m hnm => atPunct.bind fun a b hab => ?_
  obtain rfl : a = b := hab
  refine .when skipGroup <| spanFrom.bind fun _ _ _ => .pure ?_
  simp only [bare] at *
  simp [hnm]

theorem attributeList? : Steady attributeList? attributeList? := by
  unfold Parser.attributeList?
  refine eatPunct.bind fun a b hab => ?_
  obtain rfl : a = b := hab
  refine .ite (fun _ => (oneAttribute.commaList forward_oneAttribute).bind fun a b hab => ?_)
    fun _ => .pure rfl
  exact expectPunct.bind fun _ _ _ => .pure (by simp [hab])

theorem attributes : Steady attributes attributes := by
  unfold Parser.attributes
  refine (attributeList?.many progresses_attributeList? progresses_attributeList?).map ?_
  exact fun _ _ => bare_flatten

theorem modifier? : Steady modifier? modifier? := by
  unfold Parser.modifier?
  refine (ask fun s t hst => ?_).bind fun a b hab => ?_
  · have hh : bare s.first? = bare t.first? := hst.head
    cases ha : s.first? <;> cases hb : t.first? <;>
      simp only [ha, hb, bare_none, bare_some, Option.some.injEq, reduceCtorEq] at hh
    · rfl
    · rename_i a b
      have hk : a.kind = b.kind := Token.congr hh Token.kind fun _ => rfl
      have ht : a.text = b.text := Token.congr hh Token.text fun _ => rfl
      -- a word that is a modifier only before another word is not plain
      have same : isModifier a s.second? = isModifier b t.second? := by
        unfold isModifier
        rw [hk, ht]
        by_cases hc : contextualModifiers.contains b.text = true
        · have hn : bare s.second? = bare t.second? := by
            refine hst.second fun c hc' => Bool.eq_false_iff.2 fun hp => ?_
            obtain rfl : a = c := Option.some.inj (ha.symm.trans hc')
            have := (Token.isPlain_iff.1 hp).2.2.2.2
            rw [ht, hc] at this
            exact Bool.noConfusion this
          rw [Agree.any_congr hn fun _ => rfl]
        · rw [Bool.eq_false_iff.2 hc, Bool.false_and, Bool.false_and]
      simp only [Option.filter_some, same]
      split
      · simp [hh]
      · rfl
  · cases a <;> cases b <;> simp only [bare_none, bare_some, Option.some.injEq, reduceCtorEq] at hab
    · exact .pure rfl
    · have ht := Token.congr hab Token.text fun _ => rfl
      exact advance.bind fun _ _ _ => .pure (by simp [ht])

theorem modifiers : Steady modifiers modifiers :=
  modifier?.many progresses_modifier? progresses_modifier?

theorem bases : Steady bases bases := by
  unfold Parser.bases
  refine eatPunct.bind fun a b hab => ?_
  obtain rfl : a = b := hab
  exact .ite (fun _ => type.commaList takes_type.forward) fun _ => .pure rfl

end Steady

end Parser

namespace Grammar

open CultureLint.Parser

/-! ### Types that are tried -/

theorem steady_varOrType : Steady varOrType varOrType := by
  unfold varOrType
  refine (Steady.at2? (fun _ => rfl) (fun _ => rfl) fun t h => Token.spells_of_isPlain h _).bind
    fun c d hcd => ?_
  obtain rfl : c = d := hcd
  exact .ite (fun _ => Steady.offset.bind fun _ _ _ => Steady.advance.bind fun _ _ _ =>
    Steady.spanFrom.bind fun _ _ _ => .pure rfl) fun _ => Steady.type

theorem steady_readLocalType : Steady readLocalType readLocalType := by
  unfold readLocalType
  refine Steady.eatKeyword.bind fun _ _ _ => steady_varOrType.bind fun a b hab => ?_
  refine (Steady.at2? (fun _ => rfl) (fun _ => rfl) fun t h => (Token.isPlain_iff.1 h).1).bind
    fun c d hcd => ?_
  obtain rfl : c = d := hcd
  exact .ite (fun _ => .pure (by simp [hab])) fun _ => .pure rfl

end Grammar

end CultureLint
