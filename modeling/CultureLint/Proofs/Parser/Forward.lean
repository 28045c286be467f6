import CultureLint.Proofs.Parser.Headers

/-! No rule of the grammar goes back, and every rule that is repeated takes a token in each round. -/

namespace CultureLint

open CultureLint.Parser

namespace Parser

variable {α β : Type}

theorem forward_at (f : Token → Bool) : Forward (at? f) := .ask _

theorem forward_eat (f : Token → Bool) : Forward (eat f) := .eat fun _ _ => trivial

theorem forward_expectPunct (c : String) : Forward (expectPunct c) := .expectPunct fun _ _ => trivial

theorem forward_expectIdent : Forward expectIdent := .expectIdent fun _ _ => trivial

theorem forward_newNode (span : Span) : Forward (newNode span) := .newNode span

theorem forward_newNodeFrom (start : Nat) : Forward (newNodeFrom start) :=
  (Takes.ask _).bind fun _ => .newNode _

/-- A result made with a new node. -/
theorem forward_node (start : Nat) (f : Node → α) :
    Forward (newNodeFrom start >>= fun node => pure (f node)) :=
  (forward_newNodeFrom start).bind fun _ => .pure _

/-- A result made with the span of what was read. -/
theorem forward_span (start : Nat) (f : Span → α) :
    Forward (spanFrom start >>= fun span => pure (f span)) :=
  (Takes.ask _).bind fun _ => .pure _

theorem forward_speculate {p : Parser (Option α)} (hp : Forward p) : Forward (speculate p) := by
  intro s a s' h
  cases a with
  | some a => exact hp s _ s' (speculate_eq_some.1 h)
  | none =>
    obtain ⟨rfl, -⟩ := speculate_eq_none.1 h
    exact ⟨[], .refl _, by simp⟩

/-! ### Taking at least one token -/

/-- A parser that never goes back and always takes a token. -/
def Advances (p : Parser α) : Prop :=
  ∀ s x s', p s = .ok (x, s') → ∃ w, Took s w s' ∧ w ≠ []

namespace Advances

theorem forward {p : Parser α} (h : Advances p) : Forward p := fun s x s' hp =>
  (h s x s' hp).imp fun _ hw => ⟨hw.1, fun _ _ => trivial⟩

theorem fail (c : Complaint) : Advances (fail c : Parser α) := by
  intro s x s' h
  simp at h

theorem bind {p : Parser α} {f : α → Parser β} (hp : Advances p) (hf : ∀ a, Forward (f a)) :
    Advances (p >>= f) := by
  intro s x s' h
  simp only [bind_eq_ok] at h
  obtain ⟨⟨a, m⟩, ha, hx⟩ := h
  obtain ⟨w, hw, hne⟩ := hp s a m ha
  obtain ⟨v, hv, -⟩ := hf a m x s' hx
  exact ⟨w ++ v, hw.trans hv, by simp [hne]⟩

theorem after {p : Parser α} {f : α → Parser β} (hp : Forward p) (hf : ∀ a, Advances (f a)) :
    Advances (p >>= f) := by
  intro s x s' h
  simp only [bind_eq_ok] at h
  obtain ⟨⟨a, m⟩, ha, hx⟩ := h
  obtain ⟨w, hw, -⟩ := hp s a m ha
  obtain ⟨v, hv, hne⟩ := hf a m x s' hx
  exact ⟨w ++ v, hw.trans hv, by simp [hne]⟩

theorem map {p : Parser α} {f : α → β} (hp : Advances p) : Advances (f <$> p) := by
  intro s x s' h
  simp only [map_eq_ok, Prod.mk.injEq] at h
  obtain ⟨⟨a, m⟩, ha, -, rfl⟩ := h
  exact hp s a _ ha

theorem ite {c : Prop} [Decidable c] {p q : Parser α} (hp : Advances p) (hq : Advances q) :
    Advances (if c then p else q) := by
  split
  · exact hp
  · exact hq

theorem ifEat {f : Token → Bool} {p q : Parser α} (hp : Forward p) (hq : Advances q) :
    Advances (eat f >>= fun b => if b = true then p else q) := by
  intro s a s' h
  simp only [bind_eq_ok, eat_eq_ok, exists_eq_left] at h
  split at h
  · rename_i hc
    obtain ⟨t, -, ht⟩ := took_first hc
    obtain ⟨w, hw, -⟩ := hp _ _ _ h
    exact ⟨t :: w, ht.trans hw, by simp⟩
  · exact hq _ _ _ h

theorem expectPunct (c : String) : Advances (expectPunct c) := by
  intro s x s' h
  obtain ⟨t, -, ht⟩ := took_punct h
  exact ⟨[t], ht, by simp⟩

theorem expectIdent : Advances expectIdent := by
  intro s x s' h
  obtain ⟨t, -, -, ht⟩ := took_ident h
  exact ⟨[t], ht, by simp⟩

theorem progresses {p : Parser (Option α)} (hp : Advances p) : Progresses p := by
  intro s a s' h
  obtain ⟨w, hw, hne⟩ := hp s _ s' h
  obtain ⟨t, v, rfl⟩ := List.exists_cons_of_ne_nil hne
  exact hw.length_lt

end Advances

end Parser

namespace Grammar

theorem forward_castType? : Forward castType? :=
  forward_speculate <| (forward_expectPunct _).bind fun _ => takes_type.forward.bind fun _ =>
    (forward_expectPunct _).bind fun _ => (forward_at _).bind fun _ => .ite (.pure _) (.pure _)

theorem forward_localType? : Forward localType? := by
  refine forward_speculate <| (forward_eat _).bind fun _ => Takes.bind ?_ fun _ =>
    (Takes.ask _).bind fun _ => .ite (.pure _) (.pure _)
  exact (Takes.ask _).bind fun _ => .ite
    ((Takes.ask _).bind fun _ => forward_advance.bind fun _ => forward_span _ _) takes_type.forward

theorem forward_initializer : Forward initializer :=
  (forward_eat _).bind fun _ => .ite (forward_advance.bind fun _ => forward_skipGroup _ _) (.pure _)

theorem forward_typeForm : Forward typeForm :=
  (forward_eat _).bind fun _ => .ite (.pure _) <| (forward_eat _).bind fun _ => .ite (.pure _) <|
    (forward_eat _).bind fun _ => .ite (.pure _) (.fail _)

/-- The rules that nest go forward. -/
structure GoesForward (g : Grammar) : Prop where
  expr : Forward g.expr
  operand : Forward g.operand
  chain : ∀ least, Forward (g.chain least)
  stmt : Advances g.stmt

namespace GoesForward

variable {g : Grammar} (h : g.GoesForward)
include h

/-! ### Expressions -/

theorem argument : Forward g.argument :=
  (Takes.eat2 (fun _ _ => trivial) fun _ _ => trivial).bind fun _ =>
    (takes_passing? _).forward.many.bind fun _ => h.expr

theorem arguments (opening closing : String) : Forward (g.arguments opening closing) :=
  (forward_expectPunct _).bind fun _ => (forward_eat _).bind fun _ =>
    .ite (.pure _) <| h.argument.commaList.bind fun _ => (forward_expectPunct _).bind fun _ => .pure _

theorem creation (start : Nat) : Forward (g.creation start) := by
  refine takes_type.forward.bind fun _ => (forward_at _).bind fun _ => .ite ?_ (.fail _)
  exact (h.arguments _ _).bind fun _ => (forward_at _).bind fun _ => .ite (.fail _) (forward_node _ _)

theorem primary : Forward g.primary := by
  refine (Takes.ask _).bind fun start => (Takes.ask _).bind fun t => ?_
  cases t with
  | none => exact .fail _
  | some t =>
    dsimp only
    split
    · exact forward_advance.bind fun _ => (forward_newNode _).bind fun _ => .pure _
    · refine (forward_eat _).bind fun _ => .ite ?_ <| (forward_eat _).bind fun _ =>
        .ite (h.creation _) (.fail _)
      exact h.expr.bind fun _ => (forward_expectPunct _).bind fun _ => forward_node _ _

theorem attachment (start : Nat) (e : Expr) : Forward (g.attachment start e) := by
  refine (forward_eat _).bind fun _ => .ite
    (forward_expectIdent.bind fun _ => forward_node _ _) ?_
  refine (forward_at _).bind fun _ => .ite ((h.arguments _ _).bind fun _ => forward_node _ _) ?_
  refine (forward_at _).bind fun _ => .ite ((h.arguments _ _).bind fun _ => forward_node _ _) ?_
  refine (forward_eat _).bind fun _ => .ite (forward_node _ _) ?_
  refine (forward_eat _).bind fun _ => .ite (forward_node _ _) ?_
  exact (forward_at _).bind fun _ => .ite (.fail _) (.pure _)

theorem operandRule : Forward g.operandRule := by
  refine (Takes.ask _).bind fun start => (Takes.ask _).bind fun op => ?_
  cases op with
  | some op => exact forward_advance.bind fun _ => h.operand.bind fun _ => forward_node _ _
  | none =>
    refine forward_castType?.bind fun type => ?_
    cases type with
    | some type => exact h.operand.bind fun _ => forward_node _ _
    | none => exact h.primary.bind fun e => .grow (h.attachment _) _

theorem link (least : Nat) (left : Expr) : Forward (g.link least left) := by
  refine (Takes.ask _).bind fun op => ?_
  cases op with
  | none => exact .pure _
  | some op =>
    refine .ite (.pure _) (forward_advance.bind fun _ => (h.chain _).bind fun _ => ?_)
    exact (forward_newNode _).bind fun _ => .pure _

theorem chainRule (least : Nat) : Forward (g.chainRule least) :=
  h.operandRule.bind fun _ => (Takes.grow (h.link least) _).bind fun _ => (forward_at _).bind fun _ =>
    .ite (.fail _) (.pure _)

theorem conditional : Forward g.conditional := by
  refine (h.chainRule 0).bind fun _ => (forward_eat _).bind fun _ => .ite ?_ (.pure _)
  exact h.expr.bind fun _ => (forward_expectPunct _).bind fun _ => h.expr.bind fun _ =>
    (forward_newNode _).bind fun _ => .pure _

theorem exprRule : Forward g.exprRule := by
  refine h.conditional.bind fun _ => (Takes.ask _).bind fun op => ?_
  cases op with
  | none => exact .pure _
  | some op =>
    exact forward_advance.bind fun _ => h.expr.bind fun _ => (forward_newNode _).bind fun _ => .pure _

/-! ### Statements -/

theorem declarator (name : Ident) : Forward (g.declarator name) :=
  (forward_eat _).bind fun _ => .ite (h.expr.bind fun _ => .pure _) (.pure _)

theorem declarators (name : Ident) : Forward (g.declarators name) :=
  (h.declarator name).bind fun _ =>
    (Takes.afterComma (forward_expectIdent.bind h.declarator)).many.bind fun _ => .pure _

theorem stmt? : Forward g.stmt? :=
  (forward_eat _).bind fun _ => .ite (.pure _) <| (Takes.ask _).bind fun _ => .ite (.fail _) h.stmt.forward.map

theorem block : Forward g.block := (forward_expectPunct _).bind fun _ => h.stmt?.many

theorem valueBeforeSemicolon : Forward g.valueBeforeSemicolon :=
  (forward_at _).bind fun _ => .ite (.pure _) h.expr.map

theorem ifRule (start : Nat) : Forward (g.ifRule start) :=
  (forward_expectPunct _).bind fun _ => h.expr.bind fun _ => (forward_expectPunct _).bind fun _ =>
    h.stmt.forward.bind fun _ => (forward_eat _).bind fun _ =>
      .ite (h.stmt.forward.bind fun _ => forward_span _ _) (forward_span _ _)

theorem whileRule (start : Nat) : Forward (g.whileRule start) :=
  (forward_expectPunct _).bind fun _ => h.expr.bind fun _ => (forward_expectPunct _).bind fun _ =>
    h.stmt.forward.bind fun _ => forward_span _ _

theorem localsOr {α : Type} {locals : TypeExpr → List Declarator → Span → α} {other : Parser α}
    (ho : Forward other) : Advances (g.localsOr locals other) := by
  refine .after (.ask _) fun _ => .after forward_localType? fun type => ?_
  cases type with
  | some type =>
    exact (Advances.expectIdent.bind h.declarators).bind fun _ => (Takes.ask _).bind fun _ =>
      (forward_expectPunct _).bind fun _ => .pure _
  | none => exact .after ho fun _ => (Advances.expectPunct _).bind fun _ => .pure _

theorem forStart : Forward g.forStart :=
  (forward_eat _).bind fun _ => .ite (.pure _) (h.localsOr h.expr.map).forward

theorem iterator? : Forward g.iterator? :=
  (forward_eat _).bind fun _ => .ite ((forward_at _).bind fun _ => .ite (.pure _) h.expr.map) (.pure _)

theorem iterators : Forward g.iterators :=
  (forward_at _).bind fun _ => .ite (.pure _) <| h.expr.bind fun _ =>
    h.iterator?.many.bind fun _ => .pure _

theorem forRule (start : Nat) : Forward (g.forRule start) :=
  (forward_expectPunct _).bind fun _ => h.forStart.bind fun _ =>
    h.valueBeforeSemicolon.bind fun _ => (forward_expectPunct _).bind fun _ =>
      h.iterators.bind fun _ => (forward_expectPunct _).bind fun _ => h.stmt.forward.bind fun _ =>
        forward_span _ _

theorem stmtRule : Advances g.stmtRule := by
  refine .after (.ask _) fun start => .after (forward_at _) fun _ => .ite ?_ ?_
  · exact ((Advances.expectPunct _).bind fun _ => h.stmt?.many).bind fun _ => forward_span _ _
  refine .ifEat (forward_span _ _) (.ifEat ?_ (.ifEat (h.ifRule _) (.ifEat (h.whileRule _)
    (.ifEat (h.forRule _) (h.localsOr h.exprRule.map)))))
  exact h.valueBeforeSemicolon.bind fun _ => (forward_expectPunct _).bind fun _ => forward_span _ _

theorem above : g.above.GoesForward := ⟨h.exprRule, h.operandRule, h.chainRule, h.stmtRule⟩

/-! ### Rules that are repeated -/

theorem advances_arguments (opening closing : String) : Advances (g.arguments opening closing) :=
  (Advances.expectPunct _).bind fun _ => (forward_eat _).bind fun _ =>
    .ite (.pure _) <| h.argument.commaList.bind fun _ => (forward_expectPunct _).bind fun _ => .pure _

theorem progresses_attachment (start : Nat) (e : Expr) : Progresses (g.attachment start e) := by
  refine .ifEat (forward_expectIdent.bind fun _ => forward_node _ _) ?_
  refine .bind (forward_at _) fun _ => .ite
    ((h.advances_arguments _ _).bind fun _ => forward_node _ _).progresses ?_
  refine .bind (forward_at _) fun _ => .ite
    ((h.advances_arguments _ _).bind fun _ => forward_node _ _).progresses ?_
  refine .ifEat (forward_node _ _) (.ifEat (forward_node _ _) ?_)
  exact .bind (forward_at _) fun _ => .ite (.fail _) .none

theorem progresses_link (least : Nat) (left : Expr) : Progresses (g.link least left) := by
  intro s a s' hs
  simp only [Grammar.link, bind_eq_ok, ask_eq_ok, exists_eq_left] at hs
  cases ht : s.rest with
  | nil => simp [Cursor.first?, ht] at hs
  | cons t r =>
    cases ho : binaryOp? t with
    | none => simp [Cursor.first?, ht, ho] at hs
    | some op =>
      simp only [Cursor.first?, ht, List.head?_cons, Option.bind_some, ho] at hs
      split at hs
      · simp at hs
      · simp only [bind_eq_ok, advance_eq_ok, exists_eq_left, newNode_eq_ok, pure_eq_ok,
          Prod.mk.injEq] at hs
        obtain ⟨⟨right, m⟩, hr, -, rfl⟩ := hs
        obtain ⟨w, hw, -⟩ := h.chain _ _ _ _ hr
        have := (Took.advance ht).length_lt
        have := hw.length_le
        simp only [ht] at *
        omega

theorem progresses_argument : Progresses (afterComma g.argument) := progresses_afterComma h.argument

theorem progresses_declarator :
    Progresses (afterComma (expectIdent >>= fun name => g.declarator name)) :=
  progresses_afterComma (forward_expectIdent.bind h.declarator)

theorem progresses_iterator? : Progresses g.iterator? :=
  .ifEat ((forward_at _).bind fun _ => .ite (.pure _) h.expr.map) .none

theorem progresses_stmt? : Progresses g.stmt? :=
  .ifEat (.pure _) (.bind (.ask _) fun _ => .ite (.fail _) h.stmt.map.progresses)

/-! ### Declarations -/

theorem defaultValue : Forward g.defaultValue :=
  (forward_eat _).bind fun _ => .ite (h.expr.bind fun _ => .pure _) (.pure _)

theorem parameter : Forward g.parameter :=
  Steady.attributes.forward.bind fun _ => (takes_passing? _).forward.many.bind fun _ =>
    takes_type.forward.bind fun _ => forward_expectIdent.bind fun _ => h.defaultValue.bind fun _ =>
      .pure _

theorem parameters : Forward g.parameters :=
  (forward_expectPunct _).bind fun _ => (forward_eat _).bind fun _ => .ite (.pure _) <|
    h.parameter.commaList.bind fun _ => (forward_expectPunct _).bind fun _ => .pure _

theorem body : Forward g.body :=
  (forward_eat _).bind fun _ => .ite (.pure _) <| (forward_eat _).bind fun _ => .ite
    (h.expr.bind fun _ => (forward_expectPunct _).bind fun _ => .pure _)
    ((Takes.ask _).bind fun _ => h.block.bind fun _ => forward_span _ _)

theorem progresses_accessor? : Progresses g.accessor? := by
  refine .ifEat (.pure _) (.bind Steady.attributes.forward fun _ => .bind Steady.modifiers.forward fun _ => ?_)
  intro s a s' hs
  simp only [bind_eq_ok, ask_eq_ok, exists_eq_left] at hs
  cases hk : s.first?.bind accessorKind? with
  | none => simp [hk] at hs
  | some kind =>
    obtain ⟨t, ht, -⟩ := Option.bind_eq_some_iff.1 hk
    obtain ⟨r, hr⟩ := List.head?_eq_some_iff.1 ht
    simp only [hk, bind_eq_ok, advance_eq_ok, exists_eq_left, pure_eq_ok, Prod.mk.injEq] at hs
    obtain ⟨⟨b, m⟩, hb, -, rfl⟩ := hs
    obtain ⟨w, hw, -⟩ := h.body _ _ _ hb
    have := (Took.advance hr).length_lt
    have := hw.length_le
    omega

theorem accessor? : Forward g.accessor? := by
  refine (forward_eat _).bind fun _ => .ite (.pure _) <| Steady.attributes.forward.bind fun _ =>
    Steady.modifiers.forward.bind fun _ => (Takes.ask _).bind fun kind => ?_
  cases kind with
  | none => exact .fail _
  | some kind => exact forward_advance.bind fun _ => h.body.bind fun _ => .pure _

theorem accessors : Forward g.accessors := (forward_expectPunct _).bind fun _ => h.accessor?.many

theorem memberRest (start : Nat) (attributes : List Attribute) (modifiers : List String)
    (type : TypeExpr) (name : Ident) : Forward (g.memberRest start attributes modifiers type name) := by
  refine (forward_at _).bind fun _ => .ite
    (h.parameters.bind fun _ => h.body.bind fun _ => forward_span _ _) ?_
  refine (forward_eat _).bind fun _ => .ite
    (h.expr.bind fun _ => (forward_expectPunct _).bind fun _ => forward_span _ _) ?_
  refine (forward_at _).bind fun _ => .ite ?_ ?_
  · refine h.accessors.bind fun _ => .bind ?_ fun _ => forward_span _ _
    exact (forward_eat _).bind fun _ => .ite
      (h.expr.bind fun _ => (forward_expectPunct _).bind fun _ => .pure _) (.pure _)
  · exact (h.declarators _).bind fun _ => (forward_expectPunct _).bind fun _ => forward_span _ _

theorem memberDecl (typeName : String) : Advances (g.memberDecl typeName) := by
  refine .after (.ask _) fun _ => .after Steady.attributes.forward fun _ =>
    .after Steady.modifiers.forward fun _ => .after (forward_at _) fun _ => .ite (.fail _) ?_
  refine .after (.ask _) fun _ => .ite ?_ ?_
  · exact Advances.expectIdent.bind fun _ => h.parameters.bind fun _ => forward_initializer.bind fun _ =>
      h.body.bind fun _ => forward_span _ _
  · exact .after takes_type.forward fun _ => Advances.expectIdent.bind fun _ => h.memberRest _ _ _ _ _

theorem member? (typeName : String) : Forward (g.member? typeName) :=
  (forward_eat _).bind fun _ => .ite (.pure _) <| (Takes.ask _).bind fun _ =>
    .ite (.fail _) (h.memberDecl _).forward.map

theorem progresses_member? (typeName : String) : Progresses (g.member? typeName) :=
  .ifEat (.pure _) (.bind (.ask _) fun _ => .ite (.fail _) (h.memberDecl _).map.progresses)

theorem typeDecl : Advances g.typeDecl :=
  .after (.ask _) fun _ => .after Steady.attributes.forward fun _ =>
    .after Steady.modifiers.forward fun _ => .after forward_typeForm fun _ => Advances.expectIdent.bind fun _ =>
      Steady.bases.forward.bind fun _ => (forward_expectPunct _).bind fun _ =>
        (h.member? _).many.bind fun _ => (forward_eat _).bind fun _ => forward_span _ _

end GoesForward

theorem goesForward_layered (n : Nat) : (layered n).GoesForward := by
  induction n with
  | zero => exact ⟨.fail _, .fail _, fun _ => .fail _, .fail _⟩
  | succ n ih => exact ih.above

/-! ### Namespaces -/

section

variable {g : Grammar} {members : Parser (List NamespaceMember)}

theorem advances_qualifiedName : Advances qualifiedName :=
  .after (.ask _) fun _ => .after (.eat2 (fun _ _ => trivial) fun _ _ => trivial) fun _ =>
    Advances.expectIdent.bind fun _ => takes_namePart?.forward.many.bind fun _ => forward_span _ _

theorem forward_namespaceOpening : Forward namespaceOpening :=
  (forward_eat _).bind fun _ => .ite (.pure _) <| (forward_expectPunct _).bind fun _ => .pure _

theorem forward_namespaceEnd (fileScoped : Bool) : Forward (namespaceEnd fileScoped) :=
  .ite (.pure _) (forward_expectPunct _)

theorem advances_namespaceDecl (hm : Forward members) : Advances (namespaceDecl members) :=
  .after (.ask _) fun _ => .after forward_advance fun _ => advances_qualifiedName.bind fun _ =>
    forward_namespaceOpening.bind fun _ => Steady.usings.forward.bind fun _ => hm.bind fun _ =>
      (forward_namespaceEnd _).bind fun _ => forward_span _ _

theorem progresses_namespaceMember? (h : g.GoesForward) (hm : Forward members) :
    Progresses (g.namespaceMember? members) :=
  .bind (.ask _) fun _ => .bind (forward_at _) fun _ => .ite .none <| .bind (forward_at _) fun _ =>
    .ite (advances_namespaceDecl hm).map.progresses h.typeDecl.map.map.progresses

theorem forward_namespaceMember? (h : g.GoesForward) (hm : Forward members) :
    Forward (g.namespaceMember? members) :=
  (Takes.ask _).bind fun _ => (forward_at _).bind fun _ => .ite (.pure _) <|
    (forward_at _).bind fun _ => .ite (advances_namespaceDecl hm).forward.map h.typeDecl.forward.map.map

theorem forward_namespaceMembers (h : g.GoesForward) (depth : Nat) :
    Forward (g.namespaceMembers depth) := by
  induction depth with
  | zero => exact .fail _
  | succ depth ih =>
    exact (forward_namespaceMember? h ih).many

end

end Grammar

end CultureLint
