import CultureLint.Proofs.Parser.Forward

/-! How deep the grammar nests. A rule enters the rules of the layer below only behind a token that it has
taken, also where it speculates first: what it does with some tokens left depends on them only at cursors with
fewer tokens left. So with more layers than tokens the lowest layer is never entered, and it makes no difference
what stands there. -/

namespace CultureLint

open CultureLint.Parser

namespace Parser

variable {α β : Type} {n m : Nat} {p q : Parser α}

/-- Two parsers that do the same wherever fewer than some number of tokens are left. -/
def AgreeBelow (n : Nat) (p q : Parser α) : Prop := ∀ s, s.rest.length < n → p s = q s

namespace AgreeBelow

theorem zero : AgreeBelow 0 p q := fun _ hs => absurd hs (Nat.not_lt_zero _)

theorem refl (n : Nat) (p : Parser α) : AgreeBelow n p p := fun _ _ => rfl

theorem mono (h : AgreeBelow n p q) (hm : m ≤ n) : AgreeBelow m p q := fun s hs => h s (by omega)

/-! ### Combinators -/

/-- The first parsers agree, and what comes behind them agrees as far as the first one leaves tokens. -/
theorem bindUpTo {k l : α → Parser β} (h : AgreeBelow n p q)
    (hk : ∀ s a s', p s = .ok (a, s') → s.rest.length < n → k a s' = l a s') :
    AgreeBelow n (p >>= k) (q >>= l) := by
  intro s hs
  change Except.bind (p s) _ = Except.bind (q s) _
  rw [← h s hs]
  cases hp : p s with
  | error e => rfl
  | ok r => exact hk s r.1 r.2 hp hs

theorem bind {k l : α → Parser β} (hp : Forward p) (h : AgreeBelow n p q)
    (hk : ∀ a, AgreeBelow n (k a) (l a)) : AgreeBelow n (p >>= k) (q >>= l) := by
  refine bindUpTo h fun s a s' hs hn => hk a s' ?_
  obtain ⟨w, hw, -⟩ := hp s a s' hs
  have := hw.length_le
  omega

/-- What comes behind does not look at the grammar. -/
theorem left (h : AgreeBelow n p q) (k : α → Parser β) : AgreeBelow n (p >>= k) (q >>= k) :=
  bindUpTo h fun _ _ _ _ _ => rfl

theorem right {k l : α → Parser β} (hp : Forward p) (hk : ∀ a, AgreeBelow n (k a) (l a)) :
    AgreeBelow n (p >>= k) (p >>= l) := bind hp (refl n p) hk

/-- Behind a parser that takes a token. -/
theorem after {k l : α → Parser β} (hp : Advances p) (hk : ∀ a, AgreeBelow n (k a) (l a)) :
    AgreeBelow (n + 1) (p >>= k) (p >>= l) := by
  refine bindUpTo (refl _ p) fun s a s' hs hn => hk a s' ?_
  obtain ⟨w, hw, hne⟩ := hp s a s' hs
  obtain ⟨t, v, rfl⟩ := List.exists_cons_of_ne_nil hne
  have := hw.length_lt
  omega

/-- Behind a parser that takes a token if it gives something. -/
theorem optional {p : Parser (Option α)} {k l : Option α → Parser β} (hf : Forward p) (hp : Progresses p)
    (hsome : ∀ a, AgreeBelow n (k (some a)) (l (some a))) (hnone : AgreeBelow (n + 1) (k none) (l none)) :
    AgreeBelow (n + 1) (p >>= k) (p >>= l) := by
  refine bindUpTo (refl _ p) fun s a s' hs hn => ?_
  cases a with
  | none =>
    obtain ⟨w, hw, -⟩ := hf s none s' hs
    have := hw.length_le
    exact hnone s' (by omega)
  | some a =>
    have := hp s a s' hs
    exact hsome a s' (by omega)

theorem map {f : α → β} (h : AgreeBelow n p q) : AgreeBelow n (f <$> p) (f <$> q) := by
  rw [← bind_pure_comp, ← bind_pure_comp]
  exact h.left _

theorem ite {c : Prop} [Decidable c] {p' q' : Parser α} (hp : AgreeBelow n p q) (hq : AgreeBelow n p' q') :
    AgreeBelow n (if c then p else p') (if c then q else q') := by
  split
  · exact hp
  · exact hq

theorem ifEat {f : Token → Bool} {p' q' : Parser α} (hp : AgreeBelow n p q)
    (hq : AgreeBelow (n + 1) p' q') :
    AgreeBelow (n + 1) (eat f >>= fun b => if b = true then p else p')
      (eat f >>= fun b => if b = true then q else q') := by
  refine bindUpTo (refl _ _) fun s b s' hs hn => ?_
  obtain ⟨rfl, rfl⟩ := Prod.mk.inj (eat_eq_ok.1 hs)
  split
  · rename_i hb
    obtain ⟨t, -, ht⟩ := took_first hb
    have := ht.length_lt
    exact hp _ (by omega)
  · exact hq _ hn

theorem ifAt {f : Token → Bool} {p' q' : Parser α} (hp : AgreeBelow n p q) (hq : AgreeBelow n p' q') :
    AgreeBelow n (at? f >>= fun b => if b = true then p else p')
      (at? f >>= fun b => if b = true then q else q') := right (forward_at f) fun _ => .ite hp hq

/-- A choice by the next token, which is taken before the grammar is looked at. -/
theorem first {γ : Type} {f : Token → Option γ} {k l : Option γ → Parser β}
    (hsome : ∀ c s, s.rest ≠ [] → s.rest.length < n + 1 → k (some c) s = l (some c) s)
    (hnone : AgreeBelow (n + 1) (k none) (l none)) :
    AgreeBelow (n + 1) (ask (·.first?.bind f) >>= k) (ask (·.first?.bind f) >>= l) := by
  intro s hs
  rw [ask_bind, ask_bind]
  cases ho : s.first?.bind f with
  | none => exact hnone s hs
  | some c =>
    obtain ⟨t, ht, -⟩ := Option.bind_eq_some_iff.1 ho
    obtain ⟨r, hr⟩ := List.head?_eq_some_iff.1 ht
    exact hsome c s (by simp [hr]) hs

theorem advance {k l : Unit → Parser β} (hk : ∀ u, AgreeBelow n (k u) (l u)) {s : Cursor} (hne : s.rest ≠ [])
    (hs : s.rest.length < n + 1) : (Parser.advance >>= k) s = (Parser.advance >>= l) s := by
  rw [advance_bind, advance_bind]
  obtain ⟨t, r, hr⟩ := List.exists_cons_of_ne_nil hne
  have := (Took.advance hr).length_lt
  exact hk () s.advance (by omega)

/-! ### Repetition -/

theorem many {p q : Parser (Option α)} (hp : Forward p) (h : AgreeBelow n p q) :
    AgreeBelow n (many p) (many q) := by
  have upTo (bound : Nat) : AgreeBelow n (manyUpTo p bound) (manyUpTo q bound) := by
    induction bound with
    | zero => exact .refl _ _
    | succ bound ih =>
      refine bind hp h fun a => ?_
      cases a with
      | none => exact .refl _ _
      | some a => exact ih.left _
  exact right (.ask _) fun _ => upTo _

theorem grow {step step' : α → Parser (Option α)} (hp : ∀ a, Forward (step a))
    (h : ∀ a, AgreeBelow n (step a) (step' a)) (a : α) : AgreeBelow n (grow step a) (grow step' a) := by
  have upTo (bound : Nat) (a : α) : AgreeBelow n (growUpTo step bound a) (growUpTo step' bound a) := by
    induction bound generalizing a with
    | zero => exact .refl _ _
    | succ bound ih =>
      refine bind (hp a) (h a) fun b => ?_
      cases b with
      | none => exact .refl _ _
      | some b => exact ih b
  exact right (.ask _) fun _ => upTo _ a

theorem afterComma (h : AgreeBelow n p q) : AgreeBelow (n + 1) (afterComma p) (afterComma q) :=
  .ifEat h.map (.refl _ _)

theorem commaList (hp : Forward p) (h : AgreeBelow n p q) : AgreeBelow n (commaList p) (commaList q) :=
  .bind hp h fun _ => ((h.afterComma.mono (Nat.le_succ n)).many (Takes.afterComma hp)).left _

end AgreeBelow

end Parser

namespace Grammar

/-- The rules of a grammar go forward, and those of another one do the same wherever fewer than some number of
tokens are left. -/
structure AgreeBelow (n : Nat) (g g' : Grammar) : Prop where
  forward : g.GoesForward
  expr : Parser.AgreeBelow n g.expr g'.expr
  operand : Parser.AgreeBelow n g.operand g'.operand
  chain : ∀ least, Parser.AgreeBelow n (g.chain least) (g'.chain least)
  stmt : Parser.AgreeBelow n g.stmt g'.stmt

theorem progresses_castType? : Progresses castType? := by
  intro s a s' h
  have hread : Advances readCastType := (Advances.expectPunct _).bind fun _ => takes_type.forward.bind fun _ =>
    (forward_expectPunct _).bind fun _ => (forward_at _).bind fun _ => .ite (.pure _) (.pure _)
  exact hread.progresses s a s' (speculate_eq_some.1 h)

namespace AgreeBelow

variable {n : Nat} {g g' : Grammar}

theorem mono {m : Nat} (h : AgreeBelow n g g') (hm : m ≤ n) : AgreeBelow m g g' :=
  ⟨h.forward, h.expr.mono hm, h.operand.mono hm, fun least => (h.chain least).mono hm, h.stmt.mono hm⟩

section

variable (h : AgreeBelow n g g')

include h

/-! ### Expressions -/

theorem argument : Parser.AgreeBelow n g.argument g'.argument :=
  .right (.eat2 (fun _ _ => trivial) fun _ _ => trivial) fun _ =>
    .right (takes_passing? _).forward.many fun _ => h.expr

theorem arguments (opening closing : String) :
    Parser.AgreeBelow (n + 1) (g.arguments opening closing) (g'.arguments opening closing) :=
  .after (.expectPunct _) fun _ => .right (forward_eat _) fun _ =>
    .ite (.refl _ _) ((Parser.AgreeBelow.commaList h.forward.argument h.argument).left _)

theorem creation (start : Nat) : Parser.AgreeBelow (n + 1) (g.creation start) (g'.creation start) :=
  .right takes_type.forward fun _ => .ifAt ((h.arguments _ _).left _) (.refl _ _)

theorem primary : Parser.AgreeBelow (n + 1) g.primary g'.primary := by
  refine .right (.ask _) fun start => .right (.ask _) fun t => ?_
  cases t with
  | none => exact .refl _ _
  | some t =>
    dsimp only
    split
    · exact .refl _ _
    · exact .ifEat (h.expr.left _) (.right (forward_eat _) fun _ => .ite (h.creation start) (.refl _ _))

theorem attachment (start : Nat) (e : Expr) :
    Parser.AgreeBelow (n + 1) (g.attachment start e) (g'.attachment start e) :=
  .right (forward_eat _) fun _ => .ite (.refl _ _) <|
  .ifAt ((h.arguments _ _).left _) <|
  .ifAt ((h.arguments _ _).left _) (.refl _ _)

theorem operandRule : Parser.AgreeBelow (n + 1) g.operandRule g'.operandRule := by
  refine .right (.ask _) fun start => .first (fun op s hne hs => ?_) ?_
  · exact Parser.AgreeBelow.advance (fun _ => h.operand.left _) hne hs
  · exact .optional forward_castType? progresses_castType? (fun type => h.operand.left _) <|
      .bind h.forward.primary h.primary fun e => .grow (h.forward.attachment _) (h.attachment _) e

theorem link (least : Nat) (left : Expr) :
    Parser.AgreeBelow (n + 1) (g.link least left) (g'.link least left) := by
  refine .first (fun op s hne hs => ?_) (.refl _ _)
  dsimp only
  split
  · rfl
  · exact Parser.AgreeBelow.advance (fun _ => (h.chain _).left _) hne hs

theorem chainRule (least : Nat) : Parser.AgreeBelow (n + 1) (g.chainRule least) (g'.chainRule least) :=
  .bind h.forward.operandRule h.operandRule fun e =>
    (Parser.AgreeBelow.grow (h.forward.link least) (h.link least) e).left _

theorem conditional : Parser.AgreeBelow (n + 1) g.conditional g'.conditional :=
  .bind (h.forward.chainRule 0) (h.chainRule 0) fun _ => .ifEat
    (.bind h.forward.expr h.expr fun _ => .right (forward_expectPunct _) fun _ => h.expr.left _) (.refl _ _)

theorem exprRule : Parser.AgreeBelow (n + 1) g.exprRule g'.exprRule :=
  .bind h.forward.conditional h.conditional fun _ => .first
    (fun _ _ hne hs => Parser.AgreeBelow.advance (fun _ => h.expr.left _) hne hs) (.refl _ _)

/-! ### Statements -/

theorem declarator (name : Ident) : Parser.AgreeBelow (n + 1) (g.declarator name) (g'.declarator name) :=
  .ifEat (h.expr.left _) (.refl _ _)

theorem declarators (name : Ident) : Parser.AgreeBelow (n + 1) (g.declarators name) (g'.declarators name) :=
  .bind (h.forward.declarator name) (h.declarator name) fun _ => (Parser.AgreeBelow.many
    (Takes.afterComma (forward_expectIdent.bind h.forward.declarator)) (((Parser.AgreeBelow.right forward_expectIdent
      h.declarator).afterComma).mono (Nat.le_succ _))).left _

theorem localDeclarators : Parser.AgreeBelow (n + 1) g.localDeclarators g'.localDeclarators :=
  .right forward_expectIdent h.declarators

theorem stmt? : Parser.AgreeBelow n g.stmt? g'.stmt? :=
  .right (forward_eat _) fun _ => .ite (.refl _ _) (.right (.ask _) fun _ => .ite (.refl _ _) h.stmt.map)

theorem block : Parser.AgreeBelow (n + 1) g.block g'.block :=
  .after (.expectPunct _) fun _ => .many h.forward.stmt? h.stmt?

theorem valueBeforeSemicolon : Parser.AgreeBelow n g.valueBeforeSemicolon g'.valueBeforeSemicolon :=
  .ifAt (.refl _ _) h.expr.map

theorem ifRule (start : Nat) : Parser.AgreeBelow n (g.ifRule start) (g'.ifRule start) :=
  .right (forward_expectPunct _) fun _ => .bind h.forward.expr h.expr fun _ =>
    .right (forward_expectPunct _) fun _ => .bind h.forward.stmt.forward h.stmt fun _ =>
      .right (forward_eat _) fun _ => .ite (h.stmt.left _) (.refl _ _)

theorem whileRule (start : Nat) : Parser.AgreeBelow n (g.whileRule start) (g'.whileRule start) :=
  .right (forward_expectPunct _) fun _ => .bind h.forward.expr h.expr fun _ =>
    .right (forward_expectPunct _) fun _ => h.stmt.left _

theorem localsOr {α : Type} {m : Nat} (hm : m ≤ n + 1) (locals : TypeExpr → List Declarator → Span → α)
    {p q : Parser α} (hp : Parser.AgreeBelow m p q) :
    Parser.AgreeBelow m (g.localsOr locals p) (g'.localsOr locals q) := by
  refine .right (.ask _) fun start => .right forward_localType? fun type => ?_
  cases type with
  | none => exact hp.left _
  | some type => exact (h.localDeclarators.mono hm).left _

theorem forStart : Parser.AgreeBelow n g.forStart g'.forStart :=
  .right (forward_eat _) fun _ => .ite (.refl _ _) (h.localsOr (Nat.le_succ n) _ h.expr.map)

theorem iterator? : Parser.AgreeBelow (n + 1) g.iterator? g'.iterator? :=
  .ifEat (.ifAt (.refl _ _) h.expr.map) (.refl _ _)

theorem iterators : Parser.AgreeBelow n g.iterators g'.iterators :=
  .ifAt (.refl _ _) <| .bind h.forward.expr h.expr fun _ =>
    (Parser.AgreeBelow.many h.forward.iterator? (h.iterator?.mono (Nat.le_succ n))).left _

theorem forRule (start : Nat) : Parser.AgreeBelow n (g.forRule start) (g'.forRule start) :=
  .right (forward_expectPunct _) fun _ => .bind h.forward.forStart h.forStart fun _ =>
    .bind h.forward.valueBeforeSemicolon h.valueBeforeSemicolon fun _ =>
      .right (forward_expectPunct _) fun _ => .bind h.forward.iterators h.iterators fun _ =>
        .right (forward_expectPunct _) fun _ => h.stmt.left _

theorem stmtRule : Parser.AgreeBelow (n + 1) g.stmtRule g'.stmtRule :=
  .right (.ask _) fun start => .ifAt (h.block.left _) <|
  .right (forward_eat _) fun _ => .ite (.refl _ _) <|
  .ifEat (h.valueBeforeSemicolon.left _) <|
  .ifEat (h.ifRule start) <| .ifEat (h.whileRule start) <| .ifEat (h.forRule start) <|
  h.localsOr (Nat.le_refl _) _ h.exprRule.map

/-- A rule looks at the layer below only where fewer tokens are left. -/
theorem above : AgreeBelow (n + 1) g.above g'.above :=
  ⟨h.forward.above, h.exprRule, h.operandRule, h.chainRule, h.stmtRule⟩

/-! ### Declarations -/

theorem defaultValue : Parser.AgreeBelow n g.defaultValue g'.defaultValue :=
  .right (forward_eat _) fun _ => .ite (h.expr.left _) (.refl _ _)

theorem parameter : Parser.AgreeBelow n g.parameter g'.parameter :=
  .right Steady.attributes.forward fun _ => .right (takes_passing? _).forward.many fun _ =>
    .right takes_type.forward fun _ => .right forward_expectIdent fun _ => h.defaultValue.left _

theorem parameters : Parser.AgreeBelow n g.parameters g'.parameters :=
  .right (forward_expectPunct _) fun _ => .right (forward_eat _) fun _ => .ite (.refl _ _)
    ((Parser.AgreeBelow.commaList h.forward.parameter h.parameter).left _)

theorem body : Parser.AgreeBelow n g.body g'.body :=
  .right (forward_eat _) fun _ => .ite (.refl _ _) <| .right (forward_eat _) fun _ => .ite (h.expr.left _) <|
    .right (.ask _) fun _ => (h.block.mono (Nat.le_succ n)).left _

theorem accessor? : Parser.AgreeBelow n g.accessor? g'.accessor? := by
  refine .right (forward_eat _) fun _ => .ite (.refl _ _) <| .right Steady.attributes.forward fun _ =>
    .right Steady.modifiers.forward fun _ => .right (.ask _) fun kind => ?_
  cases kind with
  | none => exact .refl _ _
  | some kind => exact .right forward_advance fun _ => h.body.left _

theorem accessors : Parser.AgreeBelow n g.accessors g'.accessors :=
  .right (forward_expectPunct _) fun _ => .many h.forward.accessor? h.accessor?

theorem propertyValue? : Parser.AgreeBelow n g.propertyValue? g'.propertyValue? :=
  .right (forward_eat _) fun _ => .ite (h.expr.left _) (.refl _ _)

theorem memberRest (start : Nat) (as : List Attribute) (ms : List String) (type : TypeExpr) (name : Ident) :
    Parser.AgreeBelow n (g.memberRest start as ms type name) (g'.memberRest start as ms type name) :=
  .ifAt (.bind h.forward.parameters h.parameters fun _ => h.body.left _) <|
  .right (forward_eat _) fun _ => .ite (h.expr.left _) <|
  .ifAt (.bind h.forward.accessors h.accessors fun _ => h.propertyValue?.left _) <|
  (h.declarators name).mono (Nat.le_succ n) |>.left _

theorem memberDecl (typeName : String) : Parser.AgreeBelow n (g.memberDecl typeName) (g'.memberDecl typeName) :=
  .right (.ask _) fun start => .right Steady.attributes.forward fun as =>
  .right Steady.modifiers.forward fun ms => .ifAt (.refl _ _) <|
  .right (.ask _) fun _ => .ite
    (.right forward_expectIdent fun _ => .bind h.forward.parameters h.parameters fun _ =>
      .right forward_initializer fun _ => h.body.left _) <|
  .right takes_type.forward fun type => .right forward_expectIdent fun name => h.memberRest start as ms type name

theorem member? (typeName : String) : Parser.AgreeBelow n (g.member? typeName) (g'.member? typeName) :=
  .right (forward_eat _) fun _ => .ite (.refl _ _) <| .right (.ask _) fun _ => .ite (.refl _ _)
    (h.memberDecl typeName).map

theorem typeDecl : Parser.AgreeBelow n g.typeDecl g'.typeDecl :=
  .right (.ask _) fun _ => .right Steady.attributes.forward fun _ => .right Steady.modifiers.forward fun _ =>
  .right forward_typeForm fun _ => .right forward_expectIdent fun name => .right Steady.bases.forward fun _ =>
  .right (forward_expectPunct _) fun _ => (Parser.AgreeBelow.many (h.forward.member? _) (h.member? name.name)).left _

end

end AgreeBelow

/-! ### Layers -/

/-- A number of layers over any lowest one. -/
def layersOver (lowest : Grammar) : Nat → Grammar
  | 0 => lowest
  | n + 1 => (layersOver lowest n).above

theorem layersOver_add (lowest : Grammar) (k n : Nat) :
    layersOver lowest (k + n) = layersOver (layersOver lowest k) n := by
  induction n with
  | zero => rfl
  | succ n ih => exact congrArg above ih

/-- Where there are more layers than tokens left, the lowest one is never entered. -/
theorem agreeBelow_layersOver (lowest : Grammar) (n : Nat) : AgreeBelow n (layered n) (layersOver lowest n) := by
  induction n with
  | zero => exact ⟨goesForward_layered 0, .zero, .zero, fun _ => .zero, .zero⟩
  | succ n ih => exact ih.above

/-! ### Namespaces -/

/-- Namespaces nested to some depth, and any parser where they nest deeper. -/
def namespacesOver (g : Grammar) (lowest : Parser (List NamespaceMember)) : Nat → Parser (List NamespaceMember)
  | 0 => lowest
  | depth + 1 => many (g.namespaceMember? (namespacesOver g lowest depth))

theorem namespacesOver_add (g : Grammar) (lowest : Parser (List NamespaceMember)) (k depth : Nat) :
    namespacesOver g lowest (k + depth) = namespacesOver g (namespacesOver g lowest k) depth := by
  induction depth with
  | zero => rfl
  | succ depth ih => exact congrArg (fun members => many (g.namespaceMember? members)) ih

section

variable {n : Nat} {g g' : Grammar} {members members' : Parser (List NamespaceMember)}

theorem agreeBelow_namespaceDecl (hm : Parser.AgreeBelow n members members') :
    Parser.AgreeBelow (n + 1) (namespaceDecl members) (namespaceDecl members') :=
  .right (.ask _) fun _ => .right forward_advance fun _ => .after advances_qualifiedName fun _ =>
    .right forward_namespaceOpening fun _ => .right Steady.usings.forward fun _ => hm.left _

theorem AgreeBelow.namespaceMember? (h : AgreeBelow (n + 1) g g')
    (hm : Parser.AgreeBelow n members members') :
    Parser.AgreeBelow (n + 1) (g.namespaceMember? members) (g'.namespaceMember? members') :=
  .right (.ask _) fun _ => .right (forward_at _) fun _ => .ite (.refl _ _) <|
    .ifAt (agreeBelow_namespaceDecl hm).map h.typeDecl.map.map

theorem AgreeBelow.namespaces (h : AgreeBelow n g g') (lowest : Parser (List NamespaceMember)) :
    Parser.AgreeBelow n (g.namespaceMembers n) (namespacesOver g' lowest n) := by
  induction n with
  | zero => exact .zero
  | succ n ih =>
    have hf : Forward (g.namespaceMembers n) := forward_namespaceMembers h.forward n
    exact .many (forward_namespaceMember? h.forward hf) (h.namespaceMember? (ih (h.mono (Nat.le_succ n))))

end

end Grammar

namespace Parser

/-- All of a document's code, with any lowest layer of rules and any innermost reader of namespaces. -/
def compilationUnitOver (lowest : Grammar) (innermost : Parser (List NamespaceMember)) (depth : Nat) :
    Parser CompilationUnit := do
  let usings ← usings
  let members ← (Grammar.layersOver lowest depth).namespacesOver innermost depth
  if ← atEnd then return ⟨usings, members, Span.ofLength 0 (← ask (·.size))⟩
  else fail .expectedDeclaration

/-- A document never nests as deep as it has tokens: neither the depth, as long as it is above their number, nor
what is read at the bottom makes any difference. -/
theorem compilationUnitOver_eq (lowest : Grammar) (innermost : Parser (List NamespaceMember)) {depth : Nat}
    {s : Cursor} (h : s.rest.length < depth) :
    compilationUnitOver lowest innermost depth s = compilationUnit (s.rest.length + 1) s := by
  obtain ⟨k, rfl⟩ := Nat.exists_eq_add_of_le' (Nat.succ_le_of_lt h)
  have hlayers := Grammar.agreeBelow_layersOver (Grammar.layersOver lowest k) (s.rest.length + 1)
  have hunit : AgreeBelow (s.rest.length + 1) (compilationUnit (s.rest.length + 1))
      (compilationUnitOver lowest innermost (k + (s.rest.length + 1))) := by
    refine .right Steady.usings.forward fun _ => ?_
    rw [Grammar.layersOver_add, Grammar.namespacesOver_add]
    exact (hlayers.namespaces _).left _
  exact (hunit s (Nat.lt_succ_self _)).symm

end Parser

end CultureLint
