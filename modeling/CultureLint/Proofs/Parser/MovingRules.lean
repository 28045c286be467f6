import CultureLint.Proofs.Parser.Moving

/-! The rules of the grammar read by the words of the tokens alone: moved tokens give the moved tree. -/

namespace CultureLint

open CultureLint.Parser

variable {f : Shift}

namespace Parser

/-! ### Names and types -/

theorem moves_namePart? : Moves f namePart? namePart? :=
  (Moves.at2? (fun _ => rfl) fun _ => rfl).bind fun _ =>
    .ite (Moves.advance.bind fun _ => Moves.expectIdent.just) (.pure rfl)

theorem moves_qualifiedName : Moves f qualifiedName qualifiedName :=
  Moves.offset.bind fun _ => (Moves.eat2 (fun _ => rfl) fun _ => rfl).bind fun _ =>
    Moves.expectIdent.bind fun _ => moves_namePart?.many.bind fun _ => .span fun _ => rfl

theorem moves_simpleType : Moves f simpleType simpleType := by
  refine Moves.withFirst .fail fun t ht => ?_
  cases hk : t.kind with
  | keyword =>
    simp only [move, hk]
    cases Primitive.ofWord? t.text with
    | none => exact .fail
    | some type => exact Moves.advance.bind fun _ => .pure (congrArg (TypeExpr.primitive type) ht)
  | identifier =>
    simp only [move, hk]
    exact moves_qualifiedName.map fun _ => rfl
  | integer | real | string | char | punctuation =>
    simp only [move, hk]
    exact .fail

theorem moves_typeSuffix (start : Nat) (type : TypeExpr) :
    Moves f (typeSuffix start type) (typeSuffix (f start) (move f type)) :=
  (Moves.at2? (fun _ => rfl) fun _ => rfl).bind fun _ =>
    .ite (Moves.advance.bind fun _ => .span fun _ => rfl) <|
      (Moves.eat2 (fun _ => rfl) fun _ => rfl).bind fun _ => .ite (.span fun _ => rfl) (.pure rfl)

theorem moves_type : Moves f Parser.type Parser.type :=
  Moves.offset.bind fun start => moves_simpleType.bind fun simple => (Moves.atPunct _).bind fun _ =>
    .ite (Moves.fail.bind fun _ => .grow (moves_typeSuffix start) simple) (.grow (moves_typeSuffix start) simple)

theorem moves_passing? (words : List String) : Moves f (passing? words) (passing? words) :=
  (Moves.atKeywords words).bind fun _ => .ite (Moves.advance.bind fun _ => .pure rfl) (.pure rfl)

end Parser

namespace Grammar

/-- The rules that nest take moved tokens to moved trees. -/
structure Moving (f : Shift) (g : Grammar) : Prop where
  expr : Moves f g.expr g.expr
  operand : Moves f g.operand g.operand
  chain : ∀ least, Moves f (g.chain least) (g.chain least)
  stmt : Moves f g.stmt g.stmt

/-! ### Expressions -/

/-- What a token is as an expression of its own. -/
theorem moves_atom {t : Token} {atom : Node → Expr} (h : atom? t = some atom) (node : Node) :
    atom (move f node) = move f (atom node) := by
  unfold atom? at h
  split at h
  case h_4 =>
    split at h <;> cases h <;> rfl
  case h_6 =>
    split at h
    · cases h; rfl
    split at h
    · cases h; rfl
    split at h
    · cases h; rfl
    split at h
    · cases h; rfl
    · obtain ⟨type, -, rfl⟩ := Option.map_eq_some_iff.1 h
      rfl
  all_goals cases h <;> rfl

theorem moves_castType? : Moves f castType? castType? := by
  refine Moves.speculate ((Moves.expectPunct _).bind fun _ => moves_type.bind fun type =>
    (Moves.expectPunct _).bind fun _ => (Moves.at? fun _ => rfl).bind fun follows => ?_)
  have htype : (move f type).isPrimitiveBased = type.isPrimitiveBased := type.isPrimitiveBased_move f
  rw [htype]
  exact .ite (.pure rfl) (.pure rfl)

namespace Moving

variable {g : Grammar} (h : g.Moving f)

include h

theorem argument : Moves f g.argument g.argument :=
  (Moves.eat2 (fun _ => rfl) fun _ => rfl).bind fun _ => (moves_passing? _).many.bind fun _ => h.expr

theorem arguments (opening closing : String) :
    Moves f (g.arguments opening closing) (g.arguments opening closing) :=
  (Moves.expectPunct _).bind fun _ => (Moves.eatPunct _).bind fun _ =>
    .ite (.pure rfl) <| h.argument.commaList.bind fun _ => (Moves.expectPunct _).bind fun _ => .pure rfl

theorem creation (start : Nat) : Moves f (g.creation start) (g.creation (f start)) :=
  moves_type.bind fun _ => (Moves.atPunct _).bind fun _ => .ite
    ((h.arguments _ _).bind fun _ => (Moves.atPunct _).bind fun _ =>
      .ite .fail (.node fun _ => by simp [move, Expr.move, Expr.moveAll_eq])) .fail

theorem primary : Moves f g.primary g.primary := by
  refine Moves.offset.bind fun start => .withFirst .fail fun t ht => ?_
  simp only [show atom? (move f t) = atom? t from rfl]
  cases hatom : atom? t with
  | some atom =>
    refine Moves.advance.bind fun _ => ?_
    rw [ht]
    exact (Moves.newNode _).bind fun node => .pure (moves_atom hatom node)
  | none =>
    exact (Moves.eatPunct _).bind fun _ => .ite
      (h.expr.bind fun _ => (Moves.expectPunct _).bind fun _ => .node fun _ => rfl) <|
      (Moves.eatKeyword _).bind fun _ => .ite (h.creation start) .fail

theorem attachment (start : Nat) (e : Expr) :
    Moves f (g.attachment start e) (g.attachment (f start) (move f e)) :=
  (Moves.eatPunct _).bind fun _ => .ite (Moves.expectIdent.bind fun _ => .node fun _ => rfl) <|
  (Moves.atPunct _).bind fun _ => .ite
    ((h.arguments _ _).bind fun _ => .node fun _ => by simp [move, Expr.move, Expr.moveAll_eq]) <|
  (Moves.atPunct _).bind fun _ => .ite
    ((h.arguments _ _).bind fun _ => .node fun _ => by simp [move, Expr.move, Expr.moveAll_eq]) <|
  (Moves.eatPunct _).bind fun _ => .ite (.node fun _ => rfl) <|
  (Moves.eatPunct _).bind fun _ => .ite (.node fun _ => rfl) <|
  (Moves.at? fun _ => rfl).bind fun _ => .ite .fail (.pure rfl)

theorem operandRule : Moves f g.operandRule g.operandRule := by
  refine Moves.offset.bind fun start => (Moves.spelled (fun _ => rfl) fun _ => rfl).bind fun op => ?_
  cases op with
  | some op => exact Moves.advance.bind fun _ => h.operand.bind fun _ => .node fun _ => rfl
  | none =>
    refine moves_castType?.bind fun type => ?_
    cases type with
    | some type => exact h.operand.bind fun _ => .node fun _ => rfl
    | none =>
      refine h.primary.bind fun e => ?_
      rw [Expr.span_move, move_start]
      exact .grow (h.attachment _) e

theorem link (least : Nat) (left : Expr) : Moves f (g.link least left) (g.link least (move f left)) := by
  refine (Moves.spelled (fun _ => rfl) fun _ => rfl).bind fun op => ?_
  cases op with
  | none => exact .pure rfl
  | some op =>
    refine .ite (.pure rfl) (Moves.advance.bind fun _ => (h.chain _).bind fun right => ?_)
    rw [Expr.span_move, Expr.span_move, ← move_cover]
    exact (Moves.newNode _).bind fun _ => .pure rfl

theorem chainRule (least : Nat) : Moves f (g.chainRule least) (g.chainRule least) :=
  h.operandRule.bind fun e => (Moves.grow (h.link least) e).bind fun _ =>
    (Moves.atKeywords _).bind fun _ => .ite .fail (.pure rfl)

theorem conditional : Moves f g.conditional g.conditional := by
  refine (h.chainRule 0).bind fun condition => (Moves.eatPunct _).bind fun _ => .ite ?_ (.pure rfl)
  refine h.expr.bind fun whenTrue => (Moves.expectPunct _).bind fun _ => h.expr.bind fun whenFalse => ?_
  rw [Expr.span_move, Expr.span_move, ← move_cover]
  exact (Moves.newNode _).bind fun _ => .pure rfl

theorem exprRule : Moves f g.exprRule g.exprRule := by
  refine h.conditional.bind fun target => (Moves.spelled (fun _ => rfl) fun _ => rfl).bind fun op => ?_
  cases op with
  | none => exact .pure rfl
  | some op =>
    refine Moves.advance.bind fun _ => h.expr.bind fun value => ?_
    rw [Expr.span_move, Expr.span_move, ← move_cover]
    exact (Moves.newNode _).bind fun _ => .pure rfl

end Moving

/-! ### Statements -/

theorem moves_varOrType : Moves f varOrType varOrType :=
  (Moves.at2? (fun _ => rfl) fun _ => rfl).bind fun _ => .ite
    (Moves.offset.bind fun _ => Moves.advance.bind fun _ => .span fun _ => rfl) moves_type

theorem moves_localType? : Moves f localType? localType? :=
  .speculate <| (Moves.eatKeyword _).bind fun _ => moves_varOrType.bind fun _ =>
    (Moves.at2? (fun _ => rfl) fun _ => rfl).bind fun _ => .ite (.pure rfl) (.pure rfl)

theorem moves_withSemicolon {α : Type} [Movable α] {p : Parser α} (hp : Moves f p p) :
    Moves f (withSemicolon p) (withSemicolon p) :=
  hp.bind fun _ => (Moves.expectPunct _).bind fun _ => .pure rfl

namespace Moving

variable {g : Grammar} (h : g.Moving f)

include h

theorem declarator (name : Ident) : Moves f (g.declarator name) (g.declarator (move f name)) :=
  (Moves.eatPunct _).bind fun _ => .ite (h.expr.bind fun _ => .pure rfl) (.pure rfl)

theorem declarators (first : Ident) : Moves f (g.declarators first) (g.declarators (move f first)) :=
  (h.declarator first).bind fun _ =>
    (Moves.expectIdent.bind h.declarator).afterComma.many.bind fun _ => .pure rfl

theorem localDeclarators : Moves f g.localDeclarators g.localDeclarators :=
  Moves.expectIdent.bind h.declarators

theorem stmt? : Moves f g.stmt? g.stmt? :=
  (Moves.eatPunct _).bind fun _ => .ite (.pure rfl) <|
    Moves.atEnd.bind fun _ => .ite .fail h.stmt.just

theorem block : Moves f g.block g.block := (Moves.expectPunct _).bind fun _ => h.stmt?.many

theorem valueBeforeSemicolon : Moves f g.valueBeforeSemicolon g.valueBeforeSemicolon :=
  (Moves.atPunct _).bind fun _ => .ite (.pure rfl) h.expr.just

theorem ifRule (start : Nat) : Moves f (g.ifRule start) (g.ifRule (f start)) :=
  (Moves.expectPunct _).bind fun _ => h.expr.bind fun _ => (Moves.expectPunct _).bind fun _ =>
    h.stmt.bind fun _ => (Moves.eatKeyword _).bind fun _ =>
      .ite (h.stmt.bind fun _ => .span fun _ => rfl) (.span fun _ => rfl)

theorem whileRule (start : Nat) : Moves f (g.whileRule start) (g.whileRule (f start)) :=
  (Moves.expectPunct _).bind fun _ => h.expr.bind fun _ => (Moves.expectPunct _).bind fun _ =>
    h.stmt.bind fun _ => .span fun _ => rfl

theorem localsOr {α : Type} [Movable α] (l : TypeExpr → List Declarator → Span → α)
    (hl : ∀ type ds span, l (move f type) (move f ds) (move f span) = move f (l type ds span))
    {p : Parser α} (hp : Moves f p p) : Moves f (g.localsOr l p) (g.localsOr l p) := by
  refine Moves.offset.bind fun start => moves_localType?.bind fun type => ?_
  cases type with
  | none => exact moves_withSemicolon hp
  | some type =>
    exact h.localDeclarators.bind fun ds => (Moves.spanFrom start).bind fun span =>
      (Moves.expectPunct _).bind fun _ => .pure (hl type ds span)

theorem forStart : Moves f g.forStart g.forStart := by
  have hexpr : Moves f (ForStart.expression <$> g.expr) (ForStart.expression <$> g.expr) :=
    h.expr.map fun _ => rfl
  refine (Moves.eatPunct _).bind fun _ => .ite (.pure rfl) ?_
  exact h.localsOr ForStart.locals (fun _ _ _ => rfl) hexpr

theorem iterators : Moves f g.iterators g.iterators := by
  refine (Moves.atPunct _).bind fun _ => .ite (.pure rfl) <| h.expr.bind fun _ =>
    (Moves.many ?_).bind fun _ => .pure rfl
  exact (Moves.eatPunct _).bind fun _ => .ite
    ((Moves.atPunct _).bind fun _ => .ite (.pure rfl) h.expr.just) (.pure rfl)

theorem forRule (start : Nat) : Moves f (g.forRule start) (g.forRule (f start)) :=
  (Moves.expectPunct _).bind fun _ => h.forStart.bind fun _ => h.valueBeforeSemicolon.bind fun _ =>
    (Moves.expectPunct _).bind fun _ => h.iterators.bind fun _ => (Moves.expectPunct _).bind fun _ =>
      h.stmt.bind fun _ => .span fun _ => rfl

theorem stmtRule : Moves f g.stmtRule g.stmtRule := by
  have hexpr : Moves f (Stmt.expression <$> g.exprRule) (Stmt.expression <$> g.exprRule) :=
    h.exprRule.map fun _ => rfl
  refine Moves.offset.bind fun start =>
  (Moves.atPunct _).bind fun _ => .ite
    (h.block.bind fun _ => .span fun _ => by simp [move, Stmt.move, Stmt.moveAll_eq]) <|
  (Moves.eatPunct _).bind fun _ => .ite (.span fun _ => rfl) <|
  (Moves.eatKeyword _).bind fun _ => .ite
    (h.valueBeforeSemicolon.bind fun _ => (Moves.expectPunct _).bind fun _ => .span fun _ => rfl) <|
  (Moves.eatKeyword _).bind fun _ => .ite (h.ifRule start) <|
  (Moves.eatKeyword _).bind fun _ => .ite (h.whileRule start) <|
  (Moves.eatKeyword _).bind fun _ => .ite (h.forRule start) ?_
  exact h.localsOr Stmt.locals (fun _ _ _ => rfl) hexpr

end Moving

theorem moving_layered (depth : Nat) : (layered depth).Moving f := by
  induction depth with
  | zero => exact ⟨.fail, .fail, fun _ => .fail, .fail⟩
  | succ depth ih => exact ⟨ih.exprRule, ih.operandRule, ih.chainRule, ih.stmtRule⟩

end Grammar

/-! ### Declarations -/

namespace Parser

theorem moves_usingAlias? : Moves f usingAlias? usingAlias? :=
  (Moves.at2? (fun _ => rfl) fun _ => rfl).bind fun _ => .ite
    (Moves.expectIdent.bind fun _ => Moves.advance.bind fun _ => .pure rfl) (.pure rfl)

theorem moves_usingLine (start : Nat) (isGlobal : Bool) :
    Moves f (usingLine start isGlobal) (usingLine (f start) isGlobal) :=
  (Moves.eatKeyword _).bind fun _ => moves_usingAlias?.bind fun _ => moves_qualifiedName.bind fun _ =>
    (Moves.expectPunct _).bind fun _ => .span fun _ => rfl

theorem moves_using? : Moves f using? using? := by
  refine Moves.offset.bind fun start => (Moves.at2? (fun _ => rfl) fun _ => rfl).bind fun isGlobal => ?_
  have hline : Moves f (Parser.eatKeyword "using" >>= fun b =>
      if b then some <$> usingLine start isGlobal else Pure.pure none)
      (Parser.eatKeyword "using" >>= fun b =>
        if b then some <$> usingLine (f start) isGlobal else Pure.pure none) :=
    (Moves.eatKeyword _).bind fun _ => .ite (moves_usingLine start isGlobal).just (.pure rfl)
  exact .ite (Moves.advance.bind fun _ => hline) hline

theorem moves_usings : Moves f usings usings := moves_using?.many

theorem moves_oneAttribute : Moves f oneAttribute oneAttribute :=
  Moves.offset.bind fun _ => moves_qualifiedName.bind fun _ => (Moves.atPunct _).bind fun _ =>
    .ite ((Moves.skipGroup _ _).bind fun _ => .span fun _ => rfl) (.span fun _ => rfl)

theorem moves_attributes : Moves f attributes attributes := by
  refine Moves.map (Moves.many ?_) fun as => (move_flatten f as).symm
  exact (Moves.eatPunct _).bind fun _ => .ite
    (moves_oneAttribute.commaList.bind fun _ => (Moves.expectPunct _).bind fun _ => .pure rfl) (.pure rfl)

theorem moves_modifiers : Moves f modifiers modifiers := by
  refine Moves.many ((Moves.ask fun s _ => ?_).bind fun t => ?_)
  · rw [s.first?_move f, s.second?_move f]
    cases s.first? with
    | none => rfl
    | some t =>
      have hmodifier : isModifier (move f t) (move f s.second?) = isModifier t s.second? := by
        cases s.second? <;> rfl
      simp only [move_some, Option.filter_some, hmodifier]
      split <;> rfl
  · cases t with
    | none => exact .pure rfl
    | some t => exact Moves.advance.bind fun _ => .pure rfl

/-- What depends on modifiers, which have no places. -/
theorem Moves.modifiers {α : Type} [Movable α] {k l : List String → Parser α}
    (h : ∀ words, Moves f (k words) (l words)) :
    Moves f (Parser.modifiers >>= k) (Parser.modifiers >>= l) := by
  refine moves_modifiers.bind fun words => ?_
  rw [move_strings]
  exact h words

theorem moves_bases : Moves f bases bases :=
  (Moves.eatPunct _).bind fun _ => .ite moves_type.commaList (.pure rfl)

end Parser

namespace Grammar

theorem moves_typeForm : Moves f typeForm typeForm :=
  (Moves.eatKeyword _).bind fun _ => .ite (.pure rfl) <|
  (Moves.eatKeyword _).bind fun _ => .ite (.pure rfl) <|
  (Moves.eatKeyword _).bind fun _ => .ite (.pure rfl) .fail

theorem moves_namespaceDecl {members : Parser (List NamespaceMember)} (hm : Moves f members members) :
    Moves f (namespaceDecl members) (namespaceDecl members) := by
  refine Moves.offset.bind fun _ => Moves.advance.bind fun _ => moves_qualifiedName.bind fun _ =>
    Moves.bind ?_ fun _ => moves_usings.bind fun _ => hm.bind fun _ => Moves.bind ?_ fun _ =>
      .span fun _ => by simp [move, NamespaceMember.move, NamespaceMember.moveAll_eq]
  · exact (Moves.eatPunct _).bind fun _ => .ite (.pure rfl) <| (Moves.expectPunct _).bind fun _ => .pure rfl
  · exact .ite (.pure rfl) (Moves.expectPunct _)

theorem moves_initializer : Moves f initializer initializer :=
  (Moves.eatPunct _).bind fun _ => .ite
    (Moves.advance.bind fun _ => Moves.skipGroup _ _) (.pure rfl)

namespace Moving

variable {g : Grammar} (h : g.Moving f)

include h

theorem parameter : Moves f g.parameter g.parameter :=
  moves_attributes.bind fun _ => (moves_passing? _).many.bind fun _ => moves_type.bind fun _ =>
    Moves.expectIdent.bind fun _ => Moves.bind ((Moves.eatPunct _).bind fun _ => .ite
      (h.expr.bind fun _ => .pure rfl) (.pure rfl)) fun _ => .pure rfl

theorem parameters : Moves f g.parameters g.parameters :=
  (Moves.expectPunct _).bind fun _ => (Moves.eatPunct _).bind fun _ => .ite (.pure rfl) <|
    h.parameter.commaList.bind fun _ => (Moves.expectPunct _).bind fun _ => .pure rfl

theorem body : Moves f g.body g.body :=
  (Moves.eatPunct _).bind fun _ => .ite (.pure rfl) <|
  (Moves.eatPunct _).bind fun _ => .ite
    (h.expr.bind fun _ => (Moves.expectPunct _).bind fun _ => .pure rfl) <|
  Moves.offset.bind fun _ => h.block.bind fun _ => .span fun _ => rfl

theorem accessors : Moves f g.accessors g.accessors := by
  refine (Moves.expectPunct _).bind fun _ => Moves.many <| (Moves.eatPunct _).bind fun _ =>
    .ite (.pure rfl) <| moves_attributes.bind fun _ => Moves.modifiers fun _ =>
      (Moves.spelled (fun _ => rfl) fun _ => rfl).bind fun kind => ?_
  cases kind with
  | none => exact .fail
  | some kind => exact Moves.advance.bind fun _ => h.body.bind fun _ => .pure rfl

theorem propertyValue? : Moves f g.propertyValue? g.propertyValue? :=
  (Moves.eatPunct _).bind fun _ => .ite
    (h.expr.bind fun _ => (Moves.expectPunct _).bind fun _ => .pure rfl) (.pure rfl)

theorem memberRest (start : Nat) (as : List Attribute) (ms : List String) (type : TypeExpr) (name : Ident) :
    Moves f (g.memberRest start as ms type name)
      (g.memberRest (f start) (move f as) ms (move f type) (move f name)) :=
  (Moves.atPunct _).bind fun _ => .ite
    (h.parameters.bind fun _ => h.body.bind fun _ => .span fun _ => rfl) <|
  (Moves.eatPunct _).bind fun _ => .ite
    (h.expr.bind fun _ => (Moves.expectPunct _).bind fun _ => .span fun _ => rfl) <|
  (Moves.atPunct _).bind fun _ => .ite
    (h.accessors.bind fun _ => h.propertyValue?.bind fun _ => .span fun _ => rfl) <|
  (h.declarators name).bind fun _ => (Moves.expectPunct _).bind fun _ => .span fun _ => rfl

theorem memberDecl (typeName : String) : Moves f (g.memberDecl typeName) (g.memberDecl typeName) :=
  Moves.offset.bind fun start => moves_attributes.bind fun as => Moves.modifiers fun words =>
  (Moves.atKeywords _).bind fun _ => .ite .fail <|
  (Moves.at2? (fun _ => rfl) fun _ => rfl).bind fun _ => .ite
    (Moves.expectIdent.bind fun _ => h.parameters.bind fun _ => moves_initializer.bind fun _ =>
      h.body.bind fun _ => .span fun _ => rfl) <|
  moves_type.bind fun type => Moves.expectIdent.bind fun name => h.memberRest start as words type name

theorem member? (typeName : String) : Moves f (g.member? typeName) (g.member? typeName) :=
  (Moves.eatPunct _).bind fun _ => .ite (.pure rfl) <|
    Moves.atEnd.bind fun _ => .ite .fail (h.memberDecl typeName).just

theorem typeDecl : Moves f g.typeDecl g.typeDecl :=
  Moves.offset.bind fun _ => moves_attributes.bind fun _ => Moves.modifiers fun _ =>
  moves_typeForm.bind fun _ => Moves.expectIdent.bind fun name => moves_bases.bind fun _ =>
  (Moves.expectPunct _).bind fun _ => (h.member? name.name).many.bind fun _ =>
  (Moves.eatPunct _).bind fun _ => .span fun _ => rfl

theorem namespaceMembers (depth : Nat) : Moves f (g.namespaceMembers depth) (g.namespaceMembers depth) := by
  induction depth with
  | zero => exact .fail
  | succ depth ih =>
    have htype : Moves f (NamespaceMember.typeDecl <$> g.typeDecl) (NamespaceMember.typeDecl <$> g.typeDecl) :=
      h.typeDecl.map fun _ => rfl
    exact .many <| Moves.atEnd.bind fun _ => (Moves.atPunct _).bind fun _ => .ite (.pure rfl) <|
      (Moves.atKeyword _).bind fun _ => .ite (moves_namespaceDecl ih).just htype.just

end Moving

end Grammar

namespace Parser

theorem moves_compilationUnit (depth : Nat) (hf : f 0 = 0) :
    Moves f (compilationUnit depth) (compilationUnit depth) := by
  refine moves_usings.bind fun _ => ((Grammar.moving_layered depth).namespaceMembers depth).bind fun _ =>
    Moves.atEnd.bind fun _ => .ite ?_ .fail
  have hspan (size : Nat) : Span.ofLength 0 (f size) = move f (Span.ofLength 0 size) := by
    simp [Span.ofLength, move, hf]
  have hsize : Moves f (Parser.ask Cursor.size) (Parser.ask Cursor.size) := .ask fun _ _ => rfl
  exact hsize.bind fun size => .pure (congrArg _ (hspan size))

end Parser

end CultureLint
