import CultureLint.Proofs.Document.Places

/-! Looking up an expression by its span. What a document holds is said field by field, for every form of
expression, statement and declaration. Main statement: the walk through a document that was read meets each
expression that the document holds, once, and the look-up of a span finds the one that has it. -/

namespace CultureLint

/-! ### What a tree holds -/

/-- The expression is another one, or stands in one of its fields. -/
inductive Expr.Holds : Expr → Expr → Prop
  | self (e : Expr) : Holds e e
  | inner {node : Node} {inner c : Expr} (h : Holds inner c) : Holds (.parenthesized node inner) c
  | receiver {node : Node} {receiver c : Expr} {name : Ident} (h : Holds receiver c) :
      Holds (.memberAccess node receiver name) c
  | callee {node : Node} {callee c : Expr} {arguments : List Expr} (h : Holds callee c) :
      Holds (.invocation node callee arguments) c
  | callArgument {node : Node} {callee c a : Expr} {arguments : List Expr} (ha : a ∈ arguments)
      (h : Holds a c) : Holds (.invocation node callee arguments) c
  | indexed {node : Node} {receiver c : Expr} {arguments : List Expr} (h : Holds receiver c) :
      Holds (.elementAccess node receiver arguments) c
  | index {node : Node} {receiver c a : Expr} {arguments : List Expr} (ha : a ∈ arguments)
      (h : Holds a c) : Holds (.elementAccess node receiver arguments) c
  | creationArgument {node : Node} {type : TypeExpr} {c a : Expr} {arguments : List Expr}
      (ha : a ∈ arguments) (h : Holds a c) : Holds (.objectCreation node type arguments) c
  | unary {node : Node} {op : UnaryOp} {operand c : Expr} (h : Holds operand c) :
      Holds (.unary node op operand) c
  | step {node : Node} {increment : Bool} {operand c : Expr} (h : Holds operand c) :
      Holds (.step node increment operand) c
  | cast {node : Node} {type : TypeExpr} {operand c : Expr} (h : Holds operand c) :
      Holds (.cast node type operand) c
  | left {node : Node} {op : BinaryOp} {left right c : Expr} (h : Holds left c) :
      Holds (.binary node op left right) c
  | right {node : Node} {op : BinaryOp} {left right c : Expr} (h : Holds right c) :
      Holds (.binary node op left right) c
  | target {node : Node} {op : AssignOp} {target value c : Expr} (h : Holds target c) :
      Holds (.assignment node op target value) c
  | value {node : Node} {op : AssignOp} {target value c : Expr} (h : Holds value c) :
      Holds (.assignment node op target value) c
  | condition {node : Node} {condition whenTrue whenFalse c : Expr} (h : Holds condition c) :
      Holds (.conditional node condition whenTrue whenFalse) c
  | whenTrue {node : Node} {condition whenTrue whenFalse c : Expr} (h : Holds whenTrue c) :
      Holds (.conditional node condition whenTrue whenFalse) c
  | whenFalse {node : Node} {condition whenTrue whenFalse c : Expr} (h : Holds whenFalse c) :
      Holds (.conditional node condition whenTrue whenFalse) c

section

variable (c : Expr)

/-- The expression stands in the initial value of a declared variable. -/
def Declarator.Holds (d : Declarator) : Prop := ∃ e, d.value = some e ∧ e.Holds c

/-- The expression stands in what a `for` does first. -/
inductive ForStart.Holds : ForStart → Prop
  | declarator {type : TypeExpr} {declarators : List Declarator} {span : Span} {d : Declarator}
      (hd : d ∈ declarators) (h : d.Holds c) : Holds (.locals type declarators span)
  | expression {value : Expr} (h : value.Holds c) : Holds (.expression value)

/-- The expression stands in a statement. -/
inductive Stmt.Holds : Stmt → Prop
  | statement {statements : List Stmt} {span : Span} {s : Stmt} (hs : s ∈ statements) (h : Holds s) :
      Holds (.block statements span)
  | declarator {type : TypeExpr} {declarators : List Declarator} {span : Span} {d : Declarator}
      (hd : d ∈ declarators) (h : d.Holds c) : Holds (.locals type declarators span)
  | expression {value : Expr} (h : value.Holds c) : Holds (.expression value)
  | returned {value : Expr} {span : Span} (h : value.Holds c) : Holds (.ret (some value) span)
  | thenCondition {condition : Expr} {whenTrue : Stmt} {span : Span} (h : condition.Holds c) :
      Holds (.ifThen condition whenTrue span)
  | thenBranch {condition : Expr} {whenTrue : Stmt} {span : Span} (h : Holds whenTrue) :
      Holds (.ifThen condition whenTrue span)
  | elseCondition {condition : Expr} {whenTrue whenFalse : Stmt} {span : Span} (h : condition.Holds c) :
      Holds (.ifElse condition whenTrue whenFalse span)
  | trueBranch {condition : Expr} {whenTrue whenFalse : Stmt} {span : Span} (h : Holds whenTrue) :
      Holds (.ifElse condition whenTrue whenFalse span)
  | falseBranch {condition : Expr} {whenTrue whenFalse : Stmt} {span : Span} (h : Holds whenFalse) :
      Holds (.ifElse condition whenTrue whenFalse span)
  | whileCondition {condition : Expr} {body : Stmt} {span : Span} (h : condition.Holds c) :
      Holds (.whileLoop condition body span)
  | whileBody {condition : Expr} {body : Stmt} {span : Span} (h : Holds body) :
      Holds (.whileLoop condition body span)
  | forStart {start : ForStart} {condition : Option Expr} {iterators : List Expr} {body : Stmt} {span : Span}
      (h : start.Holds c) : Holds (.forLoop start condition iterators body span)
  | forCondition {start : ForStart} {condition : Expr} {iterators : List Expr} {body : Stmt} {span : Span}
      (h : condition.Holds c) : Holds (.forLoop start (some condition) iterators body span)
  | forIterator {start : ForStart} {condition : Option Expr} {iterators : List Expr} {body : Stmt} {span : Span}
      {e : Expr} (he : e ∈ iterators) (h : e.Holds c) : Holds (.forLoop start condition iterators body span)
  | forBody {start : ForStart} {condition : Option Expr} {iterators : List Expr} {body : Stmt} {span : Span}
      (h : Holds body) : Holds (.forLoop start condition iterators body span)

/-- The expression stands in the body of a method or accessor. -/
inductive Body.Holds : Body → Prop
  | statement {statements : List Stmt} {span : Span} {s : Stmt} (hs : s ∈ statements) (h : s.Holds c) :
      Holds (.block statements span)
  | arrow {value : Expr} (h : value.Holds c) : Holds (.arrow value)

/-- The expression stands in an accessor of a property, or behind its arrow. -/
inductive PropertyBody.Holds : PropertyBody → Prop
  | accessor {items : List Accessor} {kind : AccessorKind} {body : Body} (ha : ⟨kind, some body⟩ ∈ items)
      (h : body.Holds c) : Holds (.accessors items)
  | arrow {value : Expr} (h : value.Holds c) : Holds (.arrow value)

/-- The expression stands in a member of a type. -/
inductive MemberDecl.Holds : MemberDecl → Prop
  | field {decl : FieldDecl} {d : Declarator} (hd : d ∈ decl.declarators) (h : d.Holds c) :
      Holds (.field decl)
  | propertyBody {decl : PropertyDecl} (h : decl.body.Holds c) : Holds (.property decl)
  | propertyValue {decl : PropertyDecl} {value : Expr} (hv : decl.value = some value) (h : value.Holds c) :
      Holds (.property decl)
  | method {decl : MethodDecl} {body : Body} (hb : decl.body = some body) (h : body.Holds c) :
      Holds (.method decl)

/-- The expression stands in a namespace or type. -/
inductive NamespaceMember.Holds : NamespaceMember → Prop
  | member {decl : TypeDecl} {m : MemberDecl} (hm : m ∈ decl.members) (h : m.Holds c) : Holds (.typeDecl decl)
  | inner {name : QualifiedName} {fileScoped : Bool} {usings : List Using} {members : List NamespaceMember}
      {span : Span} {m : NamespaceMember} (hm : m ∈ members) (h : Holds m) :
      Holds (.namespaceDecl name fileScoped usings members span)

/-- The expression stands in a document. -/
def CompilationUnit.Holds (unit : CompilationUnit) : Prop := ∃ m ∈ unit.members, m.Holds c

end

/-! ### What the walk meets -/

/-- A walk meets an expression, at some depth. -/
def Meets (visited : List (Expr × Nat)) (c : Expr) : Prop := ∃ depth, (c, depth) ∈ visited

section

variable {c : Expr}

@[simp] theorem not_meets_nil : ¬ Meets [] c := by simp [Meets]

@[simp] theorem meets_append {v w : List (Expr × Nat)} : Meets (v ++ w) c ↔ Meets v c ∨ Meets w c := by
  simp [Meets, exists_or]

@[simp] theorem meets_flatMap {α : Type} {as : List α} {walk : α → List (Expr × Nat)} :
    Meets (as.flatMap walk) c ↔ ∃ a ∈ as, Meets (walk a) c := by
  simp only [Meets, List.mem_flatMap]
  constructor
  · rintro ⟨depth, a, ha, h⟩
    exact ⟨a, ha, depth, h⟩
  · rintro ⟨a, ha, depth, h⟩
    exact ⟨depth, a, ha, h⟩

@[simp] theorem meets_option {α : Type} {a : Option α} {walk : α → List (Expr × Nat)} :
    Meets ((a.map walk).getD []) c ↔ ∃ b, a = some b ∧ Meets (walk b) c := by
  cases a <;> simp

/-- An expression that stands in a part stands in the whole. -/
theorem Expr.Holds.of_mem_children {e d : Expr} (hd : d ∈ e.children) (h : d.Holds c) : e.Holds c := by
  cases e with
  | literal | name | primitive | this => simp [children] at hd
  | parenthesized =>
    obtain rfl := List.mem_singleton.1 hd
    exact .inner h
  | memberAccess =>
    obtain rfl := List.mem_singleton.1 hd
    exact .receiver h
  | invocation =>
    obtain rfl | hd := List.mem_cons.1 hd
    · exact .callee h
    · exact .callArgument hd h
  | elementAccess =>
    obtain rfl | hd := List.mem_cons.1 hd
    · exact .indexed h
    · exact .index hd h
  | objectCreation => exact .creationArgument hd h
  | unary =>
    obtain rfl := List.mem_singleton.1 hd
    exact .unary h
  | step =>
    obtain rfl := List.mem_singleton.1 hd
    exact .step h
  | cast =>
    obtain rfl := List.mem_singleton.1 hd
    exact .cast h
  | binary =>
    simp only [children, List.mem_cons, List.not_mem_nil, or_false] at hd
    obtain rfl | rfl := hd
    · exact .left h
    · exact .right h
  | assignment =>
    simp only [children, List.mem_cons, List.not_mem_nil, or_false] at hd
    obtain rfl | rfl := hd
    · exact .target h
    · exact .value h
  | conditional =>
    simp only [children, List.mem_cons, List.not_mem_nil, or_false] at hd
    obtain rfl | rfl | rfl := hd
    · exact .condition h
    · exact .whenTrue h
    · exact .whenFalse h

theorem Expr.mem_within_iff_holds {e : Expr} : c ∈ e.within ↔ e.Holds c := by
  constructor
  · intro h
    induction e using induction_on_parts with
    | h e ih =>
      obtain rfl | ⟨d, hd, h⟩ := mem_within_iff.1 h
      · exact .self _
      · exact .of_mem_children hd (ih d hd h)
  · intro h
    induction h with
    | self e => exact e.mem_within_self
    | callArgument ha _ ih | index ha _ ih | creationArgument ha _ ih =>
      exact mem_within_trans ih (mem_within_of_mem_children (by simp [children, ha]))
    | _ _ ih => exact mem_within_trans ih (mem_within_of_mem_children (by simp [children]))

@[simp] theorem Expr.meets_walk {e : Expr} {depth : Nat} : Meets (e.walk depth) c ↔ e.Holds c := by
  rw [← mem_within_iff_holds, ← walk_map_fst depth, List.mem_map]
  simp [Meets]

@[simp] theorem Declarator.meets_walk {d : Declarator} : Meets d.walk c ↔ d.Holds c := by
  simp [walk, Holds]

@[simp] theorem ForStart.meets_walk {start : ForStart} : Meets start.walk c ↔ start.Holds c := by
  cases start with
  | nothing => exact iff_of_false not_meets_nil nofun
  | locals type declarators span =>
    rw [walk, meets_flatMap]
    constructor
    · rintro ⟨d, hd, h⟩
      exact .declarator hd (Declarator.meets_walk.1 h)
    · rintro (⟨hd, h⟩)
      exact ⟨_, hd, Declarator.meets_walk.2 h⟩
  | expression value =>
    rw [walk, Expr.meets_walk]
    exact ⟨.expression, fun | .expression h => h⟩

theorem Stmt.walkAll_eq_flatMap (ss : List Stmt) : walkAll ss = ss.flatMap walk := by
  induction ss with
  | nil => rfl
  | cons s ss ih => simp [walkAll, ih]

mutual

/-- What the walk through a statement meets stands in it. -/
theorem Stmt.holds_of_meets : (s : Stmt) → Meets s.walk c → s.Holds c
  | .block statements _, h => by
    obtain ⟨s, hs, h⟩ := holdsAll_of_meets statements (by simpa [walk] using h)
    exact .statement hs h
  | .locals _ _ _, h => by
    obtain ⟨d, hd, h⟩ := meets_flatMap.1 h
    exact .declarator hd (Declarator.meets_walk.1 h)
  | .expression _, h => .expression (Expr.meets_walk.1 h)
  | .ret value _, h => by
    obtain ⟨e, rfl, h⟩ := meets_option.1 h
    exact .returned (Expr.meets_walk.1 h)
  | .ifThen condition whenTrue _, h => by
    rw [walk, meets_append] at h
    obtain h | h := h
    · exact .thenCondition (Expr.meets_walk.1 h)
    · exact .thenBranch (holds_of_meets whenTrue h)
  | .ifElse condition whenTrue whenFalse _, h => by
    rw [walk, meets_append, meets_append] at h
    obtain (h | h) | h := h
    · exact .elseCondition (Expr.meets_walk.1 h)
    · exact .trueBranch (holds_of_meets whenTrue h)
    · exact .falseBranch (holds_of_meets whenFalse h)
  | .whileLoop condition body _, h => by
    rw [walk, meets_append] at h
    obtain h | h := h
    · exact .whileCondition (Expr.meets_walk.1 h)
    · exact .whileBody (holds_of_meets body h)
  | .forLoop start condition iterators body _, h => by
    rw [walk, meets_append, meets_append, meets_append, meets_option, meets_flatMap] at h
    obtain ((h | ⟨e, rfl, h⟩) | ⟨e, he, h⟩) | h := h
    · exact .forStart (ForStart.meets_walk.1 h)
    · exact .forCondition (Expr.meets_walk.1 h)
    · exact .forIterator he (Expr.meets_walk.1 h)
    · exact .forBody (holds_of_meets body h)
  | .empty _, h => absurd h not_meets_nil

theorem Stmt.holdsAll_of_meets : (ss : List Stmt) → Meets (walkAll ss) c → ∃ s ∈ ss, s.Holds c
  | [], h => absurd h not_meets_nil
  | s :: ss, h => by
    rw [walkAll, meets_append] at h
    obtain h | h := h
    · exact ⟨s, List.mem_cons_self .., holds_of_meets s h⟩
    · obtain ⟨t, ht, h⟩ := holdsAll_of_meets ss h
      exact ⟨t, List.mem_cons_of_mem _ ht, h⟩

end

@[simp] theorem Stmt.meets_walk {s : Stmt} : Meets s.walk c ↔ s.Holds c := by
  refine ⟨s.holds_of_meets, fun h => ?_⟩
  induction h with
  | statement hs _ ih =>
    rw [walk, walkAll_eq_flatMap, meets_flatMap]
    exact ⟨_, hs, ih⟩
  | declarator hd h =>
    rw [walk, meets_flatMap]
    exact ⟨_, hd, Declarator.meets_walk.2 h⟩
  | forIterator he h =>
    rw [walk, meets_append, meets_append, meets_flatMap]
    exact .inl (.inr ⟨_, he, Expr.meets_walk.2 h⟩)
  | _ => simp [walk, *]

@[simp] theorem Body.meets_walk {b : Body} : Meets b.walk c ↔ b.Holds c := by
  cases b with
  | block statements span =>
    rw [walk, Stmt.walkAll_eq_flatMap, meets_flatMap]
    constructor
    · rintro ⟨s, hs, h⟩
      exact .statement hs (Stmt.meets_walk.1 h)
    · rintro (⟨hs, h⟩)
      exact ⟨_, hs, Stmt.meets_walk.2 h⟩
  | arrow value =>
    rw [walk, Expr.meets_walk]
    exact ⟨.arrow, fun | .arrow h => h⟩

@[simp] theorem PropertyBody.meets_walk {b : PropertyBody} : Meets b.walk c ↔ b.Holds c := by
  cases b with
  | accessors items =>
    simp only [walk, Accessor.walk, meets_flatMap, meets_option, Body.meets_walk]
    constructor
    · rintro ⟨⟨kind, _⟩, ha, body, rfl, h⟩
      exact .accessor ha h
    · rintro (⟨ha, h⟩)
      exact ⟨_, ha, _, rfl, h⟩
  | arrow value =>
    rw [walk, Expr.meets_walk]
    exact ⟨.arrow, fun | .arrow h => h⟩

@[simp] theorem MemberDecl.meets_walk {m : MemberDecl} : Meets m.walk c ↔ m.Holds c := by
  cases m with
  | field decl =>
    simp only [walk, meets_flatMap, Declarator.meets_walk]
    exact ⟨fun ⟨_, hd, h⟩ => .field hd h, fun | .field hd h => ⟨_, hd, h⟩⟩
  | property decl =>
    simp only [walk, meets_append, meets_option, PropertyBody.meets_walk, Expr.meets_walk]
    constructor
    · rintro (h | ⟨value, hv, h⟩)
      · exact .propertyBody h
      · exact .propertyValue hv h
    · rintro (_ | h | ⟨hv, h⟩)
      · exact .inl h
      · exact .inr ⟨_, hv, h⟩
  | method decl =>
    simp only [walk, meets_option, Body.meets_walk]
    exact ⟨fun ⟨_, hb, h⟩ => .method hb h, fun | .method hb h => ⟨_, hb, h⟩⟩

namespace NamespaceMember

theorem walkAll_eq_flatMap (ms : List NamespaceMember) : walkAll ms = ms.flatMap walk := by
  induction ms with
  | nil => rfl
  | cons m ms ih => simp [walkAll, ih]

mutual

/-- What the walk through a namespace or type meets stands in it. -/
theorem holds_of_meets : (m : NamespaceMember) → Meets m.walk c → m.Holds c
  | .namespaceDecl _ _ _ members _, h => by
    obtain ⟨m, hm, h⟩ := holdsAll_of_meets members (by simpa [walk] using h)
    exact .inner hm h
  | .typeDecl _, h => by
    obtain ⟨m, hm, h⟩ := meets_flatMap.1 h
    exact .member hm (MemberDecl.meets_walk.1 h)

theorem holdsAll_of_meets : (ms : List NamespaceMember) → Meets (walkAll ms) c → ∃ m ∈ ms, m.Holds c
  | [], h => absurd h not_meets_nil
  | m :: ms, h => by
    rw [walkAll, meets_append] at h
    obtain h | h := h
    · exact ⟨m, List.mem_cons_self .., holds_of_meets m h⟩
    · obtain ⟨n, hn, h⟩ := holdsAll_of_meets ms h
      exact ⟨n, List.mem_cons_of_mem _ hn, h⟩

end

theorem meets_walk {m : NamespaceMember} : Meets m.walk c ↔ m.Holds c := by
  refine ⟨m.holds_of_meets, fun h => ?_⟩
  induction h with
  | member hm h =>
    rw [walk, meets_flatMap]
    exact ⟨_, hm, MemberDecl.meets_walk.2 h⟩
  | inner hm _ ih =>
    rw [walk, walkAll_eq_flatMap, meets_flatMap]
    exact ⟨_, hm, ih⟩

end NamespaceMember

/-- The walk through a document meets what the document holds. -/
theorem CompilationUnit.meets_walk {unit : CompilationUnit} : Meets unit.walk c ↔ unit.Holds c := by
  rw [walk, NamespaceMember.walkAll_eq_flatMap, meets_flatMap]
  simp only [NamespaceMember.meets_walk, Holds]

end

/-! ### Looking up -/

namespace SourceTree

variable {text : String} {tree : SourceTree}

/-- No expression of a document is met twice. -/
theorem nodup_walk (h : ofText text = .ok tree) : (tree.unit.walk.map Prod.fst).Nodup := by
  obtain ⟨lexed, hl, hu, -⟩ := ofText_eq_ok.1 h
  have hids := (readFrom hl hu).1.nodup_ids
  refine List.Nodup.of_map Expr.id ?_
  rwa [List.map_map]

/-- Looking up a span finds the expression of the document that has it, and nothing where there is none. The
walk meets each expression that the document holds at just one step, and looking up its span finds it. -/
theorem expressionAt?_eq_some_iff_holds (h : ofText text = .ok tree) :
    (∀ span e, tree.expressionAt? span = some e ↔ tree.unit.Holds e ∧ e.span = span) ∧
    ∀ e, tree.unit.Holds e →
      (∃! i : Nat, (tree.unit.walk.map Prod.fst)[i]? = some e) ∧ tree.expressionAt? e.span = some e := by
  have found (e : Expr) (he : tree.unit.Holds e) : tree.expressionAt? e.span = some e := by
    obtain ⟨depth, he⟩ := CompilationUnit.meets_walk.2 he
    exact expressionAt?_eq_some h he
  refine ⟨fun span e => ⟨fun hfound => ?_, ?_⟩, fun e he => ⟨?_, found e he⟩⟩
  · obtain ⟨he, hspan⟩ := mem_walk_of_expressionAt? hfound
    exact ⟨CompilationUnit.meets_walk.1 he, hspan⟩
  · rintro ⟨he, rfl⟩
    exact found e he
  · obtain ⟨depth, he⟩ := CompilationUnit.meets_walk.2 he
    obtain ⟨i, hi⟩ := List.mem_iff_getElem?.1 (List.mem_map_of_mem (f := Prod.fst) he)
    refine ⟨i, hi, fun j hj => ?_⟩
    obtain ⟨hlt, -⟩ := List.getElem?_eq_some_iff.1 hj
    exact (List.getElem?_inj hlt (nodup_walk h)).1 (hj.trans hi.symm)

/-- A property with a loop in its accessor and with an initial value. -/
def loopText : String := "class A{int P{get{for(int i=0;;i++)return f(-i);}}=2;}"

theorem expressionAt?_eq_some_iff_holds_loop : ∃ tree e, ofText loopText = .ok tree ∧ tree.unit.Holds e ∧
    e.span = ⟨44, 46, by decide⟩ ∧ (∃! i : Nat, (tree.unit.walk.map Prod.fst)[i]? = some e) ∧
    tree.expressionAt? e.span = some e := by
  have found : ((ofText loopText).toOption.any fun tree =>
      (tree.expressionAt? ⟨44, 46, by decide⟩).isSome) = true := by decide +kernel
  cases h : ofText loopText with
  | error e => simp [h, Except.toOption] at found
  | ok tree =>
    simp only [h, Except.toOption, Option.any_some] at found
    obtain ⟨e, he⟩ := Option.isSome_iff_exists.1 found
    obtain ⟨hiff, hheld⟩ := expressionAt?_eq_some_iff_holds h
    obtain ⟨hholds, hspan⟩ := (hiff _ e).1 he
    exact ⟨tree, e, rfl, hholds, hspan, hheld e hholds⟩

end SourceTree

end CultureLint
