import CultureLint.Tree.Decl

/-! Trees without their places. Two documents that differ only in blanks, comments and what stands
before a piece of code give the same tree but for the spans and the numbers of the expressions; `bare`
sets all of those to zero, so that equality of bare trees is equality up to places. -/

namespace CultureLint

/-- Values that may hold spans and numbers of expressions, and what is left without them. -/
class Bare (α : Type) where
  bare : α → α

export Bare (bare)

/-! ### Results of parsers that are no trees -/

instance : Bare Unit := ⟨id⟩
instance : Bare Bool := ⟨id⟩
instance : Bare String := ⟨id⟩
instance : Bare TypeForm := ⟨id⟩
instance : Bare Primitive := ⟨id⟩
instance : Bare AccessorKind := ⟨id⟩
instance : Bare BinaryOp := ⟨id⟩
instance : Bare UnaryOp := ⟨id⟩
instance : Bare AssignOp := ⟨id⟩

/-- The numbers that parsers hand on are offsets. -/
instance : Bare Nat := ⟨fun _ => 0⟩

instance : Bare Span := ⟨fun _ => Span.empty 0⟩

instance : Bare Node := ⟨fun _ => ⟨0, Span.empty 0⟩⟩

/-- Of a token its class and its text are left. -/
instance : Bare Token := ⟨fun t => ⟨0, t.kind, t.text, 0⟩⟩

instance {α : Type} [Bare α] : Bare (List α) := ⟨List.map bare⟩

instance {α : Type} [Bare α] : Bare (Option α) := ⟨Option.map bare⟩

instance {α β : Type} [Bare α] [Bare β] : Bare (α × β) := ⟨Prod.map bare bare⟩

@[simp] theorem bare_unit (a : Unit) : bare a = a := rfl

@[simp] theorem bare_bool (a : Bool) : bare a = a := rfl

@[simp] theorem bare_string (a : String) : bare a = a := rfl

@[simp] theorem bare_typeForm (a : TypeForm) : bare a = a := rfl

@[simp] theorem bare_accessorKind (a : AccessorKind) : bare a = a := rfl

@[simp] theorem bare_span (a b : Span) : (bare a = bare b) = True := eq_true rfl

@[simp] theorem bare_node (a b : Node) : (bare a = bare b) = True := eq_true rfl

@[simp] theorem bare_nat (a b : Nat) : (bare a = bare b) = True := eq_true rfl

section

variable {α : Type} [Bare α]

@[simp] theorem bare_nil : bare ([] : List α) = [] := rfl

@[simp] theorem bare_cons (a : α) (as : List α) : bare (a :: as) = bare a :: bare as := rfl

@[simp] theorem bare_append (as bs : List α) : bare (as ++ bs) = bare as ++ bare bs :=
  List.map_append

@[simp] theorem bare_none : bare (none : Option α) = none := rfl

@[simp] theorem bare_some (a : α) : bare (some a) = some (bare a) := rfl

theorem bare_flatten {as bs : List (List α)} (h : bare as = bare bs) :
    bare as.flatten = bare bs.flatten := by
  have flat (cs : List (List α)) : bare cs.flatten = (bare cs).flatten := List.map_flatten
  rw [flat, flat, h]

end

@[simp] theorem bare_pair {α β : Type} [Bare α] [Bare β] (a : α) (b : β) :
    bare (a, b) = (bare a, bare b) := rfl

/-! ### Names and types -/

instance : Bare Ident := ⟨fun i => ⟨i.name, Span.empty 0⟩⟩

instance : Bare QualifiedName := ⟨fun n => ⟨n.global, bare n.head, bare n.tail, Span.empty 0⟩⟩

namespace TypeExpr

def bare : TypeExpr → TypeExpr
  | .primitive type _ => .primitive type (Span.empty 0)
  | .named name => .named (Bare.bare name)
  | .nullable of _ => .nullable of.bare (Span.empty 0)
  | .array of _ => .array of.bare (Span.empty 0)
  | .implicit _ => .implicit (Span.empty 0)

instance : Bare TypeExpr := ⟨TypeExpr.bare⟩

theorem isPrimitiveBased_bare (type : TypeExpr) :
    type.bare.isPrimitiveBased = type.isPrimitiveBased := by
  induction type with
  | nullable of _ ih => exact ih
  | array of _ ih => exact ih
  | primitive => rfl
  | named => rfl
  | implicit => rfl

end TypeExpr

/-! ### Expressions -/

namespace Expr

mutual

/-- An expression without numbers and places. -/
def bare : Expr → Expr
  | .literal _ kind text => .literal ⟨0, Span.empty 0⟩ kind text
  | .name _ word => .name ⟨0, Span.empty 0⟩ word
  | .primitive _ type => .primitive ⟨0, Span.empty 0⟩ type
  | .this _ => .this ⟨0, Span.empty 0⟩
  | .parenthesized _ inner => .parenthesized ⟨0, Span.empty 0⟩ inner.bare
  | .memberAccess _ receiver ident =>
    .memberAccess ⟨0, Span.empty 0⟩ receiver.bare (Bare.bare ident)
  | .invocation _ callee arguments =>
    .invocation ⟨0, Span.empty 0⟩ callee.bare (bareAll arguments)
  | .elementAccess _ receiver arguments =>
    .elementAccess ⟨0, Span.empty 0⟩ receiver.bare (bareAll arguments)
  | .objectCreation _ type arguments =>
    .objectCreation ⟨0, Span.empty 0⟩ type.bare (bareAll arguments)
  | .unary _ op operand => .unary ⟨0, Span.empty 0⟩ op operand.bare
  | .step _ increment operand => .step ⟨0, Span.empty 0⟩ increment operand.bare
  | .cast _ type operand => .cast ⟨0, Span.empty 0⟩ type.bare operand.bare
  | .binary _ op left right => .binary ⟨0, Span.empty 0⟩ op left.bare right.bare
  | .assignment _ op target value => .assignment ⟨0, Span.empty 0⟩ op target.bare value.bare
  | .conditional _ condition whenTrue whenFalse =>
    .conditional ⟨0, Span.empty 0⟩ condition.bare whenTrue.bare whenFalse.bare

/-- Expressions without numbers and places. -/
def bareAll : List Expr → List Expr
  | [] => []
  | e :: es => e.bare :: bareAll es

end

attribute [grind =] bare

instance : Bare Expr := ⟨Expr.bare⟩

theorem bare_def (e : Expr) : Bare.bare e = e.bare := rfl

theorem bareAll_eq (es : List Expr) : bareAll es = Bare.bare es := by
  induction es with
  | nil => rfl
  | cons e es ih => rw [bareAll, ih]; rfl

end Expr

/-! ### Statements -/

instance : Bare Declarator := ⟨fun d => ⟨bare d.name, bare d.value⟩⟩

instance : Bare ForStart where
  bare
    | .nothing => .nothing
    | .locals type declarators _ => .locals (bare type) (bare declarators) (Span.empty 0)
    | .expression value => .expression (bare value)

namespace Stmt

mutual

/-- A statement without numbers and places. -/
def bare : Stmt → Stmt
  | .block statements _ => .block (bareAll statements) (Span.empty 0)
  | .locals type declarators _ =>
    .locals (Bare.bare type) (Bare.bare declarators) (Span.empty 0)
  | .expression value => .expression (Bare.bare value)
  | .ret value _ => .ret (Bare.bare value) (Span.empty 0)
  | .ifThen condition whenTrue _ => .ifThen (Bare.bare condition) whenTrue.bare (Span.empty 0)
  | .ifElse condition whenTrue whenFalse _ =>
    .ifElse (Bare.bare condition) whenTrue.bare whenFalse.bare (Span.empty 0)
  | .whileLoop condition body _ => .whileLoop (Bare.bare condition) body.bare (Span.empty 0)
  | .forLoop start condition iterators body _ =>
    .forLoop (Bare.bare start) (Bare.bare condition) (Bare.bare iterators) body.bare (Span.empty 0)
  | .empty _ => .empty (Span.empty 0)

/-- Statements without numbers and places. -/
def bareAll : List Stmt → List Stmt
  | [] => []
  | s :: ss => s.bare :: bareAll ss

end

instance : Bare Stmt := ⟨Stmt.bare⟩

theorem bareAll_eq (ss : List Stmt) : bareAll ss = Bare.bare ss := by
  induction ss with
  | nil => rfl
  | cons s ss ih => rw [bareAll, ih]; rfl

end Stmt

instance : Bare Body where
  bare
    | .block statements _ => .block (bare statements) (Span.empty 0)
    | .arrow value => .arrow (bare value)

/-! ### Declarations -/

instance : Bare Attribute := ⟨fun a => ⟨bare a.name, Span.empty 0⟩⟩

instance : Bare Parameter := ⟨fun p => ⟨bare p.type, bare p.name⟩⟩

instance : Bare Accessor := ⟨fun a => ⟨a.kind, bare a.body⟩⟩

instance : Bare PropertyBody where
  bare
    | .accessors items => .accessors (bare items)
    | .arrow value => .arrow (bare value)

instance : Bare MemberDecl where
  bare
    | .field d =>
      .field ⟨bare d.attributes, d.modifiers, bare d.type, bare d.declarators, Span.empty 0⟩
    | .property d =>
      .property ⟨bare d.attributes, d.modifiers, bare d.type, bare d.name, bare d.body, bare d.value,
        Span.empty 0⟩
    | .method d =>
      .method ⟨bare d.attributes, d.modifiers, bare d.returns, bare d.name, bare d.parameters,
        bare d.body, Span.empty 0⟩

instance : Bare TypeDecl where
  bare d := ⟨d.form, bare d.attributes, d.modifiers, bare d.name, bare d.bases, bare d.members,
    Span.empty 0⟩

instance : Bare Using where
  bare u := ⟨u.isGlobal, u.isStatic, bare u.aliasIdent, bare u.name, Span.empty 0⟩

namespace NamespaceMember

mutual

/-- A namespace or type without numbers and places. -/
def bare : NamespaceMember → NamespaceMember
  | .namespaceDecl name fileScoped usings members _ =>
    .namespaceDecl (Bare.bare name) fileScoped (Bare.bare usings) (bareAll members) (Span.empty 0)
  | .typeDecl decl => .typeDecl (Bare.bare decl)

/-- Namespaces and types without numbers and places. -/
def bareAll : List NamespaceMember → List NamespaceMember
  | [] => []
  | m :: ms => m.bare :: bareAll ms

end

instance : Bare NamespaceMember := ⟨NamespaceMember.bare⟩

theorem bareAll_eq (ms : List NamespaceMember) : bareAll ms = Bare.bare ms := by
  induction ms with
  | nil => rfl
  | cons m ms ih => rw [bareAll, ih]; rfl

end NamespaceMember

instance : Bare CompilationUnit where
  bare u := ⟨bare u.usings, bare u.members, Span.empty 0⟩

/-- Of a directive its text is left. -/
instance : Bare Directive := ⟨fun d => ⟨d.text, Span.empty 0⟩⟩

instance : Bare SourceTree where
  bare tree := ⟨bare tree.unit, bare tree.directives, bare tree.header⟩

end CultureLint
