import CultureLint.Tree.Decl
import Mathlib.Order.Hom.Basic
import Mathlib.Order.MinMax

/-! Trees with their places moved. A map of offsets that keeps their order takes every span to another one;
`move` does so with all the spans of a tree and leaves the rest of it alone. Trees of two documents can be
compared by moving both to common places, such as the numbers of their tokens. -/

namespace CultureLint

/-- A map of the offsets of one text to those of another, or to something that is counted like them. -/
abbrev Shift := Nat →o Nat

/-- Values that may hold offsets and spans. -/
class Movable (α : Type) where
  move : Shift → α → α

export Movable (move)

/-! ### Results of parsers that are no trees -/

instance : Movable Unit := ⟨fun _ => id⟩
instance : Movable Bool := ⟨fun _ => id⟩
instance : Movable String := ⟨fun _ => id⟩
instance : Movable TypeForm := ⟨fun _ => id⟩
instance : Movable AccessorKind := ⟨fun _ => id⟩
instance : Movable BinaryOp := ⟨fun _ => id⟩
instance : Movable UnaryOp := ⟨fun _ => id⟩
instance : Movable AssignOp := ⟨fun _ => id⟩

/-- The numbers that parsers hand on are offsets. -/
instance : Movable Nat := ⟨fun f n => f n⟩

instance : Movable Span := ⟨fun f s => ⟨f s.start, f s.stop, f.monotone s.start_le_stop⟩⟩

instance : Movable Node := ⟨fun f n => ⟨n.id, move f n.span⟩⟩

instance : Movable Token := ⟨fun f t => { t with start := f t.start }⟩

instance {α : Type} [Movable α] : Movable (List α) := ⟨fun f => List.map (move f)⟩

instance {α : Type} [Movable α] : Movable (Option α) := ⟨fun f => Option.map (move f)⟩

section

variable (f : Shift)

@[simp] theorem move_bool (b : Bool) : move f b = b := rfl

@[simp] theorem move_start (s : Span) : (move f s).start = f s.start := rfl

@[simp] theorem move_stop (s : Span) : (move f s).stop = f s.stop := rfl

theorem move_upTo (start stop : Nat) : move f (Span.upTo start stop) = Span.upTo (f start) (f stop) := by
  simp only [Span.upTo, move, Span.mk.injEq, true_and]
  exact f.monotone.map_max

theorem move_cover (a b : Span) : move f (a.cover b) = (move f a).cover (move f b) := by
  simp only [Span.cover, move, Span.mk.injEq]
  exact ⟨f.monotone.map_min, f.monotone.map_max⟩

variable {α : Type} [Movable α]

@[simp] theorem move_nil : move f ([] : List α) = [] := rfl

@[simp] theorem move_cons (a : α) (as : List α) : move f (a :: as) = move f a :: move f as := rfl

@[simp] theorem move_none : move f (none : Option α) = none := rfl

@[simp] theorem move_some (a : α) : move f (some a) = some (move f a) := rfl

theorem move_strings (words : List String) : move f words = words := List.map_id words

theorem move_flatten (as : List (List α)) : move f as.flatten = (move f as).flatten := List.map_flatten

end

/-! ### Names and types -/

instance : Movable Ident := ⟨fun f i => ⟨i.name, move f i.span⟩⟩

instance : Movable QualifiedName :=
  ⟨fun f n => ⟨n.global, move f n.head, move f n.tail, move f n.span⟩⟩

namespace TypeExpr

def move (f : Shift) : TypeExpr → TypeExpr
  | .primitive type span => .primitive type (Movable.move f span)
  | .named name => .named (Movable.move f name)
  | .nullable of span => .nullable (of.move f) (Movable.move f span)
  | .array of span => .array (of.move f) (Movable.move f span)
  | .implicit span => .implicit (Movable.move f span)

instance : Movable TypeExpr := ⟨TypeExpr.move⟩

theorem isPrimitiveBased_move (f : Shift) (type : TypeExpr) :
    (type.move f).isPrimitiveBased = type.isPrimitiveBased := by
  induction type with
  | nullable of _ ih => exact ih
  | array of _ ih => exact ih
  | primitive => rfl
  | named => rfl
  | implicit => rfl

end TypeExpr

/-! ### Expressions -/

namespace Expr

mutual

/-- An expression with its places moved. -/
def move (f : Shift) : Expr → Expr
  | .literal node kind text => .literal (Movable.move f node) kind text
  | .name node word => .name (Movable.move f node) word
  | .primitive node type => .primitive (Movable.move f node) type
  | .this node => .this (Movable.move f node)
  | .parenthesized node inner => .parenthesized (Movable.move f node) (inner.move f)
  | .memberAccess node receiver ident =>
    .memberAccess (Movable.move f node) (receiver.move f) (Movable.move f ident)
  | .invocation node callee arguments =>
    .invocation (Movable.move f node) (callee.move f) (moveAll f arguments)
  | .elementAccess node receiver arguments =>
    .elementAccess (Movable.move f node) (receiver.move f) (moveAll f arguments)
  | .objectCreation node type arguments =>
    .objectCreation (Movable.move f node) (type.move f) (moveAll f arguments)
  | .unary node op operand => .unary (Movable.move f node) op (operand.move f)
  | .step node increment operand => .step (Movable.move f node) increment (operand.move f)
  | .cast node type operand => .cast (Movable.move f node) (type.move f) (operand.move f)
  | .binary node op left right => .binary (Movable.move f node) op (left.move f) (right.move f)
  | .assignment node op target value =>
    .assignment (Movable.move f node) op (target.move f) (value.move f)
  | .conditional node condition whenTrue whenFalse =>
    .conditional (Movable.move f node) (condition.move f) (whenTrue.move f) (whenFalse.move f)

/-- Expressions with their places moved. -/
def moveAll (f : Shift) : List Expr → List Expr
  | [] => []
  | e :: es => e.move f :: moveAll f es

end

instance : Movable Expr := ⟨Expr.move⟩

theorem moveAll_eq (f : Shift) (es : List Expr) : moveAll f es = Movable.move f es := by
  induction es with
  | nil => rfl
  | cons e es ih => rw [moveAll, ih]; rfl

@[simp] theorem node_move (f : Shift) (e : Expr) :
    (Movable.move f e).node = Movable.move f e.node := by
  cases e <;> rfl

@[simp] theorem span_move (f : Shift) (e : Expr) :
    (Movable.move f e).span = Movable.move f e.span := congrArg Node.span (node_move f e)

end Expr

/-! ### Statements -/

instance : Movable Declarator := ⟨fun f d => ⟨move f d.name, move f d.value⟩⟩

instance : Movable ForStart where
  move f
    | .nothing => .nothing
    | .locals type declarators span => .locals (move f type) (move f declarators) (move f span)
    | .expression value => .expression (move f value)

namespace Stmt

mutual

/-- A statement with its places moved. -/
def move (f : Shift) : Stmt → Stmt
  | .block statements span => .block (moveAll f statements) (Movable.move f span)
  | .locals type declarators span =>
    .locals (Movable.move f type) (Movable.move f declarators) (Movable.move f span)
  | .expression value => .expression (Movable.move f value)
  | .ret value span => .ret (Movable.move f value) (Movable.move f span)
  | .ifThen condition whenTrue span =>
    .ifThen (Movable.move f condition) (whenTrue.move f) (Movable.move f span)
  | .ifElse condition whenTrue whenFalse span =>
    .ifElse (Movable.move f condition) (whenTrue.move f) (whenFalse.move f) (Movable.move f span)
  | .whileLoop condition body span =>
    .whileLoop (Movable.move f condition) (body.move f) (Movable.move f span)
  | .forLoop start condition iterators body span =>
    .forLoop (Movable.move f start) (Movable.move f condition) (Movable.move f iterators) (body.move f)
      (Movable.move f span)
  | .empty span => .empty (Movable.move f span)

/-- Statements with their places moved. -/
def moveAll (f : Shift) : List Stmt → List Stmt
  | [] => []
  | s :: ss => s.move f :: moveAll f ss

end

instance : Movable Stmt := ⟨Stmt.move⟩

theorem moveAll_eq (f : Shift) (ss : List Stmt) : moveAll f ss = Movable.move f ss := by
  induction ss with
  | nil => rfl
  | cons s ss ih => rw [moveAll, ih]; rfl

end Stmt

instance : Movable Body where
  move f
    | .block statements span => .block (move f statements) (move f span)
    | .arrow value => .arrow (move f value)

/-! ### Declarations -/

instance : Movable Attribute := ⟨fun f a => ⟨move f a.name, move f a.span⟩⟩

instance : Movable Parameter := ⟨fun f p => ⟨move f p.type, move f p.name⟩⟩

instance : Movable Accessor := ⟨fun f a => ⟨a.kind, move f a.body⟩⟩

instance : Movable PropertyBody where
  move f
    | .accessors items => .accessors (move f items)
    | .arrow value => .arrow (move f value)

instance : Movable MemberDecl where
  move f
    | .field d =>
      .field ⟨move f d.attributes, d.modifiers, move f d.type, move f d.declarators, move f d.span⟩
    | .property d =>
      .property ⟨move f d.attributes, d.modifiers, move f d.type, move f d.name, move f d.body,
        move f d.value, move f d.span⟩
    | .method d =>
      .method ⟨move f d.attributes, d.modifiers, move f d.returns, move f d.name, move f d.parameters,
        move f d.body, move f d.span⟩

instance : Movable TypeDecl where
  move f d := ⟨d.form, move f d.attributes, d.modifiers, move f d.name, move f d.bases, move f d.members,
    move f d.span⟩

instance : Movable Using where
  move f u := ⟨u.isGlobal, u.isStatic, move f u.aliasIdent, move f u.name, move f u.span⟩

namespace NamespaceMember

mutual

/-- A namespace or type with its places moved. -/
def move (f : Shift) : NamespaceMember → NamespaceMember
  | .namespaceDecl name fileScoped usings members span =>
    .namespaceDecl (Movable.move f name) fileScoped (Movable.move f usings) (moveAll f members)
      (Movable.move f span)
  | .typeDecl decl => .typeDecl (Movable.move f decl)

/-- Namespaces and types with their places moved. -/
def moveAll (f : Shift) : List NamespaceMember → List NamespaceMember
  | [] => []
  | m :: ms => m.move f :: moveAll f ms

end

instance : Movable NamespaceMember := ⟨NamespaceMember.move⟩

theorem moveAll_eq (f : Shift) (ms : List NamespaceMember) : moveAll f ms = Movable.move f ms := by
  induction ms with
  | nil => rfl
  | cons m ms ih => rw [moveAll, ih]; rfl

end NamespaceMember

instance : Movable CompilationUnit where
  move f u := ⟨move f u.usings, move f u.members, move f u.span⟩

/-! ### Moving twice -/

/-- Moving twice is moving by both maps at once. -/
class LawfulMove (α : Type) [Movable α] : Prop where
  move_move : ∀ (g f : Shift) (a : α), move g (move f a) = move (g.comp f) a

export LawfulMove (move_move)

instance : LawfulMove Span := ⟨fun _ _ _ => rfl⟩

instance : LawfulMove Node := ⟨fun _ _ _ => rfl⟩

instance : LawfulMove Ident := ⟨fun _ _ _ => rfl⟩

instance {α : Type} [Movable α] [LawfulMove α] : LawfulMove (List α) where
  move_move g f as := by
    induction as with
    | nil => rfl
    | cons a as ih => simp only [move_cons, move_move, ih]

instance {α : Type} [Movable α] [LawfulMove α] : LawfulMove (Option α) where
  move_move g f a := by cases a <;> simp [move_move]

instance : LawfulMove QualifiedName where
  move_move g f n := by
    obtain ⟨global, head, tail, span⟩ := n
    exact congrArg (fun tail => QualifiedName.mk global _ tail _) (move_move g f tail)

instance : LawfulMove TypeExpr where
  move_move g f type := by
    induction type with
    | primitive | implicit => rfl
    | named name => exact congrArg TypeExpr.named (move_move g f name)
    | nullable of span ih => exact congrArg (TypeExpr.nullable · _) ih
    | array of span ih => exact congrArg (TypeExpr.array · _) ih

namespace Expr

variable (g f : Shift)

mutual

theorem move_move : (e : Expr) → (e.move f).move g = e.move (g.comp f)
  | .literal .. | .name .. | .primitive .. | .this _ => rfl
  | .parenthesized _ inner => by simp only [Expr.move, move_move inner, LawfulMove.move_move]
  | .memberAccess _ receiver _ => by simp only [Expr.move, move_move receiver, LawfulMove.move_move]
  | .invocation _ callee arguments => by
    simp only [Expr.move, move_move callee, moveAll_moveAll arguments, LawfulMove.move_move]
  | .elementAccess _ receiver arguments => by
    simp only [Expr.move, move_move receiver, moveAll_moveAll arguments, LawfulMove.move_move]
  | .objectCreation _ type arguments => by
    simp only [Expr.move, moveAll_moveAll arguments, LawfulMove.move_move]
    exact congrArg (Expr.objectCreation _ · _) (LawfulMove.move_move g f type)
  | .unary _ _ operand => by simp only [Expr.move, move_move operand, LawfulMove.move_move]
  | .step _ _ operand => by simp only [Expr.move, move_move operand, LawfulMove.move_move]
  | .cast _ type operand => by
    simp only [Expr.move, move_move operand, LawfulMove.move_move]
    exact congrArg (Expr.cast _ · _) (LawfulMove.move_move g f type)
  | .binary _ _ left right => by
    simp only [Expr.move, move_move left, move_move right, LawfulMove.move_move]
  | .assignment _ _ target value => by
    simp only [Expr.move, move_move target, move_move value, LawfulMove.move_move]
  | .conditional _ condition whenTrue whenFalse => by
    simp only [Expr.move, move_move condition, move_move whenTrue, move_move whenFalse,
      LawfulMove.move_move]

theorem moveAll_moveAll : (es : List Expr) → moveAll g (moveAll f es) = moveAll (g.comp f) es
  | [] => rfl
  | e :: es => by simp only [moveAll, move_move e, moveAll_moveAll es]

end

instance : LawfulMove Expr := ⟨Expr.move_move⟩

end Expr

instance : LawfulMove Declarator where
  move_move g f d := congrArg (Declarator.mk _) (move_move g f d.value)

instance : LawfulMove ForStart where
  move_move g f
    | .nothing => rfl
    | .locals type declarators _ =>
      congrArg₂ (ForStart.locals · · _) (move_move g f type) (move_move g f declarators)
    | .expression value => congrArg ForStart.expression (move_move g f value)

namespace Stmt

variable (g f : Shift)

mutual

theorem move_move : (s : Stmt) → (s.move f).move g = s.move (g.comp f)
  | .block statements _ => by simp only [Stmt.move, moveAll_moveAll statements, LawfulMove.move_move]
  | .locals .. | .expression _ | .ret .. | .empty _ => by simp only [Stmt.move, LawfulMove.move_move]
  | .ifThen _ whenTrue _ => by simp only [Stmt.move, move_move whenTrue, LawfulMove.move_move]
  | .ifElse _ whenTrue whenFalse _ => by
    simp only [Stmt.move, move_move whenTrue, move_move whenFalse, LawfulMove.move_move]
  | .whileLoop _ body _ => by simp only [Stmt.move, move_move body, LawfulMove.move_move]
  | .forLoop _ _ _ body _ => by simp only [Stmt.move, move_move body, LawfulMove.move_move]

theorem moveAll_moveAll : (ss : List Stmt) → moveAll g (moveAll f ss) = moveAll (g.comp f) ss
  | [] => rfl
  | s :: ss => by simp only [moveAll, move_move s, moveAll_moveAll ss]

end

instance : LawfulMove Stmt := ⟨Stmt.move_move⟩

end Stmt

instance : LawfulMove Body where
  move_move g f
    | .block statements _ => congrArg (Body.block · _) (move_move g f statements)
    | .arrow value => congrArg Body.arrow (move_move g f value)

instance : LawfulMove Attribute where
  move_move g f a := congrArg (Attribute.mk · _) (move_move g f a.name)

instance : LawfulMove Parameter where
  move_move g f p := congrArg (Parameter.mk · _) (move_move g f p.type)

instance : LawfulMove Accessor where
  move_move g f a := congrArg (Accessor.mk _) (move_move g f a.body)

instance : LawfulMove PropertyBody where
  move_move g f
    | .accessors items => congrArg PropertyBody.accessors (move_move g f items)
    | .arrow value => congrArg PropertyBody.arrow (move_move g f value)

instance : LawfulMove MemberDecl where
  move_move g f m := by
    cases m with
    | field d =>
      change MemberDecl.field ⟨move g (move f d.attributes), d.modifiers, move g (move f d.type),
        move g (move f d.declarators), move g (move f d.span)⟩ = _
      simp only [move_move]
      rfl
    | property d =>
      change MemberDecl.property ⟨move g (move f d.attributes), d.modifiers, move g (move f d.type),
        move g (move f d.name), move g (move f d.body), move g (move f d.value), move g (move f d.span)⟩ = _
      simp only [move_move]
      rfl
    | method d =>
      change MemberDecl.method ⟨move g (move f d.attributes), d.modifiers, move g (move f d.returns),
        move g (move f d.name), move g (move f d.parameters), move g (move f d.body),
        move g (move f d.span)⟩ = _
      simp only [move_move]
      rfl

instance : LawfulMove TypeDecl where
  move_move g f d := by
    change TypeDecl.mk d.form (move g (move f d.attributes)) d.modifiers (move g (move f d.name))
      (move g (move f d.bases)) (move g (move f d.members)) (move g (move f d.span)) = _
    simp only [move_move]
    rfl

instance : LawfulMove Using where
  move_move g f u := by
    change Using.mk u.isGlobal u.isStatic (move g (move f u.aliasIdent)) (move g (move f u.name))
      (move g (move f u.span)) = _
    simp only [move_move]
    rfl

namespace NamespaceMember

variable (g f : Shift)

mutual

theorem move_move : (m : NamespaceMember) → (m.move f).move g = m.move (g.comp f)
  | .namespaceDecl _ _ _ members _ => by
    simp only [NamespaceMember.move, moveAll_moveAll members, LawfulMove.move_move]
  | .typeDecl _ => by simp only [NamespaceMember.move, LawfulMove.move_move]

theorem moveAll_moveAll : (ms : List NamespaceMember) → moveAll g (moveAll f ms) = moveAll (g.comp f) ms
  | [] => rfl
  | m :: ms => by simp only [moveAll, move_move m, moveAll_moveAll ms]

end

instance : LawfulMove NamespaceMember := ⟨NamespaceMember.move_move⟩

end NamespaceMember

instance : LawfulMove CompilationUnit where
  move_move g f u := by
    change CompilationUnit.mk (move g (move f u.usings)) (move g (move f u.members))
      (move g (move f u.span)) = _
    simp only [move_move]
    rfl

end CultureLint
