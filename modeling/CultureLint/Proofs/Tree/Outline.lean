import CultureLint.Proofs.Tree.Parts
import CultureLint.Tree.Walk

/-! What a tree is made of. An edit of a document touches one expression or one list of `using` lines;
the outline of a tree lists the outermost expressions and the lists of `using` lines in the order they
are written, and says how to put others in their places. -/

namespace CultureLint

/-- What an edit can touch: an outermost expression, or the `using` lines that stand together. -/
inductive Part
  | expr (e : Expr)
  | usings (us : List Using)

namespace Part

def expr? : Part → Option Expr
  | .expr e => some e
  | .usings _ => none

/-- The expressions among some parts. -/
def exprs (ps : List Part) : List Expr := ps.filterMap expr?

@[simp] theorem exprs_nil : exprs [] = [] := rfl

@[simp] theorem exprs_cons_expr (e : Expr) (ps : List Part) : exprs (.expr e :: ps) = e :: exprs ps := rfl

@[simp] theorem exprs_cons_usings (us : List Using) (ps : List Part) :
    exprs (.usings us :: ps) = exprs ps := rfl

@[simp] theorem exprs_append (ps qs : List Part) : exprs (ps ++ qs) = exprs ps ++ exprs qs :=
  List.filterMap_append

theorem mem_exprs {e : Expr} {ps : List Part} : e ∈ exprs ps ↔ .expr e ∈ ps := by
  simp only [exprs, List.mem_filterMap]
  constructor
  · rintro ⟨p, hp, he⟩
    cases p <;> simp_all [expr?]
  · exact fun h => ⟨_, h, rfl⟩

end Part

/-- Values that may hold parts, and the same with other parts in their places. -/
class Outline (α : Type) where
  parts : α → List Part
  map (f : Expr → Expr) (g : List Using → List Using) : α → α

export Outline (parts)

/-! ### Results of parsers that hold none -/

instance : Outline Unit := ⟨fun _ => [], fun _ _ => id⟩
instance : Outline Bool := ⟨fun _ => [], fun _ _ => id⟩
instance : Outline Nat := ⟨fun _ => [], fun _ _ => id⟩
instance : Outline String := ⟨fun _ => [], fun _ _ => id⟩
instance : Outline Span := ⟨fun _ => [], fun _ _ => id⟩
instance : Outline Ident := ⟨fun _ => [], fun _ _ => id⟩
instance : Outline QualifiedName := ⟨fun _ => [], fun _ _ => id⟩
instance : Outline TypeExpr := ⟨fun _ => [], fun _ _ => id⟩
instance : Outline Attribute := ⟨fun _ => [], fun _ _ => id⟩
instance : Outline Parameter := ⟨fun _ => [], fun _ _ => id⟩
instance : Outline TypeForm := ⟨fun _ => [], fun _ _ => id⟩
instance : Outline AccessorKind := ⟨fun _ => [], fun _ _ => id⟩

/-! ### Lists and options -/

instance {α : Type} [Outline α] : Outline (List α) :=
  ⟨fun as => as.flatMap parts, fun f g => List.map (Outline.map f g)⟩

instance {α : Type} [Outline α] : Outline (Option α) where
  parts a := (a.map parts).getD []
  map f g := Option.map (Outline.map f g)

section

variable {α : Type} [Outline α] {f : Expr → Expr} {g : List Using → List Using}

@[simp] theorem parts_nil : parts ([] : List α) = [] := rfl

@[simp] theorem parts_cons (a : α) (as : List α) : parts (a :: as) = parts a ++ parts as := rfl

@[simp] theorem parts_none : parts (none : Option α) = [] := rfl

@[simp] theorem parts_some (a : α) : parts (some a) = parts a := rfl

@[simp] theorem map_nil : Outline.map f g ([] : List α) = [] := rfl

@[simp] theorem map_cons (a : α) (as : List α) :
    Outline.map f g (a :: as) = Outline.map f g a :: Outline.map f g as := rfl

@[simp] theorem map_none : Outline.map f g (none : Option α) = none := rfl

@[simp] theorem map_some (a : α) : Outline.map f g (some a) = some (Outline.map f g a) := rfl

end

/-- Values that hold no parts. -/
class Inert (α : Type) [Outline α] : Prop where
  parts_eq : ∀ a : α, parts a = []
  map_eq : ∀ f g (a : α), Outline.map f g a = a

instance : Inert Unit := ⟨fun _ => rfl, fun _ _ _ => rfl⟩
instance : Inert Bool := ⟨fun _ => rfl, fun _ _ _ => rfl⟩
instance : Inert Nat := ⟨fun _ => rfl, fun _ _ _ => rfl⟩
instance : Inert String := ⟨fun _ => rfl, fun _ _ _ => rfl⟩
instance : Inert Ident := ⟨fun _ => rfl, fun _ _ _ => rfl⟩
instance : Inert QualifiedName := ⟨fun _ => rfl, fun _ _ _ => rfl⟩
instance : Inert TypeExpr := ⟨fun _ => rfl, fun _ _ _ => rfl⟩
instance : Inert Attribute := ⟨fun _ => rfl, fun _ _ _ => rfl⟩
instance : Inert Parameter := ⟨fun _ => rfl, fun _ _ _ => rfl⟩
instance : Inert TypeForm := ⟨fun _ => rfl, fun _ _ _ => rfl⟩
instance : Inert AccessorKind := ⟨fun _ => rfl, fun _ _ _ => rfl⟩

instance {α : Type} [Outline α] [Inert α] : Inert (List α) where
  parts_eq _ := List.flatMap_eq_nil_iff.2 fun a _ => Inert.parts_eq a
  map_eq f g _ := (List.map_congr_left fun a _ => Inert.map_eq f g a).trans (List.map_id _)

instance {α : Type} [Outline α] [Inert α] : Inert (Option α) where
  parts_eq a := by cases a <;> simp [Inert.parts_eq]
  map_eq f g a := by cases a <;> simp [Inert.map_eq]

/-! ### Expressions and statements -/

instance : Outline Expr := ⟨fun e => [.expr e], fun f _ => f⟩

instance : Outline (List Using) := ⟨fun us => [.usings us], fun _ g => g⟩

instance : Outline Declarator := ⟨fun d => parts d.value, fun f g d => ⟨d.name, Outline.map f g d.value⟩⟩

instance : Outline ForStart where
  parts
    | .nothing => []
    | .locals _ declarators _ => parts declarators
    | .expression value => parts value
  map f g
    | .nothing => .nothing
    | .locals type declarators span => .locals type (Outline.map f g declarators) span
    | .expression value => .expression (Outline.map f g value)

namespace Stmt

mutual

/-- The parts of a statement. -/
def parts : Stmt → List Part
  | .block statements _ => partsAll statements
  | .locals _ declarators _ => Outline.parts declarators
  | .expression value => Outline.parts value
  | .ret value _ => Outline.parts value
  | .ifThen condition whenTrue _ => Outline.parts condition ++ whenTrue.parts
  | .ifElse condition whenTrue whenFalse _ =>
    Outline.parts condition ++ whenTrue.parts ++ whenFalse.parts
  | .whileLoop condition body _ => Outline.parts condition ++ body.parts
  | .forLoop start condition iterators body _ =>
    Outline.parts start ++ Outline.parts condition ++ Outline.parts iterators ++ body.parts
  | .empty _ => []

/-- The parts of several statements. -/
def partsAll : List Stmt → List Part
  | [] => []
  | s :: ss => s.parts ++ partsAll ss

end

mutual

/-- A statement with other parts. -/
def mapParts (f : Expr → Expr) (g : List Using → List Using) : Stmt → Stmt
  | .block statements span => .block (mapPartsAll f g statements) span
  | .locals type declarators span => .locals type (Outline.map f g declarators) span
  | .expression value => .expression (Outline.map f g value)
  | .ret value span => .ret (Outline.map f g value) span
  | .ifThen condition whenTrue span =>
    .ifThen (Outline.map f g condition) (mapParts f g whenTrue) span
  | .ifElse condition whenTrue whenFalse span =>
    .ifElse (Outline.map f g condition) (mapParts f g whenTrue) (mapParts f g whenFalse) span
  | .whileLoop condition body span => .whileLoop (Outline.map f g condition) (mapParts f g body) span
  | .forLoop start condition iterators body span =>
    .forLoop (Outline.map f g start) (Outline.map f g condition) (Outline.map f g iterators)
      (mapParts f g body) span
  | .empty span => .empty span

/-- Statements with other parts. -/
def mapPartsAll (f : Expr → Expr) (g : List Using → List Using) : List Stmt → List Stmt
  | [] => []
  | s :: ss => mapParts f g s :: mapPartsAll f g ss

end

instance : Outline Stmt := ⟨parts, mapParts⟩

theorem partsAll_eq (ss : List Stmt) : partsAll ss = Outline.parts ss := by
  induction ss with
  | nil => rfl
  | cons s ss ih => rw [partsAll, ih]; rfl

theorem mapPartsAll_eq (f : Expr → Expr) (g : List Using → List Using) (ss : List Stmt) :
    mapPartsAll f g ss = Outline.map f g ss := by
  induction ss with
  | nil => rfl
  | cons s ss ih => rw [mapPartsAll, ih]; rfl

end Stmt

instance : Outline Body where
  parts
    | .block statements _ => parts statements
    | .arrow value => parts value
  map f g
    | .block statements span => .block (Outline.map f g statements) span
    | .arrow value => .arrow (Outline.map f g value)

/-! ### Declarations -/

instance : Outline Accessor := ⟨fun a => parts a.body, fun f g a => ⟨a.kind, Outline.map f g a.body⟩⟩

instance : Outline PropertyBody where
  parts
    | .accessors items => parts items
    | .arrow value => parts value
  map f g
    | .accessors items => .accessors (Outline.map f g items)
    | .arrow value => .arrow (Outline.map f g value)

instance : Outline MemberDecl where
  parts
    | .field d => parts d.declarators
    | .property d => parts d.body ++ parts d.value
    | .method d => parts d.body
  map f g
    | .field d => .field { d with declarators := Outline.map f g d.declarators }
    | .property d =>
      .property { d with body := Outline.map f g d.body, value := Outline.map f g d.value }
    | .method d => .method { d with body := Outline.map f g d.body }

instance : Outline TypeDecl where
  parts d := parts d.members
  map f g d := { d with members := Outline.map f g d.members }

namespace NamespaceMember

mutual

/-- The parts of a namespace or type. -/
def parts : NamespaceMember → List Part
  | .namespaceDecl _ _ usings members _ => .usings usings :: partsAll members
  | .typeDecl decl => Outline.parts decl

/-- The parts of several namespaces and types. -/
def partsAll : List NamespaceMember → List Part
  | [] => []
  | m :: ms => m.parts ++ partsAll ms

end

mutual

/-- A namespace or type with other parts. -/
def mapParts (f : Expr → Expr) (g : List Using → List Using) : NamespaceMember → NamespaceMember
  | .namespaceDecl name fileScoped usings members span =>
    .namespaceDecl name fileScoped (g usings) (mapPartsAll f g members) span
  | .typeDecl decl => .typeDecl (Outline.map f g decl)

/-- Namespaces and types with other parts. -/
def mapPartsAll (f : Expr → Expr) (g : List Using → List Using) :
    List NamespaceMember → List NamespaceMember
  | [] => []
  | m :: ms => mapParts f g m :: mapPartsAll f g ms

end

instance : Outline NamespaceMember := ⟨parts, mapParts⟩

theorem partsAll_eq (ms : List NamespaceMember) : partsAll ms = Outline.parts ms := by
  induction ms with
  | nil => rfl
  | cons m ms ih => rw [partsAll, ih]; rfl

theorem mapPartsAll_eq (f : Expr → Expr) (g : List Using → List Using) (ms : List NamespaceMember) :
    mapPartsAll f g ms = Outline.map f g ms := by
  induction ms with
  | nil => rfl
  | cons m ms ih => rw [mapPartsAll, ih]; rfl

end NamespaceMember

instance : Outline CompilationUnit where
  parts u := .usings u.usings :: parts u.members
  map f g u := { u with usings := g u.usings, members := Outline.map f g u.members }

/-! ### The walk through a document -/

/-- The walks through the expressions among some parts. -/
def Part.walk (ps : List Part) : List (Expr × Nat) := (exprs ps).flatMap (·.walk 0)

@[simp] theorem Part.walk_nil : walk [] = [] := rfl

@[simp] theorem Part.walk_append (ps qs : List Part) : walk (ps ++ qs) = walk ps ++ walk qs := by
  simp [walk]

theorem Expr.walk_parts (e : Expr) : Part.walk (parts e) = e.walk 0 := List.append_nil _

theorem walk_parts_option {α : Type} [Outline α] {walk : α → List (Expr × Nat)}
    (h : ∀ a, Part.walk (parts a) = walk a) (a : Option α) :
    Part.walk (parts a) = (a.map walk).getD [] := by
  cases a with
  | none => rfl
  | some a => exact h a

theorem walk_parts_list {α : Type} [Outline α] {walk : α → List (Expr × Nat)}
    (h : ∀ a, Part.walk (parts a) = walk a) (as : List α) : Part.walk (parts as) = as.flatMap walk := by
  induction as with
  | nil => rfl
  | cons a as ih => rw [parts_cons, Part.walk_append, h, ih, List.flatMap_cons]

theorem Declarator.walk_parts (d : Declarator) : Part.walk (parts d) = d.walk :=
  walk_parts_option Expr.walk_parts d.value

theorem ForStart.walk_parts (s : ForStart) : Part.walk (parts s) = s.walk := by
  cases s with
  | nothing => rfl
  | locals => exact walk_parts_list Declarator.walk_parts _
  | expression value => exact value.walk_parts

mutual

theorem Stmt.walk_parts : (s : Stmt) → Part.walk s.parts = s.walk
  | .block statements _ => Stmt.walk_partsAll statements
  | .locals _ declarators _ => walk_parts_list Declarator.walk_parts declarators
  | .expression value => value.walk_parts
  | .ret value _ => walk_parts_option Expr.walk_parts value
  | .ifThen condition whenTrue _ => by
    rw [Stmt.parts, Part.walk_append, condition.walk_parts, Stmt.walk_parts whenTrue, Stmt.walk]
  | .ifElse condition whenTrue whenFalse _ => by
    rw [Stmt.parts, Part.walk_append, Part.walk_append, condition.walk_parts, Stmt.walk_parts whenTrue,
      Stmt.walk_parts whenFalse, Stmt.walk]
  | .whileLoop condition body _ => by
    rw [Stmt.parts, Part.walk_append, condition.walk_parts, Stmt.walk_parts body, Stmt.walk]
  | .forLoop start condition iterators body _ => by
    rw [Stmt.parts, Part.walk_append, Part.walk_append, Part.walk_append, start.walk_parts,
      walk_parts_option Expr.walk_parts, walk_parts_list Expr.walk_parts, Stmt.walk_parts body,
      Stmt.walk]
  | .empty _ => rfl

theorem Stmt.walk_partsAll : (ss : List Stmt) → Part.walk (Stmt.partsAll ss) = Stmt.walkAll ss
  | [] => rfl
  | s :: ss => by
    rw [Stmt.partsAll, Part.walk_append, Stmt.walk_parts s, Stmt.walk_partsAll ss, Stmt.walkAll]

end

theorem Body.walk_parts (b : Body) : Part.walk (parts b) = b.walk := by
  cases b with
  | block statements => exact (congrArg _ (Stmt.partsAll_eq _).symm).trans (Stmt.walk_partsAll _)
  | arrow value => exact value.walk_parts

theorem MemberDecl.walk_parts (m : MemberDecl) : Part.walk (parts m) = m.walk := by
  cases m with
  | field d => exact walk_parts_list Declarator.walk_parts d.declarators
  | property d =>
    refine (Part.walk_append ..).trans (congrArg₂ _ ?_ (walk_parts_option Expr.walk_parts d.value))
    cases hb : d.body with
    | accessors items => exact walk_parts_list (fun a => walk_parts_option Body.walk_parts a.body) items
    | arrow value => exact value.walk_parts
  | method d => exact walk_parts_option Body.walk_parts d.body

mutual

theorem NamespaceMember.walk_parts : (m : NamespaceMember) → Part.walk m.parts = m.walk
  | .namespaceDecl _ _ _ members _ => NamespaceMember.walk_partsAll members
  | .typeDecl decl => walk_parts_list MemberDecl.walk_parts decl.members

theorem NamespaceMember.walk_partsAll : (ms : List NamespaceMember) →
    Part.walk (NamespaceMember.partsAll ms) = NamespaceMember.walkAll ms
  | [] => rfl
  | m :: ms => by
    rw [NamespaceMember.partsAll, Part.walk_append, NamespaceMember.walk_parts m,
      NamespaceMember.walk_partsAll ms, NamespaceMember.walkAll]

end

/-- The walk through a document meets its outermost expressions in order, each with all inside it. -/
theorem CompilationUnit.walk_parts (u : CompilationUnit) : Part.walk (parts u) = u.walk :=
  (congrArg Part.walk (NamespaceMember.partsAll_eq u.members).symm).trans
    (NamespaceMember.walk_partsAll u.members)

/-- The expressions of a document are those inside its outermost ones. -/
theorem CompilationUnit.mem_walk_iff {u : CompilationUnit} {e : Expr} :
    (∃ depth, (e, depth) ∈ u.walk) ↔ ∃ a ∈ Part.exprs (parts u), e ∈ a.within := by
  simp only [← u.walk_parts, Part.walk, List.mem_flatMap, Expr.within, List.mem_map, Prod.exists,
    exists_and_right, exists_eq_right]
  constructor
  · rintro ⟨depth, a, ha, he⟩
    exact ⟨a, ha, depth, he⟩
  · rintro ⟨a, ha, depth, he⟩
    exact ⟨depth, a, ha, he⟩

end CultureLint
