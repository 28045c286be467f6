import CultureLint.Proofs.Tree.Outline

/-! The lists of `using` lines of a tree. Only a document and its namespaces have such lists, so a tree with
others in their places is known by what becomes of each. -/

namespace CultureLint

namespace Part

def usings? : Part → Option (List Using)
  | .expr _ => none
  | .usings us => some us

/-- The lists of lines among some parts. -/
def lists (ps : List Part) : List (List Using) := ps.filterMap usings?

@[simp] theorem lists_nil : lists [] = [] := rfl

@[simp] theorem lists_cons_expr (e : Expr) (ps : List Part) : lists (.expr e :: ps) = lists ps := rfl

@[simp] theorem lists_cons_usings (us : List Using) (ps : List Part) :
    lists (.usings us :: ps) = us :: lists ps := rfl

theorem mem_lists {us : List Using} {ps : List Part} : us ∈ lists ps ↔ .usings us ∈ ps := by
  simp only [lists, List.mem_filterMap]
  constructor
  · rintro ⟨p, hp, hus⟩
    cases p <;> simp_all [usings?]
  · exact fun h => ⟨_, h, rfl⟩

end Part

/-! ### Trees without lists -/

/-- Values that hold no lists of lines. -/
class Listless (α : Type) [Outline α] : Prop where
  map_eq : ∀ f g g' (a : α), Outline.map f g a = Outline.map f g' a

instance : Listless Expr := ⟨fun _ _ _ _ => rfl⟩

instance {α : Type} [Outline α] [Listless α] : Listless (List α) where
  map_eq f g g' _ := List.map_congr_left fun a _ => Listless.map_eq f g g' a

instance {α : Type} [Outline α] [Listless α] : Listless (Option α) where
  map_eq f g g' a := by cases a <;> simp [Listless.map_eq f g g']

instance : Listless Declarator := ⟨fun f g g' d => congrArg (Declarator.mk d.name) (Listless.map_eq f g g' d.value)⟩

instance : Listless ForStart where
  map_eq f g g' start := by
    cases start with
    | nothing => rfl
    | locals type declarators span => exact congrArg (ForStart.locals type · span) (Listless.map_eq f g g' _)
    | expression value => rfl

mutual

theorem Stmt.mapParts_irrel (f : Expr → Expr) (g g' : List Using → List Using) :
    (s : Stmt) → s.mapParts f g = s.mapParts f g'
  | .block statements span => congrArg (Stmt.block · span) (Stmt.mapPartsAll_irrel f g g' statements)
  | .locals type declarators span => congrArg (Stmt.locals type · span) (Listless.map_eq f g g' declarators)
  | .expression _ => rfl
  | .ret value span => congrArg (Stmt.ret · span) (Listless.map_eq f g g' value)
  | .ifThen condition whenTrue span => by
    rw [Stmt.mapParts, Stmt.mapParts, Stmt.mapParts_irrel f g g' whenTrue, Listless.map_eq f g g' condition]
  | .ifElse condition whenTrue whenFalse span => by
    rw [Stmt.mapParts, Stmt.mapParts, Stmt.mapParts_irrel f g g' whenTrue, Stmt.mapParts_irrel f g g' whenFalse,
      Listless.map_eq f g g' condition]
  | .whileLoop condition body span => by
    rw [Stmt.mapParts, Stmt.mapParts, Stmt.mapParts_irrel f g g' body, Listless.map_eq f g g' condition]
  | .forLoop start condition iterators body span => by
    rw [Stmt.mapParts, Stmt.mapParts, Stmt.mapParts_irrel f g g' body, Listless.map_eq f g g' start,
      Listless.map_eq f g g' condition, Listless.map_eq f g g' iterators]
  | .empty _ => rfl

theorem Stmt.mapPartsAll_irrel (f : Expr → Expr) (g g' : List Using → List Using) :
    (ss : List Stmt) → Stmt.mapPartsAll f g ss = Stmt.mapPartsAll f g' ss
  | [] => rfl
  | s :: ss => congrArg₂ List.cons (Stmt.mapParts_irrel f g g' s) (Stmt.mapPartsAll_irrel f g g' ss)

end

instance : Listless Stmt := ⟨Stmt.mapParts_irrel⟩

instance : Listless Body where
  map_eq f g g' body := by
    cases body with
    | block statements span => exact congrArg (Body.block · span) (Listless.map_eq f g g' statements)
    | arrow value => rfl

instance : Listless Accessor := ⟨fun f g g' a => congrArg (Accessor.mk a.kind) (Listless.map_eq f g g' a.body)⟩

instance : Listless PropertyBody where
  map_eq f g g' body := by
    cases body with
    | accessors items => exact congrArg PropertyBody.accessors (Listless.map_eq f g g' items)
    | arrow value => rfl

instance : Listless MemberDecl where
  map_eq f g g' member := by
    cases member with
    | field d =>
      exact congrArg (fun ds => MemberDecl.field { d with declarators := ds }) (Listless.map_eq f g g' d.declarators)
    | property d =>
      exact congrArg₂ (fun body value => MemberDecl.property { d with body := body, value := value })
        (Listless.map_eq f g g' d.body) (Listless.map_eq f g g' d.value)
    | method d =>
      exact congrArg (fun body => MemberDecl.method { d with body := body }) (Listless.map_eq f g g' d.body)

instance : Listless TypeDecl where
  map_eq f g g' d := congrArg (fun ms => { d with members := ms }) (Listless.map_eq f g g' d.members)

/-! ### Documents and namespaces -/

section

variable {f : Expr → Expr} {g g' : List Using → List Using}

mutual

theorem NamespaceMember.mapParts_congr : (m : NamespaceMember) →
    (∀ us, .usings us ∈ m.parts → g us = g' us) → m.mapParts f g = m.mapParts f g'
  | .namespaceDecl name fileScoped us ms span, h => by
    rw [NamespaceMember.mapParts, NamespaceMember.mapParts, h us (List.mem_cons_self ..),
      NamespaceMember.mapPartsAll_congr ms fun us hus => h us (List.mem_cons_of_mem _ hus)]
  | .typeDecl decl, _ => congrArg NamespaceMember.typeDecl (Listless.map_eq f g g' decl)

theorem NamespaceMember.mapPartsAll_congr : (ms : List NamespaceMember) →
    (∀ us, .usings us ∈ NamespaceMember.partsAll ms → g us = g' us) →
      NamespaceMember.mapPartsAll f g ms = NamespaceMember.mapPartsAll f g' ms
  | [], _ => rfl
  | m :: ms, h => congrArg₂ List.cons
      (NamespaceMember.mapParts_congr m fun us hus => h us (List.mem_append_left _ hus))
      (NamespaceMember.mapPartsAll_congr ms fun us hus => h us (List.mem_append_right _ hus))

end

/-- A document with other lists is known by what becomes of its own. -/
theorem CompilationUnit.map_congr {unit : CompilationUnit} (h : ∀ us ∈ Part.lists (parts unit), g us = g' us) :
    Outline.map f g unit = Outline.map f g' unit := by
  have hms : Outline.map f g unit.members = Outline.map f g' unit.members := by
    rw [← NamespaceMember.mapPartsAll_eq, ← NamespaceMember.mapPartsAll_eq]
    refine NamespaceMember.mapPartsAll_congr _ fun us hus => h us (Part.mem_lists.2 (List.mem_cons_of_mem _ ?_))
    rwa [← NamespaceMember.partsAll_eq]
  have hus : g unit.usings = g' unit.usings := h _ (Part.mem_lists.2 (List.mem_cons_self ..))
  exact congrArg₂ (fun us ms => { unit with usings := us, members := ms }) hus hms

end

/-- A document with another list of lines in the place of one. -/
def SourceTree.withList (tree : SourceTree) (list new : List Using) : SourceTree :=
  { tree with unit := Outline.map id (fun us => if us = list then new else us) tree.unit }

end CultureLint
