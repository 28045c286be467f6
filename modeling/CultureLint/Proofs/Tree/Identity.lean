import CultureLint.Proofs.Tree.Outline

/-! A tree with its own parts put in their places is the same tree. -/

namespace CultureLint

/-- Putting the parts that are there changes nothing. -/
class LawfulOutline (α : Type) [Outline α] : Prop where
  map_id : ∀ a : α, Outline.map id id a = a

export LawfulOutline (map_id)

instance : LawfulOutline Expr := ⟨fun _ => rfl⟩

instance {α : Type} [Outline α] [LawfulOutline α] : LawfulOutline (List α) where
  map_id as := (List.map_congr_left fun a _ => map_id a).trans (List.map_id as)

instance {α : Type} [Outline α] [LawfulOutline α] : LawfulOutline (Option α) where
  map_id a := by cases a <;> simp [map_id]

instance : LawfulOutline Declarator := ⟨fun d => congrArg (Declarator.mk d.name) (map_id d.value)⟩

instance : LawfulOutline ForStart where
  map_id start := by
    cases start with
    | nothing => rfl
    | locals type declarators span => exact congrArg (ForStart.locals type · span) (map_id declarators)
    | expression value => rfl

mutual

theorem Stmt.mapParts_id : (s : Stmt) → s.mapParts id id = s
  | .block statements span => congrArg (Stmt.block · span) (Stmt.mapPartsAll_id statements)
  | .locals type declarators span => congrArg (Stmt.locals type · span) (map_id declarators)
  | .expression _ => rfl
  | .ret value span => congrArg (Stmt.ret · span) (map_id value)
  | .ifThen condition whenTrue span => by rw [Stmt.mapParts, Stmt.mapParts_id whenTrue, map_id]
  | .ifElse condition whenTrue whenFalse span => by
    rw [Stmt.mapParts, Stmt.mapParts_id whenTrue, Stmt.mapParts_id whenFalse, map_id]
  | .whileLoop condition body span => by rw [Stmt.mapParts, Stmt.mapParts_id body, map_id]
  | .forLoop start condition iterators body span => by
    rw [Stmt.mapParts, Stmt.mapParts_id body, map_id, map_id, map_id]
  | .empty _ => rfl

theorem Stmt.mapPartsAll_id : (ss : List Stmt) → Stmt.mapPartsAll id id ss = ss
  | [] => rfl
  | s :: ss => congrArg₂ List.cons (Stmt.mapParts_id s) (Stmt.mapPartsAll_id ss)

end

instance : LawfulOutline Stmt := ⟨Stmt.mapParts_id⟩

instance : LawfulOutline Body where
  map_id body := by
    cases body with
    | block statements span => exact congrArg (Body.block · span) (map_id statements)
    | arrow value => rfl

instance : LawfulOutline Accessor := ⟨fun a => congrArg (Accessor.mk a.kind) (map_id a.body)⟩

instance : LawfulOutline PropertyBody where
  map_id body := by
    cases body with
    | accessors items => exact congrArg PropertyBody.accessors (map_id items)
    | arrow value => rfl

instance : LawfulOutline MemberDecl where
  map_id member := by
    cases member with
    | field d => exact congrArg (fun ds => MemberDecl.field { d with declarators := ds }) (map_id d.declarators)
    | property d =>
      exact congrArg₂ (fun body value => MemberDecl.property { d with body := body, value := value })
        (map_id d.body) (map_id d.value)
    | method d => exact congrArg (fun body => MemberDecl.method { d with body := body }) (map_id d.body)

instance : LawfulOutline TypeDecl where
  map_id d := congrArg (fun ms => { d with members := ms }) (map_id d.members)

mutual

theorem NamespaceMember.mapParts_id : (m : NamespaceMember) → m.mapParts id id = m
  | .namespaceDecl name fileScoped usings members span =>
    congrArg (NamespaceMember.namespaceDecl name fileScoped usings · span) (NamespaceMember.mapPartsAll_id members)
  | .typeDecl decl => congrArg NamespaceMember.typeDecl (map_id decl)

theorem NamespaceMember.mapPartsAll_id : (ms : List NamespaceMember) → NamespaceMember.mapPartsAll id id ms = ms
  | [] => rfl
  | m :: ms => congrArg₂ List.cons (NamespaceMember.mapParts_id m) (NamespaceMember.mapPartsAll_id ms)

end

instance : LawfulOutline NamespaceMember := ⟨NamespaceMember.mapParts_id⟩

instance : LawfulOutline CompilationUnit where
  map_id unit := congrArg (fun ms => { unit with members := ms }) (map_id unit.members)

end CultureLint
