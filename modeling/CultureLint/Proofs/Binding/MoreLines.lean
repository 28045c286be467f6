import CultureLint.Fix.Import
import CultureLint.Proofs.Binding.Moving
import CultureLint.Proofs.Tree.Identity
import CultureLint.Proofs.Tree.Lists

/-! Documents in which the same is written but for expressions and for lines that import more. Such documents have
their namespaces and types in the same places. -/

namespace CultureLint

/-- The second list of lines is the first one, but for places and for lines that import some of the given
namespaces. -/
inductive LinesMore (more : List String) : List Using → List Using → Prop
  | nil : LinesMore more [] []
  | keep {u u' : Using} {us us' : List Using} (hu : bare u' = bare u) (h : LinesMore more us us') :
    LinesMore more (u :: us) (u' :: us')
  | insert {u : Using} {us us' : List Using} (hplain : u.importsNamespace = true) (hglobal : u.isGlobal = false)
    (hu : u.name.dotted ∈ more) (h : LinesMore more us us') : LinesMore more us (u :: us')

theorem QualifiedName.dotted_eq {name name' : QualifiedName} (h : bare name' = bare name) :
    name'.dotted = name.dotted := by
  rw [← dotted_move (OrderHom.const Nat 0) name', ← dotted_move (OrderHom.const Nat 0) name]
  exact congrArg QualifiedName.dotted h

theorem Using.importsNamespace_eq {u u' : Using} (h : bare u' = bare u) :
    u'.importsNamespace = u.importsNamespace := by
  have halias := congrArg Using.importsNamespace h
  simpa [bare, Using.importsNamespace, Option.isNone_map] using halias

theorem Using.dotted_eq {u u' : Using} (h : bare u' = bare u) : u'.name.dotted = u.name.dotted :=
  QualifiedName.dotted_eq (congrArg Using.name h :)

theorem Using.isGlobal_eq {u u' : Using} (h : bare u' = bare u) : u'.isGlobal = u.isGlobal :=
  (congrArg Using.isGlobal h :)

namespace LinesMore

variable {more : List String} {us us' vs : List Using}

theorem of_bare (h : bare us' = bare us) : LinesMore more us us' := by
  induction us generalizing us' with
  | nil =>
    obtain rfl : us' = [] := List.map_eq_nil_iff.1 h
    exact .nil
  | cons u us ih =>
    cases us' with
    | nil => cases h
    | cons u' us' =>
      rw [bare_cons, bare_cons, List.cons.injEq] at h
      exact .keep h.1 (ih h.2)

theorem refl (us : List Using) : LinesMore more us us := of_bare rfl

theorem trans (h : LinesMore more us vs) (h' : LinesMore more vs us') : LinesMore more us us' := by
  induction h' generalizing us with
  | nil => exact h
  | @keep v u' _ _ hu _ ih =>
    cases h with
    | keep hv h => exact .keep (hu.trans hv) (ih h)
    | insert hplain hglobal hv h =>
      exact .insert ((Using.importsNamespace_eq hu).trans hplain) ((Using.isGlobal_eq hu).trans hglobal)
        (Using.dotted_eq hu ▸ hv) (ih h)
  | insert hplain hglobal hu _ ih => exact .insert hplain hglobal hu (ih h)

theorem mono (h : LinesMore more us us') {more' : List String} (hsub : more ⊆ more') : LinesMore more' us us' := by
  induction h with
  | nil => exact .nil
  | keep hu _ ih => exact .keep hu ih
  | insert hplain hglobal hu _ ih => exact .insert hplain hglobal (hsub hu) ih

theorem append {ws ws' : List Using} (h : LinesMore more us us') (h' : LinesMore more ws ws') :
    LinesMore more (us ++ ws) (us' ++ ws') := by
  induction h with
  | nil => exact h'
  | keep hu _ ih => exact .keep hu ih
  | insert hplain hglobal hu _ ih => exact .insert hplain hglobal hu ih

theorem filter (h : LinesMore more us us') {p : Using → Bool} (hp : ∀ u u', bare u' = bare u → p u' = p u) :
    LinesMore more (us.filter p) (us'.filter p) := by
  induction h with
  | nil => exact .nil
  | @keep u u' _ _ hu _ ih =>
    rw [List.filter_cons, List.filter_cons, hp u u' hu]
    split
    · exact .keep hu ih
    · exact ih
  | insert hplain hglobal hu _ ih =>
    rw [List.filter_cons]
    split
    · exact .insert hplain hglobal hu ih
    · exact ih

end LinesMore

/-! ### Namespaces and types -/

namespace NamespaceMember

mutual

/-- In two declarations the same is written but for lines and expressions, of which the new ones are made by `f`. -/
inductive Alike (f : Expr → Expr) (more : List String) : NamespaceMember → NamespaceMember → Prop
  | namespaceDecl {name name' : QualifiedName} {fileScoped fileScoped' : Bool} {us us' : List Using}
    {ms ms' : List NamespaceMember} {span span' : Span} (hname : Bare.bare name' = Bare.bare name)
    (hus : LinesMore more us us')
    (hms : AllAlike f more ms ms') :
    Alike f more (.namespaceDecl name fileScoped us ms span) (.namespaceDecl name' fileScoped' us' ms' span')
  | typeDecl {decl decl' : TypeDecl} (h : Bare.bare decl' = Bare.bare (Outline.map f id decl)) :
    Alike f more (.typeDecl decl) (.typeDecl decl')

inductive AllAlike (f : Expr → Expr) (more : List String) : List NamespaceMember → List NamespaceMember → Prop
  | nil : AllAlike f more [] []
  | cons {m m' : NamespaceMember} {ms ms' : List NamespaceMember} (h : Alike f more m m')
    (hms : AllAlike f more ms ms') : AllAlike f more (m :: ms) (m' :: ms')

end

variable {f : Expr → Expr} {g : List Using → List Using} {more : List String}

mutual

theorem Alike.of_bare : (m m' : NamespaceMember) → m'.bare = (m.mapParts f g).bare →
    (∀ us, .usings us ∈ m.parts → LinesMore more us (g us)) → Alike f more m m'
  | .namespaceDecl _ _ us ms _, m', h, hg => by
    cases m' with
    | namespaceDecl name' fileScoped' us' ms' span' =>
      simp only [bare, mapParts, namespaceDecl.injEq, and_true] at h
      exact .namespaceDecl h.1 ((hg us (List.mem_cons_self ..)).trans (.of_bare h.2.2.1))
        (AllAlike.of_bare ms ms' h.2.2.2 fun us hus => hg us (List.mem_cons_of_mem _ hus))
    | typeDecl => cases h
  | .typeDecl decl, m', h, _ => by
    cases m' with
    | namespaceDecl => cases h
    | typeDecl decl' =>
      simp only [bare, mapParts, typeDecl.injEq] at h
      exact .typeDecl (by rwa [Listless.map_eq f id g])

theorem AllAlike.of_bare : (ms ms' : List NamespaceMember) → bareAll ms' = bareAll (mapPartsAll f g ms) →
    (∀ us, .usings us ∈ partsAll ms → LinesMore more us (g us)) → AllAlike f more ms ms'
  | [], ms', h, _ => by
    cases ms' with
    | nil => exact .nil
    | cons => cases h
  | m :: ms, ms', h, hg => by
    cases ms' with
    | nil => cases h
    | cons m' ms' =>
      simp only [bareAll, mapPartsAll, List.cons.injEq] at h
      exact .cons (Alike.of_bare m m' h.1 fun us hus => hg us (List.mem_append_left _ hus))
        (AllAlike.of_bare ms ms' h.2 fun us hus => hg us (List.mem_append_right _ hus))

end

mutual

theorem Alike.trans {l m n : NamespaceMember} : Alike f more l m → Alike id more m n → Alike f more l n
  | .namespaceDecl hname hus hms, .namespaceDecl hname' hus' hms' =>
    .namespaceDecl (hname'.trans hname) (hus.trans hus') (hms.trans hms')
  | .typeDecl h, .typeDecl h' => .typeDecl (by rwa [map_id, h] at h')

theorem AllAlike.trans {ls ms ns : List NamespaceMember} : AllAlike f more ls ms → AllAlike id more ms ns →
    AllAlike f more ls ns
  | .nil, .nil => .nil
  | .cons h hs, .cons h' hs' => .cons (h.trans h') (hs.trans hs')

end

mutual

theorem Alike.mono {more' : List String} (hsub : more ⊆ more') {m m' : NamespaceMember} :
    Alike f more m m' → Alike f more' m m'
  | .namespaceDecl hname hus hms => .namespaceDecl hname (hus.mono hsub) (hms.mono hsub)
  | .typeDecl h => .typeDecl h

theorem AllAlike.mono {more' : List String} (hsub : more ⊆ more') {ms ms' : List NamespaceMember} :
    AllAlike f more ms ms' → AllAlike f more' ms ms'
  | .nil => .nil
  | .cons h hs => .cons (h.mono hsub) (hs.mono hsub)

end

end NamespaceMember

/-! ### Documents -/

/-- In two documents the same is written but for lines and expressions, of which the new ones are made by `f`. -/
structure CompilationUnit.Alike (f : Expr → Expr) (more : List String) (unit unit' : CompilationUnit) : Prop where
  usings : LinesMore more unit.usings unit'.usings
  members : NamespaceMember.AllAlike f more unit.members unit'.members

namespace CompilationUnit.Alike

variable {f : Expr → Expr} {g : List Using → List Using} {more : List String} {unit unit₁ unit' : CompilationUnit}

theorem of_bare (h : bare unit' = bare (Outline.map f g unit))
    (hg : ∀ us, .usings us ∈ parts unit → LinesMore more us (g us)) : unit.Alike f more unit' where
  usings := (hg unit.usings (List.mem_cons_self ..)).trans (.of_bare (congrArg CompilationUnit.usings h :))
  members := by
    have hmembers : bare unit'.members = bare (Outline.map f g unit.members) := (congrArg CompilationUnit.members h :)
    rw [← NamespaceMember.bareAll_eq, ← NamespaceMember.bareAll_eq, ← NamespaceMember.mapPartsAll_eq] at hmembers
    refine .of_bare _ _ hmembers fun us hus => hg us (List.mem_cons_of_mem _ ?_)
    rwa [← NamespaceMember.partsAll_eq]

theorem trans (h : unit.Alike f more unit₁) (h' : unit₁.Alike id more unit') : unit.Alike f more unit' :=
  ⟨h.usings.trans h'.usings, h.members.trans h'.members⟩

theorem mono (h : unit.Alike f more unit') {more' : List String} (hsub : more ⊆ more') : unit.Alike f more' unit' :=
  ⟨h.usings.mono hsub, h.members.mono hsub⟩

end CompilationUnit.Alike

end CultureLint
