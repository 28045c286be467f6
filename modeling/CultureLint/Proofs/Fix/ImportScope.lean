import CultureLint.Proofs.Cancel
import CultureLint.Proofs.Fix.ListOrder

/-! Making a namespace known at a position. Main statement: it is in scope already, or it is after a line
was added, except in a document with nothing but comments and directives the last of which goes on into
the new line. -/

namespace CultureLint

/-! ### The place of the new line -/

namespace NamespaceMember

mutual

/-- The lines of the namespaces around a position are among the parts. -/
theorem usings_mem_parts {position : Nat} {e : EnclosingNamespace} : (m : NamespaceMember) →
    e ∈ m.enclosing position → .usings e.usings ∈ m.parts
  | .namespaceDecl _ _ us ms _, he => by
    rw [enclosing] at he
    split at he
    · obtain rfl | he := List.mem_cons.1 he
      · exact List.mem_cons_self ..
      · exact List.mem_cons_of_mem _ (usings_mem_partsAll ms he)
    · simp at he
  | .typeDecl _, he => by simp [enclosing] at he

theorem usings_mem_partsAll {position : Nat} {e : EnclosingNamespace} : (ms : List NamespaceMember) →
    e ∈ enclosingAll position ms → .usings e.usings ∈ partsAll ms
  | [], he => by simp [enclosingAll] at he
  | m :: ms, he => by
    rw [enclosingAll] at he
    obtain he | he := List.mem_append.1 he
    · exact List.mem_append_left _ (usings_mem_parts m he)
    · exact List.mem_append_right _ (usings_mem_partsAll ms he)

end

end NamespaceMember

/-- The lines that are seen at a position: those of the document and of the namespaces around. -/
def CompilationUnit.Sees (unit : CompilationUnit) (position : Nat) (us : List Using) : Prop :=
  us = unit.usings ∨ ∃ e ∈ unit.enclosing position, e.usings = us

namespace CompilationUnit

variable {unit : CompilationUnit} {position : Nat} {us : List Using}

theorem Sees.mem_parts (h : unit.Sees position us) : .usings us ∈ parts unit := by
  obtain rfl | ⟨e, he, rfl⟩ := h
  · exact List.mem_cons_self ..
  · refine List.mem_cons_of_mem _ ?_
    rw [← NamespaceMember.partsAll_eq]
    exact NamespaceMember.usings_mem_partsAll _ he

theorem sees_usingsAt (unit : CompilationUnit) (position : Nat) :
    unit.Sees position (unit.usingsAt position) ∧ (unit.usingsAt position = [] → unit.usings = []) := by
  unfold usingsAt
  dsimp only
  cases h : List.find? _ _ with
  | none => exact ⟨.inl rfl, id⟩
  | some us =>
    have hne := List.find?_some h
    obtain ⟨e, he, rfl⟩ := List.mem_map.1 (List.mem_of_find?_eq_some h)
    refine ⟨.inr ⟨e, List.mem_reverse.1 he, rfl⟩, fun hnil => ?_⟩
    simp only [Option.getD_some] at hnil
    simp [hnil] at hne

/-- What is imported by lines that are seen is in scope. -/
theorem Sees.isInScope (h : unit.Sees position us) {space : String} (hi : imports us space = true) :
    unit.isInScope space position = true := by
  -- it does not matter in which of the namespaces
  have knows (outer : String) (es : List EnclosingNamespace) {e : EnclosingNamespace} (he : e ∈ es)
      (hi : imports e.usings space = true) : enclosingKnows space outer es = true := by
    induction es generalizing outer with
    | nil => simp at he
    | cons d es ih =>
      obtain rfl | he := List.mem_cons.1 he
      · simp [enclosingKnows, hi]
      · simp [enclosingKnows, ih _ he]
  rw [CompilationUnit.isInScope, Bool.or_eq_true]
  obtain rfl | ⟨e, he, rfl⟩ := h
  · exact .inl hi
  · exact .inr (knows "" _ he hi)

end CompilationUnit

/-! ### Documents with a new line -/

/-- Whether a namespace is imported does not depend on places. -/
theorem imports_congr {us us' : List Using} (h : bare us = bare us') (space : String) :
    imports us space = imports us' space := by
  have hbare (us : List Using) : imports (bare us) space = imports us space := by
    simp [imports, bare, List.any_map, Function.comp_def, Using.importsNamespace, QualifiedName.dotted,
      QualifiedName.parts]
  rw [← hbare us, h, hbare]

theorem Using.Imports.importsNamespace {u : Using} {space : String} (h : u.Imports space) :
    u.importsNamespace = true :=
  (Bool.and_eq_true_iff.1 h.plain).1

theorem Addition.imports_insert {add : Addition} {u : Using} (hu : add.hits u) {us : List Using} (h : u ∈ us)
    {space : String} (hline : add.line.Imports space) : imports (add.insert us) space = true := by
  have hmem : add.line ∈ add.insert us := by
    refine List.mem_flatMap.2 ⟨u, h, ?_⟩
    rw [if_pos hu.1]
    split <;> simp
  exact List.any_eq_true.2 ⟨_, hmem, by simp [hline.importsNamespace, hline.name]⟩

theorem Document.ofText_eq_ok {path text : String} {tree : SourceTree} (h : SourceTree.ofText text = .ok tree)
    (version : Nat) : Document.ofText path text version = .ok ⟨path, text, tree, version, h⟩ := by
  unfold Document.ofText
  split
  · rename_i tree' h'
    obtain rfl := Except.ok.inj (h'.symm.trans h)
    rfl
  · rename_i e h'
    simp [h'] at h

/-- A document in which a line is put, and which imports the namespace there. -/
theorem Document.exists_imported (d : Document) {space : String} (hspace : IsNamespaceName space) (position : Nat)
    (hopen : d.tree.unit.usings ≠ [] ∨ d.tree.unit.members ≠ [] ∨ SourceTree.endsOpen d.text = false) :
    ∃ text tree, Text.insert? d.text (d.importInsertion space position).1 (d.importInsertion space position).2 =
        some text ∧ SourceTree.ofText text = .ok tree ∧ tree.unit.isInScope space position = true := by
  obtain ⟨hsees, hnil⟩ := d.tree.unit.sees_usingsAt position
  unfold importInsertion
  cases hlist : insertionInList? d.text (d.tree.unit.usingsAt position) space with
  | none =>
    have hus := hnil (insertionInList?_eq_none hlist)
    have hgap := isGap_lineEnding_append d.text (isBlank_lineEnding d.text).2
    obtain ⟨text, tree, line, hinsert, htree, hline, hbare, -⟩ := SourceTree.ofText_opening d.tree_eq hgap hspace hus
      (hopen.resolve_left (· hus))
    refine ⟨text, tree, ?_, htree, ?_⟩
    · rw [← String.append_assoc] at hinsert
      exact hinsert
    · refine CompilationUnit.Sees.isInScope (.inl rfl) ?_
      have : bare [line] = bare tree.unit.usings := congrArg CompilationUnit.usings hbare
      rw [← imports_congr this]
      simp [imports, hline.importsNamespace, hline.name]
  | some place =>
    obtain ⟨text, tree, add, first, u, rest, hinsert, htree, hsplit, hadd, -⟩ :=
      SourceTree.exists_added d.tree_eq hsees.mem_parts hspace hlist
    have hu : u ∈ d.tree.unit.usingsAt position := by simp [hsplit]
    refine ⟨text, tree, hinsert, htree, ?_⟩
    have himports := Addition.imports_insert hadd.hits hu hadd.imports
    obtain hus | ⟨e, he, hus⟩ := hsees
    · have : bare (add.insert d.tree.unit.usings) = bare tree.unit.usings :=
        congrArg (·.unit.usings) hadd.bare_eq
      refine CompilationUnit.Sees.isInScope (.inl rfl) ?_
      rwa [← imports_congr this, ← hus]
    · obtain ⟨e', he', hbare⟩ := hadd.enclosing position e he (hus ▸ hu)
      refine CompilationUnit.Sees.isInScope (.inr ⟨e', he', rfl⟩) ?_
      rwa [← imports_congr hbare, hus]

/-! ### Requests that nobody calls off -/
namespace Document

variable (d : Document) {space : String} {position : Nat}

theorem run'_resolveImport_of_isInScope (host : ImportHost)
    (h : d.tree.unit.isInScope space position = true) :
    (d.resolveImport host space position).run' .live = (.ok .alreadyInScope, .live) := by
  rw [resolveImport, Run.run'_bind Run.run'_check, if_pos h]
  rfl

theorem run'_ensureImport_of_isInScope (host : ImportHost)
    (h : d.tree.unit.isInScope space position = true) :
    (d.ensureImport host space position).run' .live = (.ok d, .live) := by
  rw [ensureImport, Run.run'_bind (d.run'_resolveImport_of_isInScope host h)]
  rfl

theorem run'_addImport {text : String} {tree : SourceTree}
    (hinsert : Text.insert? d.text (d.importInsertion space position).1 (d.importInsertion space position).2 =
      some text) (htree : SourceTree.ofText text = .ok tree) :
    (d.addImport space position).run' .live = (.ok ⟨d.path, text, tree, d.version + 1, htree⟩, .live) := by
  have hsession : (EditSession.ofDocument d).insert? (d.importInsertion space position).1
      (d.importInsertion space position).2 = some ⟨d, text⟩ := by
    simp [EditSession.insert?, EditSession.ofDocument, hinsert]
  have hread : d.withText text = .ok ⟨d.path, text, tree, d.version + 1, htree⟩ := Document.ofText_eq_ok htree _
  simp only [addImport, hsession, commitEdit, EditSession.commit, Run.run'_bind Run.run'_check, hread]
  rfl

/-- Asking for an import finds it in scope, or adds a line after which it is, unless there is nothing in
the document but a comment or directive that the line would become part of; so asking again changes
nothing. -/
theorem resolveImport_isInScope (d : Document) (space : String) (hspace : IsNamespaceName space) (position : Nat)
    (hopen : d.tree.unit.usings ≠ [] ∨ d.tree.unit.members ≠ [] ∨ SourceTree.endsOpen d.text = false) :
    ((d.tree.unit.isInScope space position = true ∧
        (d.resolveImport .adding space position).run' .live = (.ok .alreadyInScope, .live)) ∨
      ∃ d', (d.resolveImport .adding space position).run' .live = (.ok (.inserted d'), .live) ∧
        d'.tree.unit.isInScope space position = true) ∧
    ∃ d', (d.ensureImport .adding space position).run' .live = (.ok d', .live) ∧
      (d'.ensureImport .adding space position).run' .live = (.ok d', .live) := by
  cases hscope : d.tree.unit.isInScope space position with
  | true =>
    have hensure := d.run'_ensureImport_of_isInScope .adding hscope
    exact ⟨.inl ⟨rfl, d.run'_resolveImport_of_isInScope .adding hscope⟩, d, hensure, hensure⟩
  | false =>
    obtain ⟨text, tree, hinsert, htree, hin⟩ := d.exists_imported hspace position hopen
    have hadd := d.run'_addImport hinsert htree
    have hresolve : (d.resolveImport .adding space position).run' .live =
        (.ok (.inserted ⟨d.path, text, tree, d.version + 1, htree⟩), .live) := by
      have hinsert : (d.insertImport .adding space position).run' .live = _ := Run.run'_map hadd
      rw [resolveImport, Run.run'_bind Run.run'_check, if_neg (by simp [hscope])]
      exact Run.run'_bind hinsert
    have hensure := run'_ensureImport_of_isInScope ⟨d.path, text, tree, d.version + 1, htree⟩ .adding hin
    refine ⟨.inr ⟨_, hresolve, hin⟩, _, ?_, hensure⟩
    rw [ensureImport, Run.run'_bind hresolve]
    rfl

/-- Two namespaces that touch, of which only the first has lines. -/
def betweenText : String := "namespace A\x7busing B;\x7dnamespace C\x7b\x7d"

theorem resolveImport_isInScope_between : ∃ d : Document, d.text = betweenText ∧
    IsNamespaceName "System.Globalization" ∧ d.tree.unit.members ≠ [] ∧
    d.tree.unit.isInScope "System.Globalization" 21 = false ∧
    ∃ d', (d.ensureImport .adding "System.Globalization" 21).run' .live = (.ok d', .live) ∧
      (d'.ensureImport .adding "System.Globalization" 21).run' .live = (.ok d', .live) := by
  have found : ((SourceTree.ofText betweenText).toOption.any fun tree => !tree.unit.members.isEmpty &&
      !tree.unit.isInScope "System.Globalization" 21) = true := by decide +kernel
  have hspace : IsNamespaceName "System.Globalization" := ⟨"System", ["Globalization"], by decide, by decide⟩
  cases h : SourceTree.ofText betweenText with
  | error e => simp [h, Except.toOption] at found
  | ok tree =>
    simp only [h, Except.toOption, Option.any_some, Bool.and_eq_true, Bool.not_eq_true',
      List.isEmpty_eq_false_iff] at found
    let d : Document := ⟨"A.cs", betweenText, tree, 0, h⟩
    exact ⟨d, rfl, hspace, found.1, found.2,
      (resolveImport_isInScope d _ hspace 21 (.inr (.inl found.1))).2⟩

/-- In a document that is only a comment, the line becomes part of it. -/
theorem resolveImport_comment : ∃ d d' : Document, d.text = "// c" ∧ IsNamespaceName "A" ∧
    (d.resolveImport .adding "A" 0).run' .live = (.ok (.inserted d'), .live) ∧ d'.text = "// cusing A;\n\n" ∧
    d'.tree.unit.isInScope "A" 0 = false := by
  have empty : ((SourceTree.ofText "// c").toOption.any fun tree =>
      tree.unit.usings.isEmpty && tree.unit.members.isEmpty) = true := by decide +kernel
  have empty' : ((SourceTree.ofText "// cusing A;\n\n").toOption.any fun tree =>
      tree.unit.usings.isEmpty && tree.unit.members.isEmpty) = true := by decide +kernel
  cases h : SourceTree.ofText "// c" with
  | error e => simp [h, Except.toOption] at empty
  | ok tree =>
    cases h' : SourceTree.ofText "// cusing A;\n\n" with
    | error e => simp [h', Except.toOption] at empty'
    | ok tree' =>
      simp only [h, h', Except.toOption, Option.any_some, Bool.and_eq_true, List.isEmpty_iff] at empty empty'
      let d : Document := ⟨"Test0.cs", "// c", tree, 0, h⟩
      let d' : Document := ⟨"Test0.cs", "// cusing A;\n\n", tree', 1, h'⟩
      have outside {unit : CompilationUnit} (hu : unit.usings = [] ∧ unit.members = []) :
          unit.isInScope "A" 0 = false := by
        simp [CompilationUnit.isInScope, CompilationUnit.enclosing, hu, imports, NamespaceMember.enclosingAll,
          enclosingKnows]
      have hplace : d.importInsertion "A" 0 = (4, "using A;\n\n") := by
        have hopening : openingInsertion "// c" ⟨[], [], Span.empty 0⟩ "A" = (4, "using A;\n\n") := by
          decide +kernel
        simpa [importInsertion, CompilationUnit.usingsAt, CompilationUnit.enclosing, d, empty,
          NamespaceMember.enclosingAll, insertionInList?, openingInsertion] using hopening
      have htext : Text.insert? "// c" 4 "using A;\n\n" = some "// cusing A;\n\n" := by decide +kernel
      have hinsert : (d.insertImport .adding "A" 0).run' .live = (.ok (some d'), .live) :=
        Run.run'_map (d.run'_addImport (hplace ▸ htext) h')
      refine ⟨d, d', rfl, ⟨"A", [], by decide, by decide⟩, ?_, rfl, outside empty'⟩
      rw [resolveImport, Run.run'_bind Run.run'_check, if_neg (by simp [d, outside empty])]
      exact Run.run'_bind hinsert

end Document

end CultureLint
