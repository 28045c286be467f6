import CultureLint.Proofs.Document.Behind
import CultureLint.Proofs.Fix.Replacement
import CultureLint.Proofs.Fix.Agreement
import CultureLint.Proofs.Fix.ListOrder

/-! What becomes of a document in which a finding is mended: the call stands in the place of the operand, at most one
line that imports the namespace of the culture was added, and everything else is written as before. -/

namespace CultureLint

open CultureLint.Part (exprs)

/-! ### The line -/

theorem LinesMore.insert_of_imports {line : Using} {space : String} (h : line.Imports space) {us us' : List Using}
    (hus : LinesMore [space] us us') : LinesMore [space] us (line :: us') := by
  have hplain := Bool.and_eq_true_iff.1 h.plain
  exact .insert hplain.1 (by simpa using hplain.2) (by simp [h.name]) hus

/-- The line is put before or behind one of the lines. -/
theorem Addition.linesMore {add : Addition} {space : String} (h : add.line.Imports space) (us : List Using) :
    LinesMore [space] us (add.insert us) := by
  induction us with
  | nil => exact .nil
  | cons u us ih =>
    have hstep : add.insert (u :: us) =
        (if u.span = add.target then if add.behind then [u, add.line] else [add.line, u] else [u]) ++ add.insert us :=
      List.flatMap_cons
    rw [hstep]
    split
    · split
      · exact .keep rfl (.insert_of_imports h ih)
      · exact .insert_of_imports h (.keep rfl ih)
    · exact .keep rfl ih

namespace Document

variable (d : Document) {space : String} {position : Nat}

/-- A document in which a line is put is otherwise as it was. -/
theorem exists_alike_imported (hspace : IsNamespaceName space) (position : Nat)
    (hopen : d.tree.unit.usings ≠ [] ∨ d.tree.unit.members ≠ [] ∨ SourceTree.endsOpen d.text = false) :
    ∃ text tree, Text.insert? d.text (d.importInsertion space position).1 (d.importInsertion space position).2 =
        some text ∧ SourceTree.ofText text = .ok tree ∧ d.tree.unit.Alike id [space] tree.unit ∧
      d.tree.MetBy id tree := by
  obtain ⟨hsees, hnil⟩ := d.tree.unit.sees_usingsAt position
  unfold importInsertion
  cases hlist : insertionInList? d.text (d.tree.unit.usingsAt position) space with
  | none =>
    have hus := hnil (insertionInList?_eq_none hlist)
    have hgap := isGap_lineEnding_append d.text (isBlank_lineEnding d.text).2
    obtain ⟨text, tree, line, hinsert, htree, hline, hbare, hmet⟩ :=
      SourceTree.ofText_opening d.tree_eq hgap hspace hus (hopen.resolve_left (· hus))
    rw [← String.append_assoc] at hinsert
    refine ⟨text, tree, hinsert, htree, ?_, hmet⟩
    have hone : ({ d.tree.unit with usings := [line] } : CompilationUnit).Alike id [space] tree.unit :=
      .of_bare (g := id) (by rw [map_id]; exact hbare.symm) fun us _ => .refl us
    refine ⟨?_, hone.members⟩
    rw [hus]
    exact (LinesMore.insert_of_imports hline .nil).trans hone.usings
  | some place =>
    obtain ⟨text, tree, add, first, u, rest, hinsert, htree, hsplit, hadd, -⟩ :=
      SourceTree.exists_added d.tree_eq hsees.mem_parts hspace hlist
    exact ⟨text, tree, hinsert, htree, .of_bare (g := add.insert) (congrArg SourceTree.unit hadd.bare_eq).symm
      fun us _ => add.linesMore hadd.imports us, hadd.met⟩

end Document

/-! ### The call -/

/-- The numbers and places of the tree of a text are in order, so that one with a call in the place of an operand is
compared to it. -/
theorem Replacing.of_alike {text : String} {tree : SourceTree} {unit' : CompilationUnit}
    (h : SourceTree.ofText text = .ok tree) {full : Bool} {more : List String} {q e : Expr} {i : Nat}
    (halike : tree.unit.Alike (Expr.changeAt e.node (Expr.formatted full)) more unit')
    (hq : (q, i) ∈ tree.unit.walk) (he : e ∈ q.concatOperands) : Replacing full more e tree.unit unit' where
  alike := halike
  numbered := by
    obtain ⟨lexed, hl, hu, -⟩ := SourceTree.ofText_eq_ok.1 h
    exact (SourceTree.readFrom hl hu).1.numbered
  tidy := (SourceTree.orderly h).1
  operand := ⟨q, List.mem_flatMap.2 (CompilationUnit.mem_walk_iff.1 ⟨i, hq⟩), he⟩

namespace Snapshot

variable (s : Snapshot) {e : Expr} {i : Nat}

/-- The document in which an expression is replaced is the old one with the call in the place of the expression. -/
theorem exists_replaced (he : (e, i) ∈ s.document.tree.unit.walk) (full : Bool) :
    ∃ d : Document, (s.replaceOperand e (cultureText full)).run' .live = (.ok d, .live) ∧
      d.tree.unit.members ≠ [] ∧
      s.document.tree.unit.Alike (Expr.changeAt e.node (Expr.formatted full)) [] d.tree.unit ∧
      s.document.tree.MetBy (Expr.changeAt e.node (Expr.formatted full)) d.tree := by
  obtain ⟨operand, text', tree', hslice, hreplace, htree, hbare, hmet⟩ :=
    ofText_formatCall s.document.tree_eq he full
  have hsession : (EditSession.ofDocument s.document).replace? e.span
      (formatCall e.isPrimary operand (cultureText full)) = some ⟨s.document, text'⟩ := by
    simp [EditSession.replace?, EditSession.ofDocument, hreplace]
  have hrun : (s.replaceOperand e (cultureText full)).run' .live =
      (.ok ⟨s.document.path, text', tree', s.document.version + 1, htree⟩, .live) := by
    simp only [replaceOperand, hslice, Option.getD_some, hsession, Document.commitEdit, EditSession.commit,
      Run.run'_bind Run.run'_check, Document.withText, Document.ofText_eq_ok htree]
    rfl
  obtain ⟨d, hd, -, hmembers⟩ := s.run'_replaceOperand he full
  obtain rfl := Except.ok.inj (congrArg Prod.fst (hd.symm.trans hrun))
  exact ⟨_, hrun, hmembers, .of_bare (g := id) (congrArg SourceTree.unit hbare) fun us _ => .refl us, hmet⟩

/-- An expression of a document is mended by a call in its place, and by one line at the most; all expressions stand
behind the same directives as before. -/
theorem exists_mended {host : ImportHost} (hhost : host = .adding ∨ host = .absent)
    (he : (e, i) ∈ s.document.tree.unit.walk) :
    ∃ (d : Document) (full : Bool) (more : List String), (s.mendOperand host e).run' .live = (.ok d, .live) ∧
      s.document.tree.unit.Alike (Expr.changeAt e.node (Expr.formatted full)) more d.tree.unit ∧
      s.document.tree.BeginsLike ((exprs (parts s.document.tree.unit)).map
        (Expr.changeAt e.node (Expr.formatted full))) d.tree ∧
      (host = .absent → more = []) := by
  obtain ⟨long, hlong, -, halike, hmet⟩ := s.exists_replaced he true
  obtain ⟨short, hshort, hmembers, halike', hmet'⟩ := s.exists_replaced he false
  have hlike := hmet.beginsLike halike.bare_exprs
  have hlike' := hmet'.beginsLike halike'.bare_exprs
  change (s.replaceOperand e fullCulture).run' .live = _ at hlong
  change (s.replaceOperand e shortCulture).run' .live = _ at hshort
  have hspace : IsNamespaceName cultureNamespace := ⟨"System", ["Globalization"], by decide, by decide⟩
  unfold mendOperand
  split
  · exact ⟨long, true, [], hlong, halike, hlike, fun _ => rfl⟩
  rw [Run.run'_bind hshort]
  cases hscope : short.tree.unit.isInScope cultureNamespace e.span.start with
  | true =>
    refine ⟨short, false, [], ?_, halike', hlike', fun _ => rfl⟩
    rw [Run.run'_bind (short.run'_resolveImport_of_isInScope host hscope)]
    rfl
  | false =>
    obtain rfl | rfl := hhost
    · obtain ⟨text, tree, hinsert, htree, hline, hmore⟩ :=
        short.exists_alike_imported hspace e.span.start (.inr (.inl hmembers))
      have hlines := hmore.beginsLike hline.bare_exprs
      rw [List.map_id] at hlines
      refine ⟨⟨short.path, text, tree, short.version + 1, htree⟩, false, [cultureNamespace], ?_,
        (halike'.mono nofun).trans hline, Document.beginsLike_trans hlike' hlines, nofun⟩
      rw [Run.run'_bind (short.run'_resolveImport_adding hscope hinsert htree)]
      rfl
    · refine ⟨long, true, [], ?_, halike, hlike, fun _ => rfl⟩
      rw [Run.run'_bind (short.run'_resolveImport_absent hscope)]
      exact hlong

end Snapshot

end CultureLint
