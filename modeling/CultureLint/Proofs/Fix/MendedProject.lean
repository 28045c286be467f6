import CultureLint.Proofs.Fix.EditedProject

/-! Findings that can be mended, before and after one of them is mended. -/

namespace CultureLint

open CultureLint.Part (exprs)
open Lexed (textsBefore)

namespace Snapshot

variable {s : Snapshot} {x : Diagnostic} {span : Span}

/-- What is reported with a span is shown to the reader. -/
theorem shows_of_mem_allFindings (hx : x ∈ s.allFindings) (hspan : x.span = some span) : s.shows span.start = true := by
  unfold allFindings at hx
  cases ht : WellKnownTypes.of? s.compilation with
  | none => simp [ht] at hx
  | some types =>
    rw [ht, Option.elim_some] at hx
    obtain ⟨id, -, hx⟩ := List.mem_filterMap.1 hx
    simp only [findingAt, Option.bind_eq_bind, Option.bind_eq_some_iff, Option.pure_def, Option.some.injEq] at hx
    obtain ⟨found, -, op, -, rfl⟩ := hx
    obtain ⟨_, hlocation, rfl⟩ := Option.map_eq_some_iff.1 hspan
    exact Option.isSome_iff_exists.2 ⟨_, hlocation⟩

/-- What an edit puts behind other directives has no place, so that all other places count alike. -/
theorem countsLike {d : Document} {e : Expr} {full : Bool} {more : List String}
    (h : Replacing full more e s.document.tree.unit d.tree.unit)
    (hbegins : s.document.tree.BeginsLike
      ((exprs (parts s.document.tree.unit)).map (Expr.changeAt e.node (Expr.formatted full))) d.tree)
    {C : Comparison} (hshows : C.sought.shows = s.shows)
    (hshows' : C.shows' = fun offset => (d.sourceMap.location? offset).isSome) {K : List Counterpart}
    (hfaces : Expr.Faces (Expr.Replaces e.node (Expr.formatted full)) K (exprs (parts s.document.tree.unit))
      (exprs (parts d.tree.unit))) (hkept : ∀ c c', .kept c c' ∈ K → c.node ≠ e.node) :
    Replacing.CountsLike C full e K := by
  rw [← Expr.changeAllAt_eq_map] at hbegins
  obtain ⟨houtside, hinside⟩ := hfaces.forall₂_of_mem hkept (R := fun node node' => 0 < node.span.start →
    node.span.start < node.span.stop → textsBefore s.document.tree.directives node.span.start =
      textsBefore d.tree.directives node'.span.start) hbegins
  obtain ⟨holds, hnews⟩ := hfaces.flatMap_within
  have counts {c c' : Expr} (hc : c ∈ (exprs (parts s.document.tree.unit)).flatMap Expr.within)
      (hc' : c' ∈ (exprs (parts d.tree.unit)).flatMap Expr.within)
      (htexts : 0 < c.span.start → c.span.start < c.span.stop → textsBefore s.document.tree.directives c.span.start =
        textsBefore d.tree.directives c'.span.start) : C.CountsLike c c' := by
    have hold : s.shows c.span.start = _ := Document.isSome_location? hc
    have hnew := Document.isSome_location? hc'
    have hspan := ((h.tidy_of_mem hc) c c.mem_within_self).nonempty
    rw [Comparison.CountsLike, hshows, hshows']
    exact hnew.trans ((congrArg (!hidesBehind ·) (htexts (Document.start_pos hc) hspan)).symm.trans hold.symm)
  refine ⟨fun c c' hc => counts ?_ ?_ (houtside c c' hc), fun call hcall => ?_⟩
  · exact holds ▸ List.mem_flatMap.2 ⟨_, hc, List.mem_singleton_self c⟩
  · exact hnews ▸ List.mem_flatMap.2 ⟨_, hc, List.mem_singleton_self c'⟩
  · have hlike := hinside e call hcall
    refine List.forall₂_iff_zip.2 ⟨hlike.length_eq, fun {c c'} hc he => ?_⟩
    refine counts (h.mem_of_within he) ?_ (List.forall₂_zip hlike hc)
    exact hnews ▸ List.mem_flatMap.2 ⟨_, hcall, (List.of_mem_zip hc).2⟩

end Snapshot

namespace Project

variable {p q : Project} {index : Nat} {s : Snapshot} {d : Document}

theorem snapshot?_replaceDocument_of_ne {i : Nat} (hi : i ≠ index)
    (hcompilation : (p.replaceDocument index d).bind.compilation = p.bind.compilation)
    (hunit : (p.replaceDocument index d).bind.units[i]? = p.bind.units[i]?) :
    (p.replaceDocument index d).snapshot? i = p.snapshot? i := by
  refine Option.ext fun s => ?_
  rw [snapshot?_eq_some_iff, snapshot?_eq_some_iff, hcompilation, hunit, replaceDocument,
    List.getElem?_set_ne (Ne.symm hi)]

/-- Mending a finding leaves the types of the program and all other documents as they are, and one finding less to mend
in the document. -/
theorem mended (hs : p.snapshot? index = some s) {x : Diagnostic} (hx : x ∈ s.allFindings) {span : Span}
    (hspan : x.span = some span) {host : ImportHost} (hhost : host = .adding ∨ host = .absent)
    (hd : (s.applyFix host span).run' .live = (.ok d, .live)) (hformats : p.FormatsOnce)
    (hrenames : host = .adding → ¬ p.Renames (p.replaceDocument index d)) :
    (p.replaceDocument index d).bind.compilation = p.bind.compilation ∧
      (∀ i ≠ index, (p.replaceDocument index d).snapshot? i = p.snapshot? i) ∧
      ∃ s', (p.replaceDocument index d).snapshot? index = some s' ∧
        s'.allFindings.countP Diagnostic.isFixable + 1 = s.allFindings.countP Diagnostic.isFixable := by
  have hmem : s ∈ p.snapshots := List.mem_of_getElem? hs
  obtain ⟨types, e, id, d', full, more, hmatches, rfl, hd', hreplacing, hbegins, hmore⟩ :=
    Snapshot.exists_replacing hmem (Snapshot.findsAt_of_mem_allFindings hx hspan) hhost
  obtain rfl : d' = d := Except.ok.inj (congrArg Prod.fst (hd'.symm.trans hd))
  have hnot : ¬ p.Renames (p.replaceDocument index d') := by
    obtain rfl | rfl := hhost
    · exact hrenames rfl
    · obtain rfl := hmore rfl
      exact not_renames hs hreplacing
  obtain ⟨hsame, hothers, hcount⟩ := edited hs hmatches hreplacing hformats hnot
    (fun _ => Snapshot.countsLike hreplacing hbegins rfl rfl) (Snapshot.shows_of_mem_allFindings hx hspan)
  refine ⟨hsame, fun i hi => snapshot?_replaceDocument_of_ne hi hsame (hothers i hi), ?_⟩
  obtain ⟨old, hold, hseq⟩ := snapshot?_eq_some_iff.1 hs
  have hlt : index < p.documents.length := (List.getElem?_eq_some_iff.1 hold).1
  have hs' : (p.replaceDocument index d').snapshot? index = some ⟨d', (p.replaceDocument index d').bind.compilation,
      (p.replaceDocument index d').bind.units[index]?.getD {}⟩ :=
    snapshot?_eq_some_iff.2 ⟨d', by rw [replaceDocument, List.getElem?_set_self hlt], rfl⟩
  have hcompilation : s.compilation = p.bind.compilation := by rw [hseq]
  have hmem' : _ ∈ (p.replaceDocument index d').snapshots := List.mem_of_getElem? hs'
  refine ⟨_, hs', ?_⟩
  rw [Snapshot.countP_isFixable (unitInv_of_mem_snapshots hmem) hmatches.of?,
    Snapshot.countP_isFixable (unitInv_of_mem_snapshots hmem')
      ((congrArg WellKnownTypes.of? (hsame.trans hcompilation.symm)).trans hmatches.of?)]
  rw [hcompilation] at hcount ⊢
  rw [hsame]
  exact hcount

end Project

end CultureLint
