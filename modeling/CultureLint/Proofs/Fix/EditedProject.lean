import CultureLint.Proofs.Fix.MendedDocument
import CultureLint.Proofs.Rule.Counting
import CultureLint.Proofs.Rule.FormatsOnce
import CultureLint.Proofs.Rule.Sorted

/-! A project in which one finding is mended. As long as no word takes on another meaning by the line that imports the
culture, and the method that is called gives nothing that could be formatted again, the types of the program and the
operations of all other documents stay, and in the document as much is found as before but for the one finding. -/

namespace CultureLint

open CultureLint.Part (exprs)

/-! ### Growth -/

namespace BoundProgram

theorem grows_foldl_bindDeclared {operand : Nat → Expr → Prop} {ds : List DeclaredType} {program : BoundProgram}
    (h : Bound operand program) (hd : ∀ x ∈ ds, program.compilation.Has x.type)
    (hc : ∀ x ∈ ds, Covers (operand x.document) (x.decl.members.flatMap MemberDecl.walk)) :
    program.compilation.Grows (ds.foldl bindDeclared program).compilation := by
  induction ds generalizing program with
  | nil => exact .refl _
  | cons x ds ih =>
    obtain ⟨hx, hd⟩ := List.forall_mem_cons.1 hd
    obtain ⟨hxc, hc⟩ := List.forall_mem_cons.1 hc
    obtain ⟨hb, hg⟩ := bound_bindDeclared h hx hxc
    exact hg.trans (ih hb (fun y hy => hg.within.has (hd y hy)) hc)

theorem coherent_declared (references : List Reference) (units : List CompilationUnit) :
    (declared references units).2.Coherent :=
  (Compilation.declares_declareTypes units (Compilation.coherent_ofReferences references)).coherent

/-- Binding the members of types takes no type away from those that are declared. -/
theorem grows_ofUnits (references : List Reference) (units : List CompilationUnit) :
    (declared references units).2.Grows (ofUnits references units).compilation := by
  obtain ⟨_, hc, hdeclared⟩ :=
    Compilation.declares_declareTypes units (Compilation.coherent_ofReferences references)
  have hstart : Bound (fun _ _ => True) ⟨(declared references units).2, Array.replicate units.length {}⟩ :=
    ⟨hc, fun i bound hu => by
      rw [Array.getElem?_replicate] at hu
      split at hu
      · cases hu
        exact UnitInv.empty hc
      · cases hu⟩
  refine grows_foldl_bindDeclared hstart (fun x hx => ?_) fun _ _ _ _ _ _ => trivial
  obtain ⟨_, _, hd⟩ := hdeclared x hx
  exact hd.type

end BoundProgram

/-! ### The finding -/

namespace Snapshot

/-- The rule matches a conversion of the expression. -/
structure Matches (s : Snapshot) (types : WellKnownTypes) (e : Expr) (id : OperationId) : Prop where
  of? : WellKnownTypes.of? s.compilation = some types
  origin : ∃ op, s.unit.get? id = some op ∧ op.origin = e.node.origin
  isSome : ∃ found, types.match? s.compilation s.unit id = some found

variable {s : Snapshot} {types : WellKnownTypes} {e : Expr} {id : OperationId}

theorem Matches.implicit (h : s.Matches types e id) (op : Operation) (hop : s.unit.get? id = some op) :
    op.isImplicit = true ∧ op.origin = e.node.origin := by
  obtain ⟨op', hop', horigin⟩ := h.origin
  obtain ⟨found, hm⟩ := h.isSome
  obtain ⟨op'', _, _, _, _, _, hop'', -, himplicit, -⟩ := UnitInv.match?_eq_some.1 hm
  cases hop.symm.trans hop'
  cases hop.symm.trans hop''
  exact ⟨himplicit, horigin⟩

/-- At a span where the rule finds something stands the operand that is mended. -/
theorem exists_operand_of_findsAt {p : Project} (hs : s ∈ p.snapshots) {span : Span} (h : s.FindsAt span)
    (host : ImportHost) : ∃ types e id q i, s.Matches types e id ∧ e.span = span ∧
      (q, i) ∈ s.document.tree.unit.walk ∧ e ∈ q.concatOperands ∧
      ∀ d, (s.mendOperand host e).run' .live = (.ok d, .live) → (s.applyFix host span).run' .live = (.ok d, .live) := by
  have hinv := Project.unitInv_of_mem_snapshots hs
  obtain ⟨e, he, hqualifies⟩ := (findsAt_iff hs).1 h
  obtain ⟨⟨i, hi⟩, hspan⟩ := SourceTree.mem_walk_of_expressionAt? he
  obtain ⟨types, ht, id, -, op, found, hop, hnode, hm⟩ := qualifies_eq_true_iff.1 hqualifies
  obtain ⟨c, ⟨⟨q, j⟩, hq, hc⟩, horigin⟩ := hinv.origin_of_match? (WellKnownTypes.of_of?_eq_some ht) hop hm
  obtain ⟨k, hk⟩ := CompilationUnit.mem_walk_of_mem_concatOperands hq hc
  have hsame : c.id = e.id := Option.some.inj ((congrArg Origin.node horigin).symm.trans hnode)
  obtain rfl := SourceTree.eq_of_id_eq s.document.tree_eq hk hi hsame
  refine ⟨types, c, id, q, j, ⟨ht, ⟨op, hop, horigin⟩, found, hm⟩, hspan, hq, hc, fun d hd => Run.run'_tryCatch ?_⟩
  rw [mend, Run.run'_bind Run.run'_check, he]
  simp only [hqualifies]
  exact hd

/-- A document is mended by a call in the place of the operand that was found, and by one line at the most; all
expressions stand behind the same directives as before. -/
theorem exists_replacing {p : Project} (hs : s ∈ p.snapshots) {span : Span} (h : s.FindsAt span)
    {host : ImportHost} (hhost : host = .adding ∨ host = .absent) :
    ∃ (types : WellKnownTypes) (e : Expr) (id : OperationId) (d : Document) (full : Bool) (more : List String),
      s.Matches types e id ∧ e.span = span ∧ (s.applyFix host span).run' .live = (.ok d, .live) ∧
      Replacing full more e s.document.tree.unit d.tree.unit ∧
      s.document.tree.BeginsLike ((exprs (parts s.document.tree.unit)).map
        (Expr.changeAt e.node (Expr.formatted full))) d.tree ∧ (host = .absent → more = []) := by
  obtain ⟨types, e, id, q, i, hmatches, hspan, hq, he, hrun⟩ := exists_operand_of_findsAt hs h host
  obtain ⟨k, hk⟩ := CompilationUnit.mem_walk_of_mem_concatOperands hq he
  obtain ⟨d, full, more, hd, halike, hbegins, hmore⟩ := s.exists_mended hhost hk
  exact ⟨types, e, id, d, full, more, hmatches, hspan, hrun d hd,
    .of_alike s.document.tree_eq halike hq he, hbegins, hmore⟩

end Snapshot

/-! ### The project -/

namespace Project

variable {p q : Project} {index : Nat} {s : Snapshot} {d : Document}

/-- The types that the documents declare, and all types of the program before their members are bound. -/
def declared (p : Project) : List DeclaredType × Compilation :=
  BoundProgram.declared p.references (p.documents.map (·.tree.unit))

/-- A word that is looked up in a type that is declared in both projects means something else in the second one. -/
def Renames (p q : Project) : Prop := ∃ x ∈ p.declared.1.zip q.declared.1, ∃ word ∈ x.1.decl.lookedUp,
  x.2.scope.resolveName q.declared.2 word ≠ x.1.scope.resolveName p.declared.2 word

/-- No call by which a value is formatted gives a value that could be formatted again. -/
def FormatsOnce (p : Project) : Prop :=
  ∀ types, WellKnownTypes.of? p.bind.compilation = some types → p.bind.compilation.FormatsOnce types

instance : Decidable (p.Renames q) :=
  inferInstanceAs (Decidable (∃ x ∈ p.declared.1.zip q.declared.1, ∃ word ∈ x.1.decl.lookedUp, _))

/-- All methods that make text of their values by one thing that is handed to them give strings. -/
def givesStrings (p : Project) : Bool :=
  (WellKnownTypes.of? p.bind.compilation).all fun types =>
    p.bind.compilation.types.all fun symbol => symbol.members.all (Compilation.givesString types)

theorem formatsOnce_of_givesStrings (h : p.givesStrings = true) : p.FormatsOnce := fun types ht =>
  Compilation.formatsOnce_of_givesString (by simpa [givesStrings, ht] using h)

theorem snapshot?_eq_some_iff : p.snapshot? index = some s ↔ ∃ d, p.documents[index]? = some d ∧
    s = ⟨d, p.bind.compilation, p.bind.units[index]?.getD {}⟩ := by
  rw [snapshot?, snapshots]
  simp only [List.getElem?_map, List.getElem?_zipIdx, Option.map_eq_some_iff]
  constructor
  · rintro ⟨_, ⟨d, hd, rfl⟩, rfl⟩
    exact ⟨d, hd, by simp⟩
  · rintro ⟨d, hd, rfl⟩
    exact ⟨_, ⟨d, hd, rfl⟩, by simp⟩

theorem bind_replaceDocument (p : Project) (index : Nat) (d : Document) : (p.replaceDocument index d).bind =
    BoundProgram.ofUnits p.references ((p.documents.map (·.tree.unit)).set index d.tree.unit) := by
  rw [bind, replaceDocument, List.map_set]

theorem declared_replaceDocument (p : Project) (index : Nat) (d : Document) : (p.replaceDocument index d).declared =
    BoundProgram.declared p.references ((p.documents.map (·.tree.unit)).set index d.tree.unit) := by
  rw [declared, replaceDocument, List.map_set]

section

variable {full : Bool} {more : List String} {e : Expr} (hs : p.snapshot? index = some s)
include hs

theorem unit_of_snapshot? : (p.documents.map (·.tree.unit))[index]? = some s.document.tree.unit := by
  obtain ⟨d, hd, rfl⟩ := snapshot?_eq_some_iff.1 hs
  simp [hd]

/-- The types of an edited document are declared as before, but for what else is imported. -/
theorem declared_edited (h : Replacing full more e s.document.tree.unit d.tree.unit) :
    List.Forall₂ (DeclaredType.Edited index (Expr.changeAt e.node (Expr.formatted full)) more) p.declared.1
        (p.replaceDocument index d).declared.1 ∧
      p.declared.2.SameNames (p.replaceDocument index d).declared.2 := by
  rw [declared_replaceDocument]
  obtain ⟨hall, hnames, -⟩ := Compilation.declareTypes_edited
    (Compilation.edited_set (unit_of_snapshot? hs) h.alike) (Compilation.ofReferences p.references)
  exact ⟨hall, hnames⟩

/-- Without a line that imports more, no word takes on another meaning. -/
theorem not_renames (h : Replacing full [] e s.document.tree.unit d.tree.unit) :
    ¬ p.Renames (p.replaceDocument index d) := by
  obtain ⟨hall, hnames⟩ := declared_edited hs h
  rintro ⟨⟨x, x'⟩, hx, word, -, hne⟩
  have hedited := List.forall₂_zip hall hx
  have hscope : x'.scope = x.scope := by
    by_cases hdoc : x.document = index
    · exact (hedited.alike hdoc).scope.eq_of_nil rfl
    · rw [hedited.same hdoc]
  exact hne (hscope ▸ Scope.resolveName_of_sameNames hnames word)

/-- Where no word takes on another meaning, the scopes agree about all words. -/
theorem agreeOn_of_not_renames (h : Replacing full more e s.document.tree.unit d.tree.unit)
    (hrenames : ¬ p.Renames (p.replaceDocument index d)) :
    List.Forall₂ (fun x x' => Scope.AgreeOn p.declared.2 x.decl.lookedUp x.scope x'.scope) p.declared.1
      (p.replaceDocument index d).declared.1 := by
  obtain ⟨hall, hnames⟩ := declared_edited hs h
  refine List.forall₂_iff_zip.2 ⟨hall.length_eq, fun {x x'} hx word hword => ?_⟩
  rw [← Scope.resolveName_of_sameNames hnames]
  by_contra hne
  exact hrenames ⟨(x, x'), hx, word, hword, hne⟩

end

/-! ### One finding less -/

section

variable {types : WellKnownTypes} {e : Expr} {id : OperationId} {shows shows' : Nat → Bool}

/-- The document before and after the edit, in the search for what the rule finds. -/
def comparison (p q : Project) (index : Nat) (h : s.Matches types e id) (shows shows' : Nat → Bool) : Comparison where
  base := p.declared.2
  knows := fun _ => True
  sought := types.sought s.compilation shows
  shows' := shows'
  last := s.unit
  last' := q.bind.units[index]?.getD {}
  hole := e.node
  found := id
  of_found := h.implicit

/-- What the rule matches is found to be converted and joined to strings. -/
theorem finding_comparison (hs : p.snapshot? index = some s) (h : s.Matches types e id)
    (hnonempty : e.node.span.start < e.node.span.stop) : (p.comparison q index h shows shows').Finding := by
  have hmem : s ∈ p.snapshots := List.mem_of_getElem? hs
  have hinv := Project.unitInv_of_mem_snapshots hmem
  have ht := WellKnownTypes.of_of?_eq_some h.of?
  have hgrows := BoundProgram.grows_ofUnits p.references (p.documents.map (·.tree.unit))
  obtain ⟨doc, -, rfl⟩ := snapshot?_eq_some_iff.1 hs
  have hstring : p.declared.2.special? .string = some types.string := (hgrows.special?_eq _).symm.trans ht.string
  obtain ⟨found, hm⟩ := h.isSome
  obtain ⟨op, x, how, parent, T, method, hop, hkind, himplicit, -, -, hparent, hjoins, htype, -⟩ :=
    UnitInv.match?_eq_some.1 hm
  obtain ⟨hi, hroots⟩ := Snapshot.rootsLie hmem
  refine ⟨hnonempty, hinv.forest, ⟨_, _, _, hroots⟩, ?_, ?_⟩
  · obtain ⟨p, hp, hpart⟩ := (hinv.parent?_eq_some_iff hop).1 hparent
    refine ⟨op, p, parent, types.string, hop, hp, hpart, Snapshot.isInfix_of_joinsStrings hjoins, hstring, ?_⟩
    rw [WellKnownTypes.joinsStrings] at hjoins
    split at hjoins
    · exact of_decide_eq_true hjoins
    · exact of_decide_eq_true hjoins
    · cases hjoins
  · rintro y ⟨op', how', hop', hkind'⟩
    cases hop.symm.trans hop'
    obtain ⟨rfl, -⟩ : y = x ∧ how' = how := by simpa using hkind'.symm.trans hkind
    obtain ⟨-, T', -, htype', hformat, -⟩ := (hinv.match?_eq_some_iff ht).1 hm
    rw [BoundUnit.unconverted_of_conversion hop hkind himplicit] at htype'
    exact ⟨T', htype', fun heq => hformat.ne_string (Option.some.inj (heq.symm.trans hstring)),
      (WellKnownTypes.isFormattable_eq_true_iff ht T').2 hformat⟩

/-- Mending a finding leaves the types of the program and all other documents as they are, and one finding less in the
document. -/
theorem edited (hs : p.snapshot? index = some s) (h : s.Matches types e id) {full : Bool} {more : List String}
    (hreplacing : Replacing full more e s.document.tree.unit d.tree.unit) (hformats : p.FormatsOnce)
    (hrenames : ¬ p.Renames (p.replaceDocument index d))
    (hcounts : ∀ K, Expr.Faces (Expr.Replaces e.node (Expr.formatted full)) K (exprs (parts s.document.tree.unit))
        (exprs (parts d.tree.unit)) → (∀ c c', .kept c c' ∈ K → c.node ≠ e.node) →
      Replacing.CountsLike (p.comparison (p.replaceDocument index d) index h shows shows') full e K)
    (hshown : shows e.node.span.start = true) :
    (p.replaceDocument index d).bind.compilation = p.bind.compilation ∧
      (∀ i ≠ index, (p.replaceDocument index d).bind.units[i]? = p.bind.units[i]?) ∧
      ((p.replaceDocument index d).bind.units[index]?.getD {}).countJoined types
          (((p.replaceDocument index d).bind.units[index]?.getD {}).isSought (types.sought s.compilation shows')) + 1 =
        s.unit.countJoined types (s.unit.isSought (types.sought s.compilation shows)) := by
  have hmem : s ∈ p.snapshots := List.mem_of_getElem? hs
  have hinv := Project.unitInv_of_mem_snapshots hmem
  have ht := WellKnownTypes.of_of?_eq_some h.of?
  have hnonempty := (hreplacing.tidy_of_mem hreplacing.mem_within).orderly.nonempty
  have hgrows := BoundProgram.grows_ofUnits p.references (p.documents.map (·.tree.unit))
  have hF : (p.comparison (p.replaceDocument index d) index h shows shows').Finding :=
    finding_comparison hs h hnonempty
  obtain ⟨doc, -, heq⟩ := snapshot?_eq_some_iff.1 hs
  have hcompilation : s.compilation = p.bind.compilation := by rw [heq]
  have hunit : s.unit = p.bind.units[index]?.getD {} := by rw [heq]
  have hagree := agreeOn_of_not_renames hs hreplacing hrenames
  rw [declared_replaceDocument] at hagree
  have hplain (c : Compilation) (hc : c.Coherent) (hbase : p.declared.2.Grows c) (T : TypeId)
      (hT : types.isFormattable s.compilation T = true) (arg : Bind.ArgumentType) (ref : MemberRef)
      (method : MethodSymbol) (hoverload : Bind.overload? c T "ToString" [arg] = some (ref, method)) :
      method.returns.any (types.isFormattable s.compilation) = false := by
    refine Bool.eq_false_iff.2 fun hany => ?_
    obtain ⟨U, hU, hformattable⟩ := Option.any_eq_true _ _ |>.1 hany
    have honce : s.compilation.FormatsOnce types := hcompilation ▸ hformats types (hcompilation ▸ h.of?)
    exact honce.of_overload? (BoundProgram.coherent_declared _ _) (hcompilation ▸ hgrows) hbase hc
      ((WellKnownTypes.isFormattable_eq_true_iff ht T).1 hT) hoverload hU
      ((WellKnownTypes.isFormattable_eq_true_iff ht U).1 hformattable)
  obtain ⟨K, hfaces, hkept⟩ := hreplacing.exists_faces
  obtain ⟨hsame, hothers, hcount⟩ := hreplacing.ofUnits_edited (C := p.comparison _ index h shows shows')
    (unit_of_snapshot? hs) rfl hunit (by rw [comparison, bind_replaceDocument]) rfl hF hfaces hkept
    (hcounts K hfaces hkept) hplain hagree
  rw [← bind_replaceDocument] at hsame hothers
  refine ⟨hsame, hothers, ?_⟩
  obtain ⟨found, hm⟩ := h.isSome
  obtain ⟨op, hop, horigin⟩ := h.origin
  obtain ⟨hjoined, hsought⟩ := (hinv.match?_isSome_iff ht shows).1 ⟨found, op, hm, hop, by rwa [horigin]⟩
  have hless := hinv.forest.countJoined_add_one hjoined hsought fun z => rfl
  rw [← hless]
  exact congrArg (· + 1) hcount

end

end Project

end CultureLint
