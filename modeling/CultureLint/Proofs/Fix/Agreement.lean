import CultureLint.Fix.Conversion
import CultureLint.Proofs.Document.Places
import CultureLint.Proofs.Fix.ImportScope
import CultureLint.Proofs.Fix.Substitution
import CultureLint.Proofs.Rule.Findings

/-! What is found can be mended, and nothing else is: the place of a finding leads back to the operand,
the text around the call is read again, and the import is added, so that none of the steps that would
leave the document as it is ever does. -/

namespace CultureLint

/-- The rule finds something at a conversion that stands at the span. -/
def Snapshot.FindsAt (s : Snapshot) (span : Span) : Prop :=
  ∃ types, WellKnownTypes.of? s.compilation = some types ∧ ∃ id ∈ s.unit.conversions,
    ∃ op found, s.unit.get? id = some op ∧ op.origin.span = span ∧
      types.match? s.compilation s.unit id = some found

/-! ### From a place to a finding and back -/

/-- What the rule matches comes from an operand. -/
theorem UnitInv.origin_of_match? {operand : Expr → Prop} {c : Compilation} {unit : BoundUnit}
    {types : WellKnownTypes} (h : UnitInv operand c unit []) (ht : types.Of c) {id : OperationId}
    {op : Operation} {found : ConversionMatch} (hop : unit.get? id = some op)
    (hm : types.match? c unit id = some found) : ∃ e, operand e ∧ op.origin = e.node.origin := by
  obtain ⟨op', x, conversion, _, _, _, hop', hkind, himplicit, -⟩ := match?_eq_some.1 hm
  obtain rfl := Option.some.inj (hop'.symm.trans hop)
  obtain ⟨hj, -⟩ := (h.match?_eq_some_iff ht).1 hm
  cases (h.joined_of_isJoined ht hj).1 with
  | asIs hwritten =>
    obtain ⟨op', hop', hw⟩ := hwritten
    obtain rfl := Option.some.inj (hop'.symm.trans hop)
    cases himplicit.symm.trans hw
  | converted e x' conversion' op' he hop' hkind' himplicit' horigin =>
    obtain rfl := Option.some.inj (hop'.symm.trans hop)
    exact ⟨e, he, horigin⟩

namespace Snapshot

variable {p : Project} {s : Snapshot} {span : Span} {e : Expr}

theorem qualifies_eq_true_iff : s.qualifies e = true ↔
    ∃ types, WellKnownTypes.of? s.compilation = some types ∧ ∃ id ∈ s.unit.conversions,
      ∃ op found, s.unit.get? id = some op ∧ op.origin.node = some e.id ∧
        types.match? s.compilation s.unit id = some found := by
  simp only [qualifies, Option.any_eq_true, List.any_eq_true, Bool.and_eq_true, beq_iff_eq,
    Option.bind_eq_some_iff, Option.isSome_iff_exists]
  refine exists_congr fun types => and_congr_right fun _ => exists_congr fun id => and_congr_right fun _ => ?_
  constructor
  · rintro ⟨⟨op, hop, hnode⟩, found, hm⟩
    exact ⟨op, found, hop, hnode, hm⟩
  · rintro ⟨op, found, hop, hnode, hm⟩
    exact ⟨⟨op, hop, hnode⟩, found, hm⟩

/-- The rule finds something at a span where the expression that stands there qualifies. -/
theorem findsAt_iff (hs : s ∈ p.snapshots) : s.FindsAt span ↔
    ∃ e, s.document.tree.expressionAt? span = some e ∧ s.qualifies e = true := by
  have h := Project.unitInv_of_mem_snapshots hs
  -- An operation that the rule matches has the number and the place of one and the same expression.
  have origin {types : WellKnownTypes} (ht : WellKnownTypes.of? s.compilation = some types)
      {id : OperationId} {op : Operation} {found : ConversionMatch} (hop : s.unit.get? id = some op)
      (hm : types.match? s.compilation s.unit id = some found) :
      ∃ e i, (e, i) ∈ s.document.tree.unit.walk ∧ op.origin = e.node.origin := by
    obtain ⟨e, ⟨q, hq, he⟩, horigin⟩ := h.origin_of_match? (WellKnownTypes.of_of?_eq_some ht) hop hm
    obtain ⟨i, hi⟩ := CompilationUnit.mem_walk_of_mem_concatOperands hq he
    exact ⟨e, i, hi, horigin⟩
  constructor
  · rintro ⟨types, ht, id, hid, op, found, hop, rfl, hm⟩
    obtain ⟨e, i, hi, horigin⟩ := origin ht hop hm
    refine ⟨e, ?_, qualifies_eq_true_iff.2 ⟨types, ht, id, hid, op, found, hop, by rw [horigin]; rfl, hm⟩⟩
    rw [horigin]
    exact SourceTree.expressionAt?_eq_some s.document.tree_eq hi
  · rintro ⟨e, he, hq⟩
    obtain ⟨⟨i, hi⟩, rfl⟩ := SourceTree.mem_walk_of_expressionAt? he
    obtain ⟨types, ht, id, hid, op, found, hop, hnode, hm⟩ := qualifies_eq_true_iff.1 hq
    obtain ⟨d, j, hj, horigin⟩ := origin ht hop hm
    have hsame : d.id = e.id := Option.some.inj ((congrArg Origin.node horigin).symm.trans hnode)
    obtain rfl := SourceTree.eq_of_id_eq s.document.tree_eq hj hi hsame
    exact ⟨types, ht, id, hid, op, found, hop, congrArg Origin.span horigin, hm⟩

end Snapshot

/-! ### Mending -/

namespace Text

theorem cut?_eq_some {cs before inside after : List Char} {span : Span}
    (h : cut? cs span = some (before, inside, after)) :
    cs = before ++ (inside ++ after) ∧ byteLength inside = span.length := by
  simp only [cut?, Option.bind_eq_bind, Option.bind_eq_some_iff, Option.pure_def, Option.some.injEq,
    Prod.exists, Prod.mk.injEq] at h
  obtain ⟨_, rest, hstart, _, _, hlength, rfl, rfl, rfl⟩ := h
  obtain ⟨rfl, -⟩ := splitAt?_eq_some hstart
  obtain ⟨rfl, hbytes⟩ := splitAt?_eq_some hlength
  exact ⟨rfl, hbytes⟩

/-- The call is longer than what it is put around. -/
theorem length_lt_of_replace? {text text' operand : String} {span : Span} {isPrimary full : Bool}
    (hslice : slice? text span = some operand)
    (h : replace? text span (formatCall isPrimary operand (cultureText full)) = some text') :
    text.toList.length < text'.toList.length := by
  obtain ⟨⟨before, inside, after⟩, hcut, rfl⟩ := Option.map_eq_some_iff.1 hslice
  obtain ⟨⟨_, _, _⟩, hcut', rfl⟩ := Option.map_eq_some_iff.1 h
  obtain ⟨rfl, rfl, rfl⟩ : before = _ ∧ inside = _ ∧ after = _ := by simpa [hcut] using hcut'
  have hpost : 0 < (written (postLexemes isPrimary full)).length := by
    cases isPrimary <;> cases full <;> decide
  simp only [String.toList_ofList, formatCall_toList, (cut?_eq_some hcut).1, List.length_append]
  omega

theorem length_le_of_insert? {text text' inserted : String} {offset : Nat}
    (h : insert? text offset inserted = some text') : text.toList.length ≤ text'.toList.length := by
  obtain ⟨⟨before, inside, after⟩, hcut, rfl⟩ := Option.map_eq_some_iff.1 h
  obtain ⟨htext, hbytes⟩ := cut?_eq_some hcut
  have hinside : inside = [] := by
    by_contra hne
    have := byteLength_pos hne
    simp [hbytes, Span.length, Span.empty] at this
  simp only [htext, hinside, String.toList_ofList, List.length_append, List.length_nil]
  omega

end Text

namespace Document

variable (d : Document) {space : String} {position : Nat}

theorem run'_resolveImport_adding {text : String} {tree : SourceTree}
    (hscope : d.tree.unit.isInScope space position = false)
    (hinsert : Text.insert? d.text (d.importInsertion space position).1 (d.importInsertion space position).2 =
      some text) (htree : SourceTree.ofText text = .ok tree) :
    (d.resolveImport .adding space position).run' .live =
      (.ok (.inserted ⟨d.path, text, tree, d.version + 1, htree⟩), .live) := by
  have hadded : (d.insertImport .adding space position).run' .live =
      (.ok (some ⟨d.path, text, tree, d.version + 1, htree⟩), .live) :=
    Run.run'_map (d.run'_addImport hinsert htree)
  rw [resolveImport, Run.run'_bind Run.run'_check, if_neg (by simp [hscope])]
  exact Run.run'_bind hadded

theorem run'_resolveImport_absent (hscope : d.tree.unit.isInScope space position = false) :
    (d.resolveImport .absent space position).run' .live = (.ok .unavailable, .live) := by
  rw [resolveImport, Run.run'_bind Run.run'_check, if_neg (by simp [hscope])]
  rfl

end Document

namespace Snapshot

variable (s : Snapshot) {e : Expr} {i : Nat}

/-- Replacing an expression of the document by the call is done, and the text becomes longer. -/
theorem run'_replaceOperand (he : (e, i) ∈ s.document.tree.unit.walk) (full : Bool) :
    ∃ d : Document, (s.replaceOperand e (cultureText full)).run' .live = (.ok d, .live) ∧
      s.document.text.toList.length < d.text.toList.length ∧ d.tree.unit.members ≠ [] := by
  obtain ⟨operand, text', tree', hslice, hreplace, htree, hbare, -⟩ :=
    ofText_formatCall s.document.tree_eq he full
  have hsession : (EditSession.ofDocument s.document).replace? e.span
      (formatCall e.isPrimary operand (cultureText full)) = some ⟨s.document, text'⟩ := by
    simp [EditSession.replace?, EditSession.ofDocument, hreplace]
  refine ⟨⟨s.document.path, text', tree', s.document.version + 1, htree⟩, ?_,
    Text.length_lt_of_replace? hslice hreplace, ?_⟩
  · simp only [replaceOperand, hslice, Option.getD_some, hsession, Document.commitEdit, EditSession.commit,
      Run.run'_bind Run.run'_check, Document.withText, Document.ofText_eq_ok htree]
    rfl
  · intro hnil
    have hmembers : tree'.unit.members.length = s.document.tree.unit.members.length := by
      have := congrArg (fun tree : SourceTree => tree.unit.members.length) hbare
      simpa [bare, SourceTree.changeAt, Outline.map] using this
    have hnil : s.document.tree.unit.members = [] :=
      List.eq_nil_of_length_eq_zero (hmembers.symm.trans (congrArg List.length hnil))
    simp [CompilationUnit.walk, hnil, NamespaceMember.walkAll] at he

/-- Mending an expression of the document is done, and the text becomes longer. -/
theorem run'_mendOperand {host : ImportHost} (hhost : host = .adding ∨ host = .absent)
    (he : (e, i) ∈ s.document.tree.unit.walk) :
    ∃ d : Document, (s.mendOperand host e).run' .live = (.ok d, .live) ∧
      s.document.text.toList.length < d.text.toList.length := by
  obtain ⟨long, hlong, hlonger, -⟩ := s.run'_replaceOperand he true
  obtain ⟨short, hshort, hshorter, hmembers⟩ := s.run'_replaceOperand he false
  change (s.replaceOperand e fullCulture).run' .live = _ at hlong
  change (s.replaceOperand e shortCulture).run' .live = _ at hshort
  have hspace : IsNamespaceName cultureNamespace := ⟨"System", ["Globalization"], by decide, by decide⟩
  unfold mendOperand
  split
  · exact ⟨long, hlong, hlonger⟩
  rw [Run.run'_bind hshort]
  cases hscope : short.tree.unit.isInScope cultureNamespace e.span.start with
  | true =>
    refine ⟨short, ?_, hshorter⟩
    rw [Run.run'_bind (short.run'_resolveImport_of_isInScope host hscope)]
    rfl
  | false =>
    obtain rfl | rfl := hhost
    · obtain ⟨text, tree, hinsert, htree, -⟩ :=
        short.exists_imported hspace e.span.start (.inr (.inl hmembers))
      refine ⟨⟨short.path, text, tree, short.version + 1, htree⟩, ?_, ?_⟩
      · rw [Run.run'_bind (short.run'_resolveImport_adding hscope hinsert htree)]
        rfl
      · exact Nat.lt_of_lt_of_le hshorter (Text.length_le_of_insert? hinsert)
    · refine ⟨long, ?_, hlonger⟩
      rw [Run.run'_bind (short.run'_resolveImport_absent hscope)]
      exact hlong

/-- At a span where the rule finds something the document is mended, and elsewhere it stays. -/
theorem run'_applyFix {p : Project} {s : Snapshot} (hs : s ∈ p.snapshots) {host : ImportHost}
    (hhost : host = .adding ∨ host = .absent) (span : Span) :
    ∃ d : Document, (s.applyFix host span).run' .live = (.ok d, .live) ∧
      (s.FindsAt span → s.document.text.toList.length < d.text.toList.length) ∧
      (¬ s.FindsAt span → d = s.document) := by
  have stays (hmend : (s.mend host span).run' .live = (.ok s.document, .live)) (hnot : ¬ s.FindsAt span) :
      ∃ d : Document, (s.applyFix host span).run' .live = (.ok d, .live) ∧
        (s.FindsAt span → s.document.text.toList.length < d.text.toList.length) ∧
        (¬ s.FindsAt span → d = s.document) :=
    ⟨s.document, Run.run'_tryCatch hmend, fun h => absurd h hnot, fun _ => rfl⟩
  have hfinds : s.FindsAt span ↔ _ := findsAt_iff hs
  cases he : s.document.tree.expressionAt? span with
  | none =>
    refine stays ?_ (by simp [hfinds, he])
    rw [mend, Run.run'_bind Run.run'_check, he]
    rfl
  | some e =>
    obtain ⟨⟨i, hi⟩, rfl⟩ := SourceTree.mem_walk_of_expressionAt? he
    cases hq : s.qualifies e with
    | false =>
      refine stays ?_ (by simp [hfinds, he, hq])
      rw [mend, Run.run'_bind Run.run'_check, he]
      simp only [hq]
      rfl
    | true =>
      obtain ⟨d, hd, hlonger⟩ := s.run'_mendOperand hhost hi
      have hat : s.FindsAt e.span := hfinds.2 ⟨e, he, hq⟩
      refine ⟨d, Run.run'_tryCatch ?_, fun _ => hlonger, fun hnot => absurd hat hnot⟩
      rw [mend, Run.run'_bind Run.run'_check, he]
      simp only [hq]
      exact hd

theorem findsAt_of_mem_allFindings {s : Snapshot} {x : Diagnostic} (hx : x ∈ s.allFindings) {span : Span}
    (hspan : x.span = some span) : s.FindsAt span := by
  unfold allFindings at hx
  cases ht : WellKnownTypes.of? s.compilation with
  | none => simp [ht] at hx
  | some types =>
    rw [ht, Option.elim_some] at hx
    obtain ⟨id, hid, hx⟩ := List.mem_filterMap.1 hx
    obtain ⟨op, found, hop, hm, rfl⟩ := exists_of_findingAt hx hspan
    exact ⟨types, ht, id, hid, op, found, hop, rfl, hm⟩

/-- Finding and mending agree. A document is changed at just those spans where the rule matches a
conversion, and stays with its version at all others; so what is reported at a span can be mended there. -/
theorem applyFix_agrees {p : Project} {s : Snapshot} (hs : s ∈ p.snapshots) {host : ImportHost}
    (hhost : host = .adding ∨ host = .absent) (span : Span) :
    ∃ d : Document, (s.applyFix host span).run' .live = (.ok d, .live) ∧
      (d.text ≠ s.document.text ↔ s.FindsAt span) ∧
      (¬ s.FindsAt span → d.text = s.document.text ∧ d.version = s.document.version) ∧
      ∀ ds, s.analyze.run' .live = (.ok ds, .live) → ∀ x ∈ ds, x.span = some span →
        d.text ≠ s.document.text := by
  obtain ⟨d, hd, hlonger, hstays⟩ := run'_applyFix hs hhost span
  have hchanged (h : s.FindsAt span) : d.text ≠ s.document.text := fun heq => by
    simpa [heq] using hlonger h
  refine ⟨d, hd, ⟨fun hne => ?_, hchanged⟩, fun hnot => by simp [hstays hnot], fun ds hds x hx hspan => ?_⟩
  · by_contra hnot
    exact hne (by rw [hstays hnot])
  · obtain rfl : s.allFindings = ds := by simpa [run'_analyze] using hds
    exact hchanged (findsAt_of_mem_allFindings hx hspan)

/-- A class whose only field adds a number to a string. -/
def addingText : String := "class C\x7bstring f=\"x\"+1;\x7d"

theorem applyFix_agrees_adding : ∃ (p : Project) (s : Snapshot) (span : Span) (d : Document),
    s ∈ p.snapshots ∧ s.FindsAt span ∧ (s.applyFix .adding span).run' .live = (.ok d, .live) ∧
      d.text ≠ s.document.text := by
  have found : ((Document.parse "C.cs" addingText).toOption.any fun d =>
      (Project.mk [.core, .globalization] [d]).snapshots.any fun s =>
        s.allFindings.any fun x => x.span.isSome) = true := by decide +kernel
  obtain ⟨d, -, found⟩ := Option.any_eq_true _ _ |>.1 found
  obtain ⟨s, hs, found⟩ := List.any_eq_true.1 found
  obtain ⟨x, hx, hsome⟩ := List.any_eq_true.1 found
  obtain ⟨span, hspan⟩ := Option.isSome_iff_exists.1 hsome
  obtain ⟨d', hd', hiff, -⟩ := applyFix_agrees hs (.inl rfl) span
  have hfinds := findsAt_of_mem_allFindings hx hspan
  exact ⟨_, s, span, d', hs, hfinds, hd', hiff.2 hfinds⟩

end Snapshot

end CultureLint
