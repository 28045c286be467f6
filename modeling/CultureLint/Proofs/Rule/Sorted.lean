import CultureLint.Proofs.Binding.LayingProgram
import CultureLint.Proofs.Fix.Agreement
import CultureLint.Proofs.Parser.Fitting

/-! Findings come in the order of the text: no two of them stand at the same place, and of two where one
stands inside the other the outer one comes first. The operations of a document come in this order too, but
for the initial value of a property behind a body. -/

namespace CultureLint

/-- Where the operations of a document start, in the order of the walk. -/
def BoundUnit.starts (unit : BoundUnit) : List Nat :=
  (unit.descendants.filterMap unit.get?).map (·.origin.span.start)

/-- Whether no property of the document has both a body and an initial value. -/
def Document.isPlain (d : Document) : Bool := d.tree.unit.types.all fun type => type.members.all (·.isPlain)

/-- One span comes before another one: it does not start behind it, and is not inside it. -/
structure Span.ComesBefore (a b : Span) : Prop where
  ne : a ≠ b
  start : a.start ≤ b.start
  outer : b.contains a = false

namespace Snapshot

variable {p : Project} {s : Snapshot}

/-- The roots of a document lie in it in the order of the text. -/
theorem rootsLie (hs : s ∈ p.snapshots) :
    ∃ hi, s.unit.RootsLie (s.document.isPlain = true) 0 hi s.unit.roots := by
  obtain ⟨⟨document, index⟩, hi, rfl⟩ := List.mem_map.1 hs
  obtain ⟨size, hfits⟩ := SourceTree.fits_ofText document.tree_eq
  have hunit : (p.documents.map (·.tree.unit))[index]? = some document.tree.unit := by
    simp [List.mem_zipIdx_iff_getElem?.1 hi]
  have hplain : document.isPlain = true → ∀ type ∈ document.tree.unit.types,
      type.members.all (·.isPlain) = true := List.all_eq_true.1
  obtain ⟨bound, hbound, hlie⟩ := BoundProgram.rootsLie_ofUnits p.references hunit hfits hplain
  have hbound : p.bind.units[index]? = some bound := hbound
  simp only [hbound, Option.getD_some]
  exact ⟨size, hlie⟩

theorem starts_sorted (hs : s ∈ p.snapshots) (h : s.document.isPlain = true) :
    s.unit.starts.Pairwise (· ≤ ·) := by
  obtain ⟨hi, hroots⟩ := rootsLie hs
  have horder := (Project.unitInv_of_mem_snapshots hs).forest.pairwise_descendants (hroots.lies h)
  rw [BoundUnit.starts, List.pairwise_map, List.pairwise_filterMap]
  refine horder.imp fun hprecedes a ha b hb => ?_
  obtain ⟨a', b', ha', hb', hspans⟩ := hprecedes
  cases ha.symm.trans ha'
  cases hb.symm.trans hb'
  have := a.origin.span.start_le_stop
  omega

/-- What the rule finds takes up some text. -/
theorem nonempty_of_match? (hs : s ∈ p.snapshots) {types : WellKnownTypes} (ht : types.Of s.compilation)
    {id : OperationId} {op : Operation} {found : ConversionMatch} (hop : s.unit.get? id = some op)
    (hm : types.match? s.compilation s.unit id = some found) : op.origin.span.start < op.origin.span.stop := by
  obtain ⟨e, ⟨q, hq, he⟩, horigin⟩ := (Project.unitInv_of_mem_snapshots hs).origin_of_match? ht hop hm
  obtain ⟨a, ha, he⟩ := CompilationUnit.mem_walk_iff.1 (CompilationUnit.mem_walk_of_mem_concatOperands hq he)
  rw [horigin]
  exact ((SourceTree.orderly s.document.tree_eq).1 a ha e he).nonempty

/-- What joins strings has an operator. -/
theorem isInfix_of_joinsStrings {types : WellKnownTypes} {op : Operation} (h : types.joinsStrings op = true) :
    op.kind.isInfix = true := by
  rw [WellKnownTypes.joinsStrings] at h
  split at h
  case h_1 hkind => simp [hkind, OperationKind.isInfix]
  case h_2 hkind => simp [hkind, OperationKind.isInfix]
  case h_3 => cases h

/-- Of two conversions that the rule matches, the one that is met first comes first. -/
theorem comesBefore_of_precedes (hs : s ∈ p.snapshots) {types : WellKnownTypes} (ht : types.Of s.compilation)
    {u v : OperationId} {a b : Operation} {found found' : ConversionMatch} (ha : s.unit.get? u = some a)
    (hb : s.unit.get? v = some b) (hu : types.match? s.compilation s.unit u = some found)
    (hv : types.match? s.compilation s.unit v = some found') (h : s.unit.Precedes u v) :
    a.origin.span.ComesBefore b.origin.span := by
  obtain ⟨a', b', ha', hb', hspans⟩ := h
  cases ha.symm.trans ha'
  cases hb.symm.trans hb'
  have hinv := Project.unitInv_of_mem_snapshots hs
  have hempty := nonempty_of_match? hs ht ha hu
  obtain hdisjoint | ⟨hstart, hstop, q, op, hq, hpart, hsmaller⟩ := hspans
  · refine ⟨fun heq => ?_, by omega, ?_⟩
    · rw [← heq] at hdisjoint
      omega
    · rw [Span.contains, Bool.and_eq_false_iff, decide_eq_false_iff_not]
      exact .inl (by omega)
  · -- The operation around the second one joins strings, and so does not stand where its operand does.
    obtain ⟨b', _, _, parent, _, _, hb', -, -, -, -, hparent, hjoins, -⟩ := UnitInv.match?_eq_some.1 hv
    obtain ⟨r, hr, hpart'⟩ := (hinv.parent?_eq_some_iff hb).1 hparent
    have hq' : v ∈ s.unit.childrenOf q := by simpa [BoundUnit.childrenOf, hq] using hpart
    have hr' : v ∈ s.unit.childrenOf r := by simpa [BoundUnit.childrenOf, hr] using hpart'
    obtain rfl := hinv.forest.eq_of_mem_childrenOf hq' hr'
    obtain rfl := Option.some.inj (hq.symm.trans hr)
    have hne := hsmaller (isInfix_of_joinsStrings hjoins)
    refine ⟨fun heq => hne heq.symm, hstart, Bool.eq_false_iff.2 fun hcontains => hne ?_⟩
    simp only [Span.contains, Bool.and_eq_true, decide_eq_true_eq] at hcontains
    exact BoundUnit.span_ext (by omega) (by omega)

/-- Findings come in the order of the text, and the operations of a document do so where no property has both
a body and an initial value. -/
theorem analyze_in_order (hs : s ∈ p.snapshots) :
    (∃ ds, s.analyze.run' .live = (.ok ds, .live) ∧ (ds.filterMap (·.span)).Pairwise Span.ComesBefore) ∧
      (s.document.isPlain = true → s.unit.starts.Pairwise (· ≤ ·)) := by
  refine ⟨⟨_, s.run'_analyze, ?_⟩, starts_sorted hs⟩
  unfold allFindings
  cases ht : WellKnownTypes.of? s.compilation with
  | none => exact .nil
  | some types =>
    obtain ⟨hi, hroots⟩ := rootsLie hs
    have horder := (Project.unitInv_of_mem_snapshots hs).forest.pairwise_conversions hroots
    simp only [Option.elim_some]
    rw [List.filterMap_filterMap, List.pairwise_filterMap]
    refine horder.imp fun hprecedes a ha b hb => ?_
    obtain ⟨x, hx, hxa⟩ := Option.bind_eq_some_iff.1 ha
    obtain ⟨y, hy, hyb⟩ := Option.bind_eq_some_iff.1 hb
    obtain ⟨op, found, hop, hm, rfl⟩ := exists_of_findingAt hx hxa
    obtain ⟨op', found', hop', hm', rfl⟩ := exists_of_findingAt hy hyb
    exact comesBefore_of_precedes hs (WellKnownTypes.of_of?_eq_some ht) hop hop' hm hm' hprecedes

/-- A class with a property that has an initial value, in which a call that joins strings is joined to one. -/
def nestedText : String := "class C\x7bint F(string s);string P\x7bget;\x7d=\"x\"+F(\"y\"+2);\x7d"

theorem analyze_in_order_nested : ∃ (p : Project) (s : Snapshot) (ds : List Diagnostic), s ∈ p.snapshots ∧
    s.analyze.run' .live = (.ok ds, .live) ∧ (ds.filterMap (·.span)).length = 2 ∧
      (ds.filterMap (·.span)).Pairwise Span.ComesBefore ∧ s.document.isPlain = true ∧
        s.unit.starts.Pairwise (· ≤ ·) := by
  have found : ((Document.parse "C.cs" nestedText).toOption.any fun d =>
      (Project.mk [.core, .globalization] [d]).snapshots.any fun s =>
        s.document.isPlain && (s.allFindings.filterMap (·.span)).length = 2) = true := by decide +kernel
  obtain ⟨d, -, found⟩ := Option.any_eq_true _ _ |>.1 found
  obtain ⟨s, hs, found⟩ := List.any_eq_true.1 found
  obtain ⟨hplain, hlength⟩ := Bool.and_eq_true_iff.1 found
  obtain ⟨⟨ds, hds, horder⟩, hstarts⟩ := analyze_in_order hs
  obtain rfl : s.allFindings = ds := by simpa [s.run'_analyze] using hds
  exact ⟨_, s, _, hs, hds, by simpa using hlength, horder, hplain, hstarts hplain⟩

/-- A class with a property that has both a body and an initial value. -/
def initialText : String := "class C\x7bstring P\x7bget\x7breturn \"\";\x7d\x7d=\"x\"+1;\x7d"

/-- The initial value of a property is met behind the body, and starts before it. -/
theorem starts_initial : ∃ (p : Project) (s : Snapshot), s ∈ p.snapshots ∧
    ¬s.unit.starts.Pairwise (· ≤ ·) := by
  have found : ((Document.parse "C.cs" initialText).toOption.any fun d =>
      (Project.mk [.core, .globalization] [d]).snapshots.any fun s =>
        !decide (s.unit.starts.Pairwise (· ≤ ·))) = true := by decide +kernel
  obtain ⟨d, -, found⟩ := Option.any_eq_true _ _ |>.1 found
  obtain ⟨s, hs, found⟩ := List.any_eq_true.1 found
  exact ⟨_, s, hs, by simpa using found⟩

end Snapshot

end CultureLint
