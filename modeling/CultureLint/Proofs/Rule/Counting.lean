import CultureLint.Proofs.Binding.Tally
import CultureLint.Proofs.Rule.Findings

/-! How many findings there are in a document, counted along the operations: each conversion that the rule matches
is a part of one operation that joins strings. -/

namespace CultureLint

namespace WellKnownTypes

variable (types : WellKnownTypes) (c : Compilation)

/-- Whether the values of a type become objects in a string concatenation, although a method of the type would make
text of them by a given culture. -/
def isFormattable (type : TypeId) : Bool :=
  type ≠ types.string && type ≠ types.object && (c.convertType type types.object).isConversion &&
    (types.formatMethod? c type).isSome

variable {types c}

theorem isFormattable_eq_true_iff (h : types.Of c) (type : TypeId) :
    types.isFormattable c type = true ↔ c.Formattable types type := by
  simp only [isFormattable, Bool.and_eq_true, decide_eq_true_eq, isSome_formatMethod?_iff h]
  exact ⟨fun ⟨⟨⟨hs, ho⟩, hc⟩, hm⟩ => ⟨hs, ho, hc, hm⟩, fun h => ⟨⟨⟨h.ne_string, h.ne_object⟩, h.isConversion⟩,
    h.hasFormatMethod⟩⟩

variable (types c) in
/-- What the rule looks for in the documents of a program. -/
def sought (shows : Nat → Bool) : Sought := ⟨types, types.isFormattable c, shows⟩

end WellKnownTypes

namespace BoundUnit

variable (unit : BoundUnit) (types : WellKnownTypes)

/-- The parts of the operations that join strings. -/
def joinedParts : List OperationId :=
  unit.operations.toList.flatMap fun op => if types.joinsStrings op then op.kind.children else []

variable {unit types} {p : OperationId → Bool} {y : OperationId}

theorem mem_joinedParts_iff : y ∈ unit.joinedParts types ↔
    ∃ id op, unit.get? id = some op ∧ types.joinsStrings op = true ∧ y ∈ op.kind.children := by
  simp only [joinedParts, List.mem_flatMap, Array.mem_toList_iff]
  constructor
  · rintro ⟨op, hop, hy⟩
    obtain ⟨id, hid⟩ := UnitInv.mem_operations_iff.1 hop
    split at hy
    · exact ⟨id, op, hid, ‹_›, hy⟩
    · cases hy
  · rintro ⟨id, op, hid, hjoins, hy⟩
    exact ⟨op, UnitInv.mem_operations_iff.2 ⟨id, hid⟩, by rwa [if_pos hjoins]⟩

theorem countJoined_eq_countP : unit.countJoined types p = (unit.joinedParts types).countP p := by
  rw [countJoined, joinedParts, List.countP_flatMap]
  refine congrArg List.sum (List.map_congr_left fun op _ => ?_)
  rw [WellKnownTypes.countJoined, Function.comp_apply]
  split <;> rfl

/-- No operation is a part twice. -/
theorem Forest.nodup_joinedParts {free : List OperationId} (h : Forest unit free) : (unit.joinedParts types).Nodup := by
  have hparts : unit.parts.Nodup := h.nodup.of_append_right
  refine hparts.sublist ?_
  rw [joinedParts, parts]
  generalize unit.operations.toList = ops
  induction ops with
  | nil => exact .refl _
  | cons op ops ih =>
    rw [List.flatMap_cons, List.flatMap_cons]
    refine List.Sublist.append ?_ ih
    split
    · exact .refl _
    · exact List.nil_sublist _

/-- One operation less counts where one that counts is left out. -/
theorem Forest.countJoined_add_one {q : OperationId → Bool} {free : List OperationId} (h : Forest unit free)
    (hy : y ∈ unit.joinedParts types) (hp : p y = true) (hq : ∀ z, q z = (z ≠ y && p z)) :
    unit.countJoined types q + 1 = unit.countJoined types p := by
  rw [countJoined_eq_countP, countJoined_eq_countP, (List.perm_cons_erase hy).countP_eq q,
    (List.perm_cons_erase hy).countP_eq p, List.countP_cons_of_pos hp, List.countP_cons_of_neg (by simp [hq])]
  refine congrArg (· + 1) (List.countP_congr fun z hz => ?_)
  have hne : z ≠ y := fun heq => (h.nodup_joinedParts.not_mem_erase) (heq ▸ hz)
  simp [hq, hne]

end BoundUnit

namespace UnitInv

variable {operand : Expr → Prop} {c : Compilation} {unit : BoundUnit} {types : WellKnownTypes} {y : OperationId}

/-- What the rule matches at a place that counts is sought, and a part of an operation that joins strings. -/
theorem match?_isSome_iff (h : UnitInv operand c unit []) (ht : types.Of c) (shows : Nat → Bool) :
    (∃ found op, types.match? c unit y = some found ∧ unit.get? y = some op ∧ shows op.origin.span.start = true) ↔
      y ∈ unit.joinedParts types ∧ unit.isSought (types.sought c shows) y = true := by
  constructor
  · rintro ⟨found, op, hm, hop, hshows⟩
    obtain ⟨-, T, -, hT, hf, -⟩ := (h.match?_eq_some_iff ht).1 hm
    obtain ⟨op', x, how, parent, T', -, hop', hkind, himplicit, hhow, htype, hparent, hjoins, hT', -⟩ :=
      UnitInv.match?_eq_some.1 hm
    cases hop.symm.trans hop'
    rw [BoundUnit.unconverted_of_conversion hop hkind himplicit] at hT
    obtain ⟨p, hp, hy⟩ := (h.parent?_eq_some_iff hop).1 hparent
    refine ⟨BoundUnit.mem_joinedParts_iff.2 ⟨p, parent, hp, hjoins, hy⟩, ?_⟩
    obtain ⟨kind, type, origin, isImplicit, _⟩ := op
    cases hkind
    cases himplicit
    rw [BoundUnit.isSought_of_get? hop, hT]
    simp only [Bool.and_eq_true, Bool.or_eq_true, decide_eq_true_eq, Option.any_some]
    exact ⟨⟨⟨hhow, htype⟩, (WellKnownTypes.isFormattable_eq_true_iff ht T).2 hf⟩, hshows⟩
  · rintro ⟨hy, hsought⟩
    obtain ⟨p, parent, hp, hjoins, hy⟩ := BoundUnit.mem_joinedParts_iff.1 hy
    rw [BoundUnit.isSought] at hsought
    split at hsought
    case h_2 => cases hsought
    case h_1 x how type origin _ hop =>
      simp only [Bool.and_eq_true, Bool.or_eq_true, decide_eq_true_eq, Option.any_eq_true] at hsought
      obtain ⟨⟨⟨hhow, htype⟩, T, hT, hf⟩, hshows⟩ := hsought
      obtain ⟨method, hmethod⟩ := Option.isSome_iff_exists.1
        ((WellKnownTypes.isSome_formatMethod?_iff ht T).2
          ((WellKnownTypes.isFormattable_eq_true_iff ht T).1 hf).hasFormatMethod)
      exact ⟨_, _, UnitInv.match?_eq_some.2 ⟨_, x, how, parent, T, method, hop, rfl, rfl, hhow, htype,
        (h.parent?_eq_some_iff hop).2 ⟨p, hp, hy⟩, hjoins, hT, hmethod, rfl⟩, hop, hshows⟩

end UnitInv

namespace Snapshot

variable {s : Snapshot} {types : WellKnownTypes}

/-- Whether a place in the document is shown to the reader. -/
def shows (s : Snapshot) (offset : Nat) : Bool := (s.document.sourceMap.location? offset).isSome

/-- What is found at a conversion can be mended where the place is shown. -/
theorem isFixable_findingAt_iff {y : OperationId} :
    ((s.findingAt types s.document.sourceMap y).map Diagnostic.isFixable).getD false = true ↔
    ∃ found op, types.match? s.compilation s.unit y = some found ∧ s.unit.get? y = some op ∧
      s.shows op.origin.span.start = true := by
  have hreport (span : Span) (found : ConversionMatch) :
      (s.report s.document.sourceMap span found).isFixable = s.shows span.start := by
    change (true && (Option.map _ _).isSome) = _
    rw [Option.isSome_map, Bool.true_and, shows]
  rw [findingAt]
  cases hm : types.match? s.compilation s.unit y with
  | none => simp
  | some found =>
    cases hop : s.unit.get? y with
    | none => simp
    | some op => simp [hreport]

/-- How many findings of a document can be mended, counted along the operations. -/
theorem countP_isFixable {operand : Expr → Prop} (h : UnitInv operand s.compilation s.unit [])
    (ht : WellKnownTypes.of? s.compilation = some types) : s.allFindings.countP Diagnostic.isFixable =
      s.unit.countJoined types (s.unit.isSought (types.sought s.compilation s.shows)) := by
  have hfindings : s.allFindings = s.unit.conversions.filterMap (s.findingAt types s.document.sourceMap) := by
    rw [allFindings, ht]
    rfl
  rw [hfindings, List.countP_filterMap, BoundUnit.countJoined_eq_countP, List.countP_eq_length_filter,
    List.countP_eq_length_filter]
  refine ((List.perm_ext_iff_of_nodup ((nodup_conversions h.forest).filter _)
    (h.forest.nodup_joinedParts.filter _)).2 fun y => ?_).length_eq
  rw [List.mem_filter, List.mem_filter, isFixable_findingAt_iff,
    h.match?_isSome_iff (WellKnownTypes.of_of?_eq_some ht), and_iff_right_iff_imp]
  intro hy
  obtain ⟨found, op, hm, -⟩ := (h.match?_isSome_iff (WellKnownTypes.of_of?_eq_some ht) s.shows).2 hy
  obtain ⟨op, x, how, -, -, -, hop, hkind, -⟩ := UnitInv.match?_eq_some.1 hm
  exact mem_conversions h.forest hop hkind

end Snapshot

end CultureLint
