import CultureLint.Proofs.Binding.Traversal
import CultureLint.Proofs.Cancel
import CultureLint.Rule.Diagnostic
import Mathlib.Data.Option.Basic

/-! What the rule finds in a document of a program. Main statement: it reports, once each, the values
that a string concatenation turns into text by the current culture although their type has a method that
would take another one, and nothing else. -/

namespace CultureLint

/-! ### What the rule looks for -/

namespace BoundUnit

variable (unit : BoundUnit) (string : TypeId)

/-- The value inside a conversion that nobody wrote; any other operation is a value itself. -/
def unconverted (id : OperationId) : OperationId :=
  match unit.get? id with
  | some { kind := .conversion x _, isImplicit := true, .. } => x
  | _ => id

/-- The operation is an operand of a `+` that gives a string, or the value that `+=` adds to a string. -/
inductive IsJoined (y : OperationId) : Prop
  | sum {op : Operation} {l r : OperationId} (hop : op ∈ unit.operations) (hkind : op.kind = .binary .add l r)
      (htype : op.type = some string) (hy : y = l ∨ y = r)
  | append {op : Operation} {target : OperationId} (hop : op ∈ unit.operations)
      (hkind : op.kind = .compoundAssignment .add target y) (htarget : unit.typeOf target = some string)

variable {unit}

theorem unconverted_of_conversion {id x : OperationId} {op : Operation} {conversion : Conversion}
    (hop : unit.get? id = some op) (hkind : op.kind = .conversion x conversion)
    (himplicit : op.isImplicit = true) : unit.unconverted id = x := by
  obtain ⟨kind, type, origin, isImplicit, parent⟩ := op
  cases hkind
  cases himplicit
  rw [unconverted, hop]

theorem unconverted_of_isWritten {id : OperationId} (h : unit.IsWritten id) : unit.unconverted id = id := by
  obtain ⟨op, hop, hwritten⟩ := h
  rw [unconverted, hop]
  split
  case h_1 heq =>
    cases heq
    cases hwritten
  case h_2 => rfl

end BoundUnit

namespace Compilation

variable (c : Compilation) (types : WellKnownTypes)

/-- The members named `ToString` of a type and its base types include a method without the attribute
`Obsolete` whose only parameter is a format provider. -/
def HasFormatMethod (type : TypeId) : Prop :=
  ∃ owner ∈ c.baseChain type, ∃ method : MethodSymbol,
    .method method ∈ (c.symbol owner).members ∧ method.name = "ToString" ∧
    (∀ obsolete, c.byMetadataName? "System.ObsoleteAttribute" = some obsolete →
      some obsolete ∉ method.attributes) ∧
    method.parameters.map (·.type) = [some types.formatProvider]

/-- The values of a type become objects in a string concatenation, although a method of the type would
make text of them by a given culture. -/
structure Formattable (type : TypeId) : Prop where
  ne_string : type ≠ types.string
  ne_object : type ≠ types.object
  isConversion : (c.convertType type types.object).isConversion = true
  hasFormatMethod : c.HasFormatMethod types type

end Compilation

namespace Snapshot

variable (s : Snapshot) (types : WellKnownTypes)

/-- A string concatenation turns the value into text by the current culture, although its type has a
method that would take another one. -/
structure UsesCurrentCulture (x : OperationId) : Prop where
  joined : ∃ y, s.unit.IsJoined types.string y ∧ s.unit.unconverted y = x
  formattable : ∃ T, s.unit.typeOf x = some T ∧ s.compilation.Formattable types T

/-- The finding for a value: it is reported at the conversion around the value, with the method to call
instead and the type of the value. -/
def Reports (x : OperationId) (d : Diagnostic) : Prop :=
  ∃ y op conversion T method, s.unit.get? y = some op ∧ op.kind = .conversion x conversion ∧
    op.isImplicit = true ∧ s.unit.typeOf x = some T ∧ types.formatMethod? s.compilation T = some method ∧
    d = s.report s.document.sourceMap op.origin.span ⟨method, (s.compilation.symbol T).name⟩

end Snapshot

/-! ### The types that the rule speaks of -/

namespace WellKnownTypes

variable {c : Compilation} {types : WellKnownTypes}

/-- The types are those that the compilation knows by their roles and names. -/
structure Of (types : WellKnownTypes) (c : Compilation) : Prop where
  object : c.special? .object = some types.object
  string : c.special? .string = some types.string
  obsolete : types.obsolete = c.byMetadataName? "System.ObsoleteAttribute"

theorem of_of?_eq_some (h : WellKnownTypes.of? c = some types) : types.Of c := by
  simp only [of?, Option.bind_eq_bind, Option.bind_eq_some_iff, Option.pure_def, Option.some.injEq] at h
  obtain ⟨_, _, _, _, _, _, object, ho, string, hs, rfl⟩ := h
  exact ⟨ho, hs, rfl⟩

theorem formats_eq_true_iff (h : types.Of c) (m : Member) : types.formats m = true ↔
    ∃ method, m = .method method ∧
      (∀ obsolete, c.byMetadataName? "System.ObsoleteAttribute" = some obsolete →
        some obsolete ∉ method.attributes) ∧
      method.parameters.map (·.type) = [some types.formatProvider] := by
  cases m with
  | method m =>
    rw [formats, isObsolete, h.obsolete]
    cases c.byMetadataName? "System.ObsoleteAttribute" <;> simp
  | property | field => simp [formats]

theorem isSome_formatMethod?_iff (h : types.Of c) (type : TypeId) :
    (types.formatMethod? c type).isSome = true ↔ c.HasFormatMethod types type := by
  simp only [formatMethod?, Option.isSome_map, List.find?_isSome, formats_eq_true_iff h,
    Compilation.mem_membersNamed_iff]
  constructor
  · rintro ⟨⟨_, _⟩, ⟨owner, ho, _, hm, hname⟩, method, rfl, hobsolete, hparameters⟩
    exact ⟨owner, ho, method, List.mem_of_getElem? hm, hname, hobsolete, hparameters⟩
  · rintro ⟨owner, ho, method, hm, hname, hobsolete, hparameters⟩
    obtain ⟨index, hindex⟩ := List.mem_iff_getElem?.1 hm
    exact ⟨(⟨owner, index⟩, .method method), ⟨owner, ho, rfl, hindex, hname⟩, method, rfl, hobsolete,
      hparameters⟩

end WellKnownTypes

/-! ### Operations that join strings -/

namespace UnitInv

variable {operand : Expr → Prop} {c : Compilation} {unit : BoundUnit} {types : WellKnownTypes}
  {y p : OperationId}

theorem mem_operations_iff {op : Operation} : op ∈ unit.operations ↔ ∃ id, unit.get? id = some op := by
  rw [Array.mem_iff_getElem?]
  exact ⟨fun ⟨index, h⟩ => ⟨⟨index⟩, h⟩, fun ⟨id, h⟩ => ⟨id.index, h⟩⟩

/-- What is joined was converted for that, and is a part of an operation that joins strings. -/
theorem joined_of_isJoined (h : UnitInv operand c unit []) (ht : types.Of c)
    (hy : unit.IsJoined types.string y) : Joined operand c unit y ∧
      ∃ p op, unit.get? p = some op ∧ types.joinsStrings op = true ∧ y ∈ op.kind.children := by
  cases hy with
  | @sum op l r hop hkind htype hy =>
    obtain ⟨p, hp⟩ := mem_operations_iff.1 hop
    obtain ⟨hl, hr⟩ := (h.legal p op hp).sum l r hkind types.string ht.string htype
    refine ⟨?_, p, op, hp, ?_, ?_⟩
    · rcases hy with rfl | rfl <;> assumption
    · simp [WellKnownTypes.joinsStrings, hkind, htype]
    · simpa [hkind, OperationKind.children] using hy
  | @append op target hop hkind htarget =>
    obtain ⟨p, hp⟩ := mem_operations_iff.1 hop
    obtain ⟨_, htype, hv⟩ := (h.legal p op hp).append target y hkind
    have htype := htype.symm.trans htarget
    exact ⟨hv types.string ht.string htype, p, op, hp, by simp [WellKnownTypes.joinsStrings, hkind, htype],
      by simp [hkind, OperationKind.children]⟩

/-- The parts of an operation that joins strings are joined, but for the target of `+=`, which the code
spells out. -/
theorem isJoined_of_joinsStrings (h : UnitInv operand c unit []) {op : Operation}
    (hp : unit.get? p = some op) (hjoins : types.joinsStrings op = true) (hy : y ∈ op.kind.children)
    (hwritten : ¬ unit.IsWritten y) : unit.IsJoined types.string y := by
  have hop : op ∈ unit.operations := mem_operations_iff.2 ⟨p, hp⟩
  rw [WellKnownTypes.joinsStrings] at hjoins
  split at hjoins
  case h_1 l r hkind =>
    exact .sum hop hkind (by simpa using hjoins) (by simpa [hkind, OperationKind.children] using hy)
  case h_2 target v hkind =>
    obtain ⟨htarget, htype, _⟩ := (h.legal p op hp).append target v hkind
    obtain rfl | rfl : y = target ∨ y = v := by simpa [hkind, OperationKind.children] using hy
    · exact absurd htarget hwritten
    · exact .append hop hkind (by simpa [htype] using hjoins)
  case h_3 => cases hjoins

/-- The parent that is noted down is the operation of which this one is a part. -/
theorem parent?_eq_some_iff (h : UnitInv operand c unit []) {op parent : Operation}
    (hy : unit.get? y = some op) : unit.parent? y = some parent ↔
      ∃ p, unit.get? p = some parent ∧ y ∈ parent.kind.children := by
  simp only [BoundUnit.parent?, hy, Option.bind_eq_bind, Option.bind_some, Option.bind_eq_some_iff,
    h.forest.parent y op hy]
  refine exists_congr fun p => ⟨fun ⟨hc, hp⟩ => ⟨hp, ?_⟩, fun ⟨hp, hc⟩ => ⟨?_, hp⟩⟩
  · simpa [BoundUnit.childrenOf, hp] using hc
  · simpa [BoundUnit.childrenOf, hp] using hc

/-- The rule looks at a conversion that nobody wrote, at the operation it is a part of, and at the type of
the value inside. -/
theorem match?_eq_some {found : ConversionMatch} : types.match? c unit y = some found ↔
    ∃ op x conversion parent T method, unit.get? y = some op ∧ op.kind = .conversion x conversion ∧
      op.isImplicit = true ∧ conversion.isConversion = true ∧
      (op.type = some types.object ∨ op.type = some types.string) ∧ unit.parent? y = some parent ∧
      types.joinsStrings parent = true ∧ unit.typeOf x = some T ∧
      types.formatMethod? c T = some method ∧ found = ⟨method, (c.symbol T).name⟩ := by
  rw [WellKnownTypes.match?, Option.bind_eq_bind, Option.bind_eq_some_iff]
  constructor
  · rintro ⟨op, hop, hm⟩
    split at hm
    case h_2 => cases hm
    case h_1 x conversion hkind =>
      simp only [Option.bind_eq_bind, Option.bind_eq_some_iff, Option.guard_eq_some', Bool.and_eq_true,
        Bool.or_eq_true, decide_eq_true_eq, Option.any_eq_true, Option.pure_def, Option.some.injEq] at hm
      obtain ⟨_, ⟨himplicit, hconversion⟩, _, htype, _, ⟨parent, hparent, hjoins⟩, T, hT, method, hmethod,
        rfl⟩ := hm
      exact ⟨op, x, conversion, parent, T, method, hop, hkind, himplicit, hconversion, htype, hparent, hjoins,
        hT, hmethod, rfl⟩
  · rintro ⟨op, x, conversion, parent, T, method, hop, hkind, himplicit, hconversion, htype, hparent, hjoins,
      hT, hmethod, rfl⟩
    refine ⟨op, hop, ?_⟩
    obtain ⟨kind, type, origin, isImplicit, par⟩ := op
    cases hkind
    cases himplicit
    simp [hconversion, htype, hparent, hjoins, hT, hmethod, guard]

/-- What the rule makes of an operation: it is a conversion around a value that is joined and whose type
can be formatted. -/
theorem match?_eq_some_iff (h : UnitInv operand c unit []) (ht : types.Of c) {found : ConversionMatch} :
    types.match? c unit y = some found ↔ unit.IsJoined types.string y ∧
      ∃ T method, unit.typeOf (unit.unconverted y) = some T ∧ c.Formattable types T ∧
        types.formatMethod? c T = some method ∧ found = ⟨method, (c.symbol T).name⟩ := by
  rw [match?_eq_some]
  constructor
  · rintro ⟨op, x, conversion, parent, T, method, hop, hkind, himplicit, hconversion, -, hparent, hjoins, hT,
      hmethod, rfl⟩
    obtain ⟨p, hp, hy⟩ := (h.parent?_eq_some_iff hop).1 hparent
    have hwritten : ¬ unit.IsWritten y := fun ⟨op', hop', hw⟩ => by
      cases hop.symm.trans hop'
      cases himplicit.symm.trans hw
    have hj := h.isJoined_of_joinsStrings hp hjoins hy hwritten
    refine ⟨hj, T, method, ?_, ?_, hmethod, rfl⟩
    · rw [BoundUnit.unconverted_of_conversion hop hkind himplicit, hT]
    cases (h.joined_of_isJoined ht hj).1 with
    | asIs hw => exact absurd hw hwritten
    | converted e x' conversion' op' he hop' hkind' himplicit' horigin hwritten' hby =>
      cases hop.symm.trans hop'
      cases hkind.symm.trans hkind'
      cases hby with
      | untyped hnone => cases hnone.symm.trans hT
      | toObject source object hsource hobject hobj hne hstring hc =>
        obtain rfl : source = T := Option.some.inj (hsource.symm.trans hT)
        obtain rfl : object = types.object := Option.some.inj (hobject.symm.trans ht.object)
        refine ⟨fun hs => hstring ?_, hne, hc.symm.trans hconversion, ?_⟩
        · rw [hs]
          exact (h.coherent.special?_iff _ _).1 ht.string
        · exact (WellKnownTypes.isSome_formatMethod?_iff ht source).1 (by simp [hmethod])
  · rintro ⟨hj, T, method, htype, hf, hmethod, rfl⟩
    obtain ⟨hjoined, p, parent, hp, hjoins, hy⟩ := h.joined_of_isJoined ht hj
    cases hjoined with
    | asIs hwritten has =>
      rw [BoundUnit.unconverted_of_isWritten hwritten] at htype
      obtain has | has := has _ _ ht.string ht.object
      · exact absurd (Option.some.inj (htype.symm.trans has)) hf.ne_string
      · exact absurd (Option.some.inj (htype.symm.trans has)) hf.ne_object
    | converted e x conversion op he hop hkind himplicit horigin hwritten hby =>
      rw [BoundUnit.unconverted_of_conversion hop hkind himplicit] at htype
      cases hby with
      | untyped hnone => cases hnone.symm.trans htype
      | toObject source object hsource hobject hobj hne hstring hconversion =>
        obtain rfl : source = T := Option.some.inj (hsource.symm.trans htype)
        obtain rfl : object = types.object := Option.some.inj (hobject.symm.trans ht.object)
        exact ⟨op, x, conversion, parent, source, method, hop, hkind, himplicit,
          hconversion.trans hf.isConversion, .inl hobj, (h.parent?_eq_some_iff hop).2 ⟨p, hp, hy⟩, hjoins,
          hsource, hmethod, rfl⟩

end UnitInv

/-! ### The findings -/

namespace Snapshot

variable {s : Snapshot} {types : WellKnownTypes} {operand : Expr → Prop}

/-- Work that nobody calls off reports what the rule finds, from the first operation to the last. -/
theorem run'_findings (map : SourceMap) (ids : List OperationId) :
    (s.findings types map ids).run' .live = (.ok (ids.filterMap (s.findingAt types map)), .live) := by
  induction ids with
  | nil => rfl
  | cons id ids ih =>
    rw [findings, Run.run'_bind Run.run'_check]
    cases hd : s.findingAt types map id with
    | none => simpa only [List.filterMap_cons_none hd] using ih
    | some d =>
      simp only [List.filterMap_cons_some hd]
      exact Run.run'_bind ih

/-- All that is found in a document. -/
def allFindings (s : Snapshot) : List Diagnostic :=
  (WellKnownTypes.of? s.compilation).elim [] fun types =>
    s.unit.conversions.filterMap (s.findingAt types s.document.sourceMap)

theorem run'_analyze (s : Snapshot) : s.analyze.run' .live = (.ok s.allFindings, .live) := by
  rw [analyze, Run.run'_bind Run.run'_check, allFindings]
  cases WellKnownTypes.of? s.compilation with
  | none => rfl
  | some types => exact run'_findings _ _

theorem findingAt_of_match?_eq_none (map : SourceMap) {y : OperationId}
    (h : types.match? s.compilation s.unit y = none) : s.findingAt types map y = none := by
  simp [findingAt, h]

theorem exists_findingAt_of_match?_eq_some {y : OperationId} {found : ConversionMatch}
    (h : types.match? s.compilation s.unit y = some found) :
    ∃ d, s.findingAt types s.document.sourceMap y = some d ∧ s.Reports types (s.unit.unconverted y) d := by
  obtain ⟨op, x, conversion, _, T, method, hop, hkind, himplicit, -, -, -, -, hT, hmethod, rfl⟩ :=
    UnitInv.match?_eq_some.1 h
  refine ⟨s.report s.document.sourceMap op.origin.span ⟨method, (s.compilation.symbol T).name⟩, ?_, y, op,
    conversion, T, method, hop, ?_, himplicit, ?_, hmethod, rfl⟩
  · simp [findingAt, h, hop]
  · rw [BoundUnit.unconverted_of_conversion hop hkind himplicit, hkind]
  · rw [BoundUnit.unconverted_of_conversion hop hkind himplicit, hT]

/-- What is reported at a span was found at an operation that stands there. -/
theorem exists_of_findingAt {types : WellKnownTypes} {id : OperationId} {x : Diagnostic} {span : Span}
    (hx : s.findingAt types s.document.sourceMap id = some x) (hspan : x.span = some span) :
    ∃ op found, s.unit.get? id = some op ∧ types.match? s.compilation s.unit id = some found ∧
      span = op.origin.span := by
  simp only [findingAt, Option.bind_eq_bind, Option.bind_eq_some_iff, Option.pure_def, Option.some.injEq] at hx
  obtain ⟨found, hm, op, hop, rfl⟩ := hx
  obtain ⟨_, _, rfl⟩ := Option.map_eq_some_iff.1 hspan
  exact ⟨op, found, hop, hm, rfl⟩

/-- The conversions that the rule matches. -/
def matched (s : Snapshot) (types : WellKnownTypes) (ids : List OperationId) : List OperationId :=
  ids.filter fun y => (types.match? s.compilation s.unit y).isSome

theorem mem_matched_iff {y : OperationId} {ids : List OperationId} : y ∈ s.matched types ids ↔
    y ∈ ids ∧ ∃ found, types.match? s.compilation s.unit y = some found := by
  rw [matched, List.mem_filter, Option.isSome_iff_exists]

theorem forall₂_reports (ids : List OperationId) : List.Forall₂ (s.Reports types)
    ((s.matched types ids).map s.unit.unconverted)
    (ids.filterMap (s.findingAt types s.document.sourceMap)) := by
  induction ids with
  | nil => exact .nil
  | cons id ids ih =>
    cases hm : types.match? s.compilation s.unit id with
    | none =>
      rw [matched, List.filter_cons_of_neg (by simp [hm]),
        List.filterMap_cons_none (findingAt_of_match?_eq_none _ hm)]
      exact ih
    | some found =>
      obtain ⟨d, hd, hr⟩ := exists_findingAt_of_match?_eq_some hm
      rw [matched, List.filter_cons_of_pos (by simp [hm]), List.filterMap_cons_some hd]
      exact .cons hr ih

/-- Every conversion is met once. -/
theorem nodup_conversions (h : s.unit.Forest []) : s.unit.conversions.Nodup :=
  (h.descendants_perm.nodup_iff.2 s.unit.nodup_ids).filter _

theorem mem_conversions {y x : OperationId} {op : Operation} {conversion : Conversion}
    (h : s.unit.Forest []) (hop : s.unit.get? y = some op) (hkind : op.kind = .conversion x conversion) :
    y ∈ s.unit.conversions := by
  refine List.mem_filter.2 ⟨h.descendants_perm.symm.subset (BoundUnit.mem_ids_of_get? hop), ?_⟩
  obtain ⟨kind, type, origin, isImplicit, parent⟩ := op
  cases hkind
  simp [BoundUnit.isConversion, hop]

/-- A value stands inside one conversion only. -/
theorem nodup_unconverted (types : WellKnownTypes) (h : s.unit.Forest []) :
    ((s.matched types s.unit.conversions).map s.unit.unconverted).Nodup := by
  refine ((nodup_conversions h).filter _).map_on fun y hy y' hy' heq => ?_
  obtain ⟨-, found, hm⟩ := mem_matched_iff.1 hy
  obtain ⟨-, found', hm'⟩ := mem_matched_iff.1 hy'
  obtain ⟨op, x, conversion, _, _, _, hop, hkind, himplicit, -⟩ := UnitInv.match?_eq_some.1 hm
  obtain ⟨op', x', conversion', _, _, _, hop', hkind', himplicit', -⟩ := UnitInv.match?_eq_some.1 hm'
  rw [BoundUnit.unconverted_of_conversion hop hkind himplicit,
    BoundUnit.unconverted_of_conversion hop' hkind' himplicit'] at heq
  subst heq
  have hx : x ∈ s.unit.childrenOf y := by simp [BoundUnit.childrenOf, hop, hkind, OperationKind.children]
  have hx' : x ∈ s.unit.childrenOf y' := by
    simp [BoundUnit.childrenOf, hop', hkind', OperationKind.children]
  exact h.eq_of_mem_childrenOf hx' hx

theorem mem_unconverted_iff (h : UnitInv operand s.compilation s.unit []) (ht : types.Of s.compilation)
    {x : OperationId} : x ∈ (s.matched types s.unit.conversions).map s.unit.unconverted ↔
      s.UsesCurrentCulture types x := by
  rw [List.mem_map]
  constructor
  · rintro ⟨y, hy, rfl⟩
    obtain ⟨-, found, hm⟩ := mem_matched_iff.1 hy
    obtain ⟨hj, T, method, hT, hf, -⟩ := (h.match?_eq_some_iff ht).1 hm
    exact ⟨⟨y, hj, rfl⟩, T, hT, hf⟩
  · rintro ⟨⟨y, hj, rfl⟩, T, hT, hf⟩
    obtain ⟨method, hmethod⟩ := Option.isSome_iff_exists.1
      ((WellKnownTypes.isSome_formatMethod?_iff ht T).2 hf.hasFormatMethod)
    have hm := (h.match?_eq_some_iff ht).2 ⟨hj, T, method, hT, hf, hmethod, rfl⟩
    obtain ⟨op, x, conversion, _, _, _, hop, hkind, -⟩ := UnitInv.match?_eq_some.1 hm
    exact ⟨y, mem_matched_iff.2 ⟨mem_conversions h.forest hop hkind, _, hm⟩, rfl⟩

/-- In a document of a program that knows the types the rule speaks of, the findings are those values that
a string concatenation turns into text by the current culture, each of them once. -/
theorem analyze_findings {p : Project} {s : Snapshot} (hs : s ∈ p.snapshots) {types : WellKnownTypes}
    (ht : WellKnownTypes.of? s.compilation = some types) :
    ∃ xs : List OperationId, xs.Nodup ∧ (∀ x, x ∈ xs ↔ s.UsesCurrentCulture types x) ∧
      ∃ ds, s.analyze.run' .live = (.ok ds, .live) ∧ List.Forall₂ (s.Reports types) xs ds := by
  have h := Project.unitInv_of_mem_snapshots hs
  refine ⟨_, nodup_unconverted types h.forest,
    fun x => mem_unconverted_iff h (WellKnownTypes.of_of?_eq_some ht), _, s.run'_analyze, ?_⟩
  rw [allFindings, ht]
  exact forall₂_reports s.unit.conversions

/-- A class whose first field joins a string and a number, and whose second joins two strings. -/
def joiningText : String := "class C\x7bstring f=\"x\"+1;string g=\"x\"+\"y\";\x7d"

theorem analyze_findings_joining : ∃ (p : Project) (s : Snapshot) (types : WellKnownTypes),
    s ∈ p.snapshots ∧ WellKnownTypes.of? s.compilation = some types ∧
    ∃ xs : List OperationId, xs.Nodup ∧ (∀ x, x ∈ xs ↔ s.UsesCurrentCulture types x) ∧
      ∃ ds, s.analyze.run' .live = (.ok ds, .live) ∧ List.Forall₂ (s.Reports types) xs ds ∧
        ds.length = 1 := by
  have found : ((Document.parse "C.cs" joiningText).toOption.any fun d =>
      (Project.mk [.core, .globalization] [d]).snapshots.any fun s =>
        (WellKnownTypes.of? s.compilation).isSome &&
          (s.analyze.run' .live).1.toOption.any fun ds => ds.length = 1) = true := by decide +kernel
  obtain ⟨d, -, found⟩ := Option.any_eq_true _ _ |>.1 found
  obtain ⟨s, hs, found⟩ := List.any_eq_true.1 found
  obtain ⟨htypes, hlength⟩ := Bool.and_eq_true_iff.1 found
  obtain ⟨types, ht⟩ := Option.isSome_iff_exists.1 htypes
  obtain ⟨xs, hn, hxs, ds, hds, hr⟩ := analyze_findings hs ht
  simp only [hds, Except.toOption, Option.any_some, decide_eq_true_eq] at hlength
  exact ⟨_, s, types, hs, ht, xs, hn, hxs, ds, hds, hr, hlength⟩

end Snapshot

end CultureLint
