import CultureLint.Proofs.Binding.Program
import CultureLint.Proofs.Binding.ScopeAgreement
import Mathlib.Data.List.ReduceOption

/-! The types of a bound program and their indexes. Libraries, declarations of all documents, signatures and
the array and nullable types that are met in bodies all went into one table by then; still each index says
exactly what the types say themselves, and no number leads out of the table. -/

namespace CultureLint

/-! ### Types that are mentioned -/

/-- The type that a type of the kind is built from. -/
def SymbolKind.over? : SymbolKind → Option TypeId
  | .array id | .nullable id => some id
  | .classType | .structType | .interfaceType => none

/-- All types that a symbol mentions: its base, its interfaces, what it is built from, and for each member
the type it belongs to, those of its signature and its attributes. -/
def TypeSymbol.mentioned (s : TypeSymbol) : List TypeId :=
  s.base.toList ++ s.interfaces ++ s.kind.over?.toList ++ (s.members.flatMap Member.types).reduceOption

/-- All types that an operation mentions: its own, and the type whose member it uses. -/
def Operation.mentioned (op : Operation) : List TypeId :=
  op.type.toList ++ (op.kind.member?.map MemberRef.type).toList

namespace Compilation

variable {c : Compilation}

theorem Closed.has_of_mem_mentioned {s : TypeSymbol} (h : c.Closed s) {t : TypeId} (ht : t ∈ s.mentioned) :
    c.Has t := by
  simp only [TypeSymbol.mentioned, List.mem_append, Option.mem_toList] at ht
  rcases ht with ((ht | ht) | ht) | ht
  · exact h.base t ht
  · exact has_of_kind (by simp [h.interfaces t ht])
  · refine h.element t ?_
    cases hk : s.kind <;> simp_all [SymbolKind.over?]
  · obtain ⟨m, hm, hmt⟩ := List.mem_flatMap.1 (List.reduceOption_mem_iff.1 ht)
    exact h.members m hm (some t) hmt t rfl

/-- The first type of a name, told from the index. -/
theorem Indexed.byMetadataName?_eq_some_iff (h : Indexed c) {name : String} {id : TypeId} :
    c.byMetadataName? name = some id ↔
      c.Named name id ∧ ∀ other, c.Named name other → id.index ≤ other.index := by
  have hentry := h.entry name
  cases hname : c.byMetadataName? name with
  | none =>
    rw [hname] at hentry
    exact ⟨nofun, fun hid => absurd hid.1 (hentry id)⟩
  | some first =>
    rw [hname] at hentry
    constructor
    · intro heq
      exact Option.some.inj heq ▸ hentry
    · -- two types that both come first are one
      rintro ⟨hid, hfirst⟩
      have hle := hfirst first hentry.1
      have hge := hentry.2 id hid
      cases first
      cases id
      simp only [Option.some.injEq, TypeId.mk.injEq]
      exact Nat.le_antisymm hge hle

theorem Indexed.byMetadataName?_eq_none_iff (h : Indexed c) {name : String} :
    c.byMetadataName? name = none ↔ ∀ id, ¬ c.Named name id := by
  have hentry := h.entry name
  cases hname : c.byMetadataName? name with
  | none =>
    rw [hname] at hentry
    exact iff_of_true rfl hentry
  | some first =>
    rw [hname] at hentry
    exact ⟨nofun, fun hnone => absurd hentry.1 (hnone first)⟩

/-- Of each kind there is at most one array or nullable type. -/
theorem Indexed.eq_of_kind_eq (h : Indexed c) {kind : SymbolKind} (hkind : kind.isConstructed = true)
    {id other : TypeId} (hid : c.Has id ∧ (c.symbol id).kind = kind)
    (hother : c.Has other ∧ (c.symbol other).kind = kind) : id = other := by
  have hfound := (h.constructed_iff kind id).2 ⟨hkind, hid⟩
  rw [(h.constructed_iff kind other).2 ⟨hkind, hother⟩] at hfound
  exact (Option.some.inj hfound).symm

end Compilation

theorem UnitInv.has_of_mem_mentioned {operand : Expr → Prop} {c : Compilation} {unit : BoundUnit}
    {free : List OperationId} (h : UnitInv operand c unit free) {id : OperationId} {op : Operation}
    (hop : unit.get? id = some op) {t : TypeId} (ht : t ∈ op.mentioned) : c.Has t := by
  have hlegal := h.legal id op hop
  simp only [Operation.mentioned, List.mem_append, Option.mem_toList, Option.map_eq_some_iff] at ht
  rcases ht with ht | ⟨m, hm, rfl⟩
  · exact hlegal.known t ht
  · exact hlegal.member m hm

/-! ### Bound programs -/

namespace BoundProgram

open Compilation

/-- The indexes of a program say what its types say, and no number leads out of them. -/
structure TableSound (c : Compilation) (units : Array BoundUnit) : Prop where
  /-- A name leads to the first type of the name that is not built from another one. -/
  named : ∀ name id, c.byMetadataName? name = some id ↔
    c.Named name id ∧ ∀ other, c.Named name other → id.index ≤ other.index
  unnamed : ∀ name, c.byMetadataName? name = none ↔ ∀ id, ¬ c.Named name id
  /-- The namespaces are those around the types. -/
  namespaces : ∀ name, c.isNamespace name = true ↔ name ≠ "" ∧ ∃ id, c.Has id ∧
    (c.symbol id).kind.isConstructed = false ∧ coversNamespace name (c.symbol id).namespaceName = true
  /-- A special role leads to the type that plays it, and only one does. -/
  special : ∀ special id, c.special? special = some id ↔ c.Has id ∧ (c.symbol id).special = some special
  special_unique : ∀ id other, (c.symbol id).special.isSome = true →
    (c.symbol id).special = (c.symbol other).special → id = other
  /-- An array or nullable type is found by its kind, and there is only one of the kind. -/
  constructed : ∀ kind id, c.constructed.lookup kind = some id ↔
    kind.isConstructed = true ∧ c.Has id ∧ (c.symbol id).kind = kind
  constructed_unique : ∀ id other, c.Has id → c.Has other → (c.symbol id).kind.isConstructed = true →
    (c.symbol id).kind = (c.symbol other).kind → id = other
  symbols : ∀ symbol ∈ c.types, ∀ t ∈ symbol.mentioned, c.Has t
  operations : ∀ unit ∈ units, ∀ op ∈ unit.operations, ∀ t ∈ op.mentioned, c.Has t

/-- The indexes of a bound program never drift from its types, whatever libraries it refers to and whatever
its documents are. -/
theorem tableSound_ofUnits (references : List Reference) (units : List CompilationUnit) :
    TableSound (ofUnits references units).compilation (ofUnits references units).units := by
  obtain ⟨hc, hunit⟩ := bound_ofUnits references units
  generalize ofUnits references units = program at hc hunit
  refine ⟨fun _ _ => hc.indexed.byMetadataName?_eq_some_iff, fun _ => hc.indexed.byMetadataName?_eq_none_iff,
    fun name => ?_, fun special id => ?_, fun id other hsome heq => ?_, hc.indexed.constructed_iff,
    fun id other hid hother hkind heq => ?_, fun symbol hsymbol t ht => ?_, fun unit hu op hop t ht => ?_⟩
  · simpa only [mem_enclosingNames] using hc.indexed.isNamespace_iff name
  · rw [hc.special?_iff]
    exact ⟨fun h => ⟨has_of_special h, h⟩, And.right⟩
  · obtain ⟨special, hs⟩ := Option.isSome_iff_exists.1 hsome
    have hid := (hc.special?_iff special id).2 hs
    rw [(hc.special?_iff special other).2 (heq ▸ hs)] at hid
    exact (Option.some.inj hid).symm
  · exact hc.indexed.eq_of_kind_eq hkind ⟨hid, rfl⟩ ⟨hother, heq.symm⟩
  · obtain ⟨i, hi, rfl⟩ := Array.mem_iff_getElem.1 hsymbol
    have hclosed := hc.closed ⟨i⟩
    rw [Compilation.symbol, Array.getElem?_eq_getElem hi, Option.getD_some] at hclosed
    exact hclosed.has_of_mem_mentioned ht
  · obtain ⟨i, hi⟩ := Array.mem_iff_getElem?.1 hu
    obtain ⟨j, hj⟩ := Array.mem_iff_getElem?.1 hop
    have hget : unit.get? ⟨j⟩ = some op := hj
    exact (hunit i unit hi).has_of_mem_mentioned hget ht

end BoundProgram

end CultureLint
