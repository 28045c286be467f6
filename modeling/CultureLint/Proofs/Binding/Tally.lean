import CultureLint.Proofs.Binding.Invariant
import CultureLint.Rule.Match
import Mathlib.Algebra.GroupWithZero.Nat

/-! The values that the rule finds in a document, counted along the operations: at each operation that joins
strings, those of its parts that convert a value which could be formatted. Binding only adds operations, so that
the count can be followed step by step. -/

namespace CultureLint

/-- What is looked for: the types that the rule speaks of, the types whose values can be formatted, and the places
that count. -/
structure Sought where
  types : WellKnownTypes
  formats : TypeId → Bool
  shows : Nat → Bool

namespace WellKnownTypes

variable (types : WellKnownTypes) (p : OperationId → Bool)

/-- How many parts of an operation have a property, if the operation joins strings. -/
def countJoined (op : Operation) : Nat := if types.joinsStrings op then op.kind.children.countP p else 0

variable {types p}

theorem countJoined_of_not_joins {op : Operation} (h : types.joinsStrings op = false) : types.countJoined p op = 0 := by
  simp [countJoined, h]

/-- What has no type joins no strings. -/
theorem joinsStrings_untyped (types : WellKnownTypes) (kind : OperationKind) (origin : Origin) (isImplicit : Bool)
    (parent : Option OperationId) : types.joinsStrings ⟨kind, none, origin, isImplicit, parent⟩ = false := by
  unfold joinsStrings
  split <;> rfl

theorem countJoined_congr {q : OperationId → Bool} {op op' : Operation}
    (hjoins : types.joinsStrings op' = types.joinsStrings op)
    (hparts : op'.kind.children.countP q = op.kind.children.countP p) :
    types.countJoined q op' = types.countJoined p op := by rw [countJoined, countJoined, hjoins, hparts]

end WellKnownTypes

namespace BoundUnit

variable {unit later : BoundUnit} {types : WellKnownTypes} {p : OperationId → Bool}

variable (unit) in
/-- The operation is a conversion of the sought kind. -/
def isSought (sought : Sought) (id : OperationId) : Bool :=
  match unit.get? id with
  | some { kind := .conversion x how, type, origin, isImplicit := true, .. } =>
    how.isConversion && (type = some sought.types.object || type = some sought.types.string) &&
      (unit.typeOf x).any sought.formats && sought.shows origin.span.start
  | _ => false

variable (unit types p) in
/-- How many operations with a property are parts of operations that join strings. -/
def countJoined : Nat := (unit.operations.toList.map (types.countJoined p)).sum

@[simp] theorem countJoined_empty : ({} : BoundUnit).countJoined types p = 0 := rfl

@[simp] theorem countJoined_addRoot (root : OperationId) :
    (unit.addRoot root).countJoined types p = unit.countJoined types p := rfl

theorem countJoined_adopted (children : List OperationId) (id : OperationId) (op : Operation) :
    types.countJoined p (unit.adopted children id op) = types.countJoined p op := by
  rw [adopted]
  split <;> rfl

/-- A new operation counts for itself, and changes the count of no other. -/
theorem countJoined_add (op : Operation) :
    (unit.add op).countJoined types p = unit.countJoined types p + types.countJoined p op := by
  have hold : (unit.adopting op.kind.children).toList.map (types.countJoined p) =
      unit.operations.toList.map (types.countJoined p) := by
    refine List.ext_getElem? fun index => ?_
    simp [List.getElem?_map, Array.getElem?_toList, getElem?_adopting, Function.comp_def, countJoined_adopted]
  rw [countJoined, operations_add, Array.toList_push, List.map_append, hold, List.sum_append, countJoined]
  simp

theorem countJoined_add_of_not_joins {op : Operation} (h : types.joinsStrings op = false) :
    (unit.add op).countJoined types p = unit.countJoined types p := by
  rw [countJoined_add, WellKnownTypes.countJoined_of_not_joins h, Nat.add_zero]

theorem isSought_of_get? {sought : Sought} {id x : OperationId} {how : Conversion} {type : Option TypeId}
    {origin : Origin} {parent : Option OperationId}
    (h : unit.get? id = some ⟨.conversion x how, type, origin, true, parent⟩) : unit.isSought sought id =
      (how.isConversion && (type = some sought.types.object || type = some sought.types.string) &&
        (unit.typeOf x).any sought.formats && sought.shows origin.span.start) := by
  rw [isSought, h]

/-- What is spelled out is no conversion of the sought kind. -/
theorem isSought_of_isWritten {sought : Sought} {id : OperationId} (h : unit.IsWritten id) :
    unit.isSought sought id = false := by
  obtain ⟨op, hop, hwritten⟩ := h
  rw [isSought, hop]
  split
  case h_1 heq =>
    cases heq
    cases hwritten
  case h_2 => rfl

end BoundUnit

end CultureLint
