import CultureLint.Proofs.Binding.Program

/-! The operations of every document of a program, once it is bound, are a forest with the parents that
are noted down, and the walk from the roots goes through all of it. -/

namespace CultureLint

namespace BoundUnit

/-- The operations are a forest, the parents that are noted down are those of the forest, and the walk
meets every operation of it once. -/
structure IsForest (unit : BoundUnit) : Prop where
  /-- The walk meets every operation once and nothing else. -/
  visits : ∀ id, unit.descendants.count id = if id.index < unit.operations.size then 1 else 0
  /-- When every operation was met, nothing is left that the walk could go on to. -/
  ends : ∀ more, unit.visitUpTo (unit.operations.size + more) unit.roots = unit.descendants
  below : ∀ id, ∀ part ∈ unit.childrenOf id, part.index < id.index
  parent : ∀ id op, unit.get? id = some op → ∀ p, op.parent = some p ↔ id ∈ unit.childrenOf p
  once : ∀ id p, id ∈ unit.childrenOf p →
    (unit.childrenOf p).count id = 1 ∧ ∀ q, q ≠ p → id ∉ unit.childrenOf q
  root : ∀ id op, unit.get? id = some op → (op.parent = none ↔ id ∈ unit.roots)
  roots : ∀ id, unit.roots.count id ≤ 1 ∧ (id ∈ unit.roots → id.index < unit.operations.size)

namespace Forest

variable {unit : BoundUnit} {id p : OperationId}

theorem mem_parts_iff : id ∈ unit.parts ↔ ∃ p, id ∈ unit.childrenOf p := by
  refine ⟨fun h => ?_, fun ⟨p, h⟩ => mem_parts h⟩
  rw [parts_eq_flatMap] at h
  obtain ⟨p, -, h⟩ := List.mem_flatMap.1 h
  exact ⟨p, h⟩

theorem nodup_childrenOf (h : Forest unit []) (p : OperationId) : (unit.childrenOf p).Nodup := by
  by_cases hp : p ∈ unit.ids
  · have hparts : unit.parts.Nodup := h.nodup.of_append_right
    rw [parts_eq_flatMap, List.nodup_flatMap] at hparts
    exact hparts.1 p hp
  · rw [childrenOf_of_notMem hp]
    exact .nil

theorem eq_of_mem_childrenOf (h : Forest unit []) {q : OperationId} (hp : id ∈ unit.childrenOf p)
    (hq : id ∈ unit.childrenOf q) : q = p := by
  obtain ⟨op, hop⟩ :=
    Option.isSome_iff_exists.1 (get?_isSome.2 (h.mem_ids_of_mem_childrenOf hp))
  exact Option.some.inj (((h.parent id op hop q).2 hq).symm.trans ((h.parent id op hop p).2 hp))

/-- What has no parent is a root, for every operation is a root or a part, and none is both. -/
theorem parent_eq_none_iff (h : Forest unit []) {op : Operation} (hop : unit.get? id = some op) :
    op.parent = none ↔ id ∈ unit.roots := by
  have hpart : op.parent = none ↔ id ∉ unit.parts := by
    rw [mem_parts_iff, Option.eq_none_iff_forall_ne_some, not_exists]
    exact forall_congr' fun p => not_congr (h.parent id op hop p)
  have hmem : id ∈ unit.roots ++ unit.parts := h.perm.symm.subset (mem_ids_of_get? hop)
  have hdisjoint : unit.roots.Disjoint unit.parts := List.disjoint_of_nodup_append h.nodup
  rw [hpart]
  exact ⟨fun hp => (List.mem_append.1 hmem).resolve_right hp, fun hr hp => hdisjoint hr hp⟩

theorem isForest (h : Forest unit []) : unit.IsForest where
  visits id := by
    rw [h.descendants_perm.count_eq, unit.nodup_ids.count]
    simp [BoundUnit.mem_ids]
  ends more := by
    obtain ⟨visited, -, hvisit⟩ := h.exists_visited
    rw [hvisit more, descendants, ← Nat.add_zero unit.operations.size, hvisit 0]
  below id part hp := h.below_childrenOf hp
  parent := h.parent
  once id p hp := ⟨List.count_eq_one_of_mem (h.nodup_childrenOf p) hp, fun q hq hid =>
    hq (h.eq_of_mem_childrenOf hp hid)⟩
  root id op hop := h.parent_eq_none_iff hop
  roots id :=
    ⟨List.nodup_iff_count_le_one.1 h.nodup.of_append_left id,
      fun hid => BoundUnit.mem_ids.1 (h.perm.subset (by simp [hid]))⟩

end Forest

end BoundUnit

/-- In every program, the operations of each document are a forest that the walk covers. -/
theorem Project.isForest_of_mem_units (p : Project) {unit : BoundUnit} (h : unit ∈ p.bind.units) :
    unit.IsForest := by
  obtain ⟨i, hi⟩ := Array.mem_iff_getElem?.1 h
  exact ((BoundProgram.bound_ofUnits _ _).unit i unit hi).forest.isForest

/-- A class whose only method gives back a choice between sums. -/
def choosingText : String := "class C\x7bstring M(int n)\x7breturn n>0?\"x\"+n:\"y\"+-n;\x7d\x7d"

theorem Project.isForest_of_mem_units_choosing : ∃ (p : Project) (unit : BoundUnit), unit ∈ p.bind.units ∧
    unit.operations.size = 15 ∧ unit.IsForest := by
  have found : ((Document.parse "C.cs" choosingText).toOption.any fun d =>
      (Project.mk [.core, .globalization] [d]).bind.units.toList.any fun unit =>
        unit.operations.size = 15) = true := by decide +kernel
  obtain ⟨d, -, found⟩ := Option.any_eq_true _ _ |>.1 found
  obtain ⟨unit, hunit, hsize⟩ := List.any_eq_true.1 found
  have hunit := Array.mem_toList_iff.1 hunit
  exact ⟨_, unit, hunit, by simpa using hsize, Project.isForest_of_mem_units _ hunit⟩

end CultureLint
