import CultureLint.Binding.Operation
import Mathlib.Data.List.Nodup
import Mathlib.Data.List.Perm.Basic

/-! The operations of a document are a forest: each is a part of one other operation, stands alone, or
is still free to become either, and the parents that are noted down are those whose parts list the
operation. A walk from the roots of a finished forest meets every operation once. -/

namespace CultureLint.BoundUnit

variable {unit : BoundUnit} {free rest : List OperationId}

/-! ### One more operation -/

/-- The numbers of all operations. -/
def ids (unit : BoundUnit) : List OperationId :=
  (List.range unit.operations.size).map OperationId.mk

/-- The parts of all operations. -/
def parts (unit : BoundUnit) : List OperationId :=
  unit.operations.toList.flatMap (·.kind.children)

theorem mem_ids {id : OperationId} : id ∈ unit.ids ↔ id.index < unit.operations.size := by
  obtain ⟨index⟩ := id
  simp [ids]

theorem nodup_ids (unit : BoundUnit) : unit.ids.Nodup :=
  List.nodup_range.map fun _ _ h => OperationId.mk.inj h

theorem get?_isSome {id : OperationId} : (unit.get? id).isSome ↔ id ∈ unit.ids := by
  rw [mem_ids, get?]
  simp

theorem mem_ids_of_get? {id : OperationId} {op : Operation} (h : unit.get? id = some op) :
    id ∈ unit.ids :=
  get?_isSome.1 (by simp [h])

/-- The operation once it has become a part of the next one, if it is one of its parts. -/
def adopted (unit : BoundUnit) (children : List OperationId) (id : OperationId) (op : Operation) :
    Operation :=
  if id ∈ children then { op with parent := some unit.nextId } else op

@[simp] theorem adopted_kind (children : List OperationId) (id : OperationId) (op : Operation) :
    (unit.adopted children id op).kind = op.kind := by
  rw [adopted]
  split <;> rfl

/-- The operations once some of them have become parts of the next one. -/
def adopting (unit : BoundUnit) (children : List OperationId) : Array Operation :=
  children.foldl (fun ops child =>
    ops.modify child.index fun part => { part with parent := some unit.nextId }) unit.operations

theorem operations_add (unit : BoundUnit) (op : Operation) :
    (unit.add op).operations = (unit.adopting op.kind.children).push op := rfl

@[simp] theorem roots_add (unit : BoundUnit) (op : Operation) : (unit.add op).roots = unit.roots := rfl

theorem getElem?_adopting (unit : BoundUnit) (children : List OperationId) (index : Nat) :
    (unit.adopting children)[index]? =
      unit.operations[index]?.map (unit.adopted children ⟨index⟩) := by
  rw [adopting]
  generalize unit.operations = ops
  induction children generalizing ops with
  | nil => cases h : ops[index]? <;> simp [adopted, h]
  | cons child children ih =>
    obtain ⟨number⟩ := child
    rw [List.foldl_cons, ih, Array.getElem?_modify]
    by_cases h : number = index
    · subst h
      cases ops[number]? <;> simp [adopted]
    · have : (⟨index⟩ : OperationId) ≠ ⟨number⟩ := fun hi => h (OperationId.mk.inj hi).symm
      cases ops[index]? <;> simp [adopted, h, this]

@[simp] theorem size_adopting (unit : BoundUnit) (children : List OperationId) :
    (unit.adopting children).size = unit.operations.size := by
  rw [adopting]
  generalize unit.operations = ops
  induction children generalizing ops with
  | nil => rfl
  | cons child children ih => rw [List.foldl_cons, ih, Array.size_modify]

@[simp] theorem size_add (unit : BoundUnit) (op : Operation) :
    (unit.add op).operations.size = unit.operations.size + 1 := by
  rw [operations_add, Array.size_push, size_adopting]

theorem get?_add_of_mem {id : OperationId} (op : Operation) (h : id ∈ unit.ids) :
    (unit.add op).get? id = (unit.get? id).map (unit.adopted op.kind.children id) := by
  have hlt : id.index < (unit.adopting op.kind.children).size := by simpa using mem_ids.1 h
  rw [get?, operations_add, Array.getElem?_push_lt hlt, ← Array.getElem?_eq_getElem,
    getElem?_adopting, get?]

theorem get?_add_nextId (unit : BoundUnit) (op : Operation) :
    (unit.add op).get? unit.nextId = some op := by
  rw [get?, operations_add, nextId, ← size_adopting unit op.kind.children]
  exact Array.getElem?_push_size

theorem ids_add (unit : BoundUnit) (op : Operation) :
    (unit.add op).ids = unit.ids ++ [unit.nextId] := by
  rw [ids, size_add, List.range_succ, List.map_append]
  rfl

theorem nextId_notMem_ids (unit : BoundUnit) : unit.nextId ∉ unit.ids := fun h =>
  Nat.lt_irrefl _ (mem_ids.1 h)

theorem parts_add (unit : BoundUnit) (op : Operation) :
    (unit.add op).parts = unit.parts ++ op.kind.children := by
  have hkinds : (unit.adopting op.kind.children).toList.map (·.kind) =
      unit.operations.toList.map (·.kind) := by
    refine List.ext_getElem? fun index => ?_
    simp [List.getElem?_map, Array.getElem?_toList, getElem?_adopting, Function.comp_def]
  have flat (ops : List Operation) :
      ops.flatMap (·.kind.children) = (ops.map (·.kind)).flatMap OperationKind.children := by
    rw [List.flatMap_map]
  rw [parts, operations_add, Array.toList_push, List.flatMap_append, flat, hkinds, ← flat, parts]
  simp

/-! ### Keeping what is there -/

/-- All operations of one document are operations of another, but for their parents. -/
def Extends (unit later : BoundUnit) : Prop :=
  ∀ id op, unit.get? id = some op → ∃ parent, later.get? id = some { op with parent }

namespace Extends

variable {later last : BoundUnit}

theorem refl (unit : BoundUnit) : unit.Extends unit := fun _ op h => ⟨op.parent, h⟩

theorem trans (h : unit.Extends later) (h' : later.Extends last) : unit.Extends last := by
  intro id op hop
  obtain ⟨parent, hop⟩ := h id op hop
  obtain ⟨parent', hop⟩ := h' id _ hop
  exact ⟨parent', hop⟩

theorem typeOf_eq (h : unit.Extends later) {id : OperationId} (hid : id ∈ unit.ids) :
    later.typeOf id = unit.typeOf id := by
  obtain ⟨op, hop⟩ := Option.isSome_iff_exists.1 (get?_isSome.2 hid)
  obtain ⟨parent, hlater⟩ := h id op hop
  simp [typeOf, hop, hlater]

theorem childrenOf_eq (h : unit.Extends later) {id : OperationId} (hid : id ∈ unit.ids) :
    later.childrenOf id = unit.childrenOf id := by
  obtain ⟨op, hop⟩ := Option.isSome_iff_exists.1 (get?_isSome.2 hid)
  obtain ⟨parent, hlater⟩ := h id op hop
  simp [childrenOf, hop, hlater]

theorem mem_ids (h : unit.Extends later) {id : OperationId} (hid : id ∈ unit.ids) : id ∈ later.ids := by
  obtain ⟨op, hop⟩ := Option.isSome_iff_exists.1 (get?_isSome.2 hid)
  obtain ⟨parent, hlater⟩ := h id op hop
  exact mem_ids_of_get? hlater

end Extends

theorem extends_add (unit : BoundUnit) (op : Operation) : unit.Extends (unit.add op) := by
  intro id old hold
  refine ⟨(unit.adopted op.kind.children id old).parent, ?_⟩
  rw [get?_add_of_mem op (mem_ids_of_get? hold), hold, Option.map_some, adopted]
  split <;> rfl

/-- The operations of the longer list are the old ones and the new one. -/
theorem get?_add_eq_some {id : OperationId} {op found : Operation}
    (h : (unit.add op).get? id = some found) :
    (∃ old, unit.get? id = some old ∧ found = unit.adopted op.kind.children id old) ∨
      (id = unit.nextId ∧ found = op) := by
  have hid := mem_ids_of_get? h
  rw [ids_add, List.mem_append, List.mem_singleton] at hid
  obtain hid | rfl := hid
  · rw [get?_add_of_mem op hid] at h
    obtain ⟨old, hold, rfl⟩ := Option.map_eq_some_iff.1 h
    exact .inl ⟨old, hold, rfl⟩
  · rw [get?_add_nextId] at h
    exact .inr ⟨rfl, (Option.some.inj h).symm⟩

theorem childrenOf_of_notMem {id : OperationId} (h : id ∉ unit.ids) : unit.childrenOf id = [] := by
  cases hop : unit.get? id with
  | none => simp [childrenOf, hop]
  | some op => exact absurd (mem_ids_of_get? hop) h

theorem childrenOf_add (op : Operation) (p : OperationId) :
    (unit.add op).childrenOf p = if p = unit.nextId then op.kind.children else unit.childrenOf p := by
  split
  case isTrue h => rw [h, childrenOf, get?_add_nextId, Option.map_some, Option.getD_some]
  case isFalse h =>
    by_cases hp : p ∈ unit.ids
    · exact (extends_add unit op).childrenOf_eq hp
    · rw [childrenOf_of_notMem hp, childrenOf_of_notMem]
      rw [ids_add, List.mem_append, List.mem_singleton]
      exact not_or.2 ⟨hp, h⟩

/-! ### Forests -/

/-- The operations are a forest in which some operations are still free to become parts. -/
structure Forest (unit : BoundUnit) (free : List OperationId) : Prop where
  perm : (free ++ unit.roots ++ unit.parts).Perm unit.ids
  below : ∀ id op, unit.get? id = some op → ∀ part ∈ op.kind.children, part.index < id.index
  parent : ∀ id op, unit.get? id = some op → ∀ p, op.parent = some p ↔ id ∈ unit.childrenOf p

namespace Forest

theorem empty : Forest {} [] where
  perm := .refl _
  below id op h := by simp [get?] at h
  parent id op h := by simp [get?] at h

theorem permute (h : Forest unit free) (hp : free.Perm rest) : Forest unit rest :=
  ⟨(hp.symm.append_right _).append_right _ |>.trans h.perm, h.below, h.parent⟩

theorem mem_ids (h : Forest unit free) {id : OperationId} (hid : id ∈ free) : id ∈ unit.ids :=
  h.perm.subset (by simp [hid])

theorem mem_parts {id p : OperationId} (h : id ∈ unit.childrenOf p) : id ∈ unit.parts := by
  rw [childrenOf] at h
  cases hop : unit.get? p with
  | none => simp [hop] at h
  | some op =>
    rw [hop] at h
    exact List.mem_flatMap.2 ⟨op, Array.mem_toList_iff.2 (Array.mem_of_getElem? hop), h⟩

theorem nodup (h : Forest unit free) : (free ++ unit.roots ++ unit.parts).Nodup :=
  h.perm.nodup_iff.2 unit.nodup_ids

/-- A free operation is a part of nothing. -/
theorem notMem_childrenOf (h : Forest unit free) {id : OperationId} (hid : id ∈ free)
    (p : OperationId) : id ∉ unit.childrenOf p := fun hp =>
  List.disjoint_of_nodup_append h.nodup (by simp [hid]) (mem_parts hp)

theorem mem_ids_of_mem_childrenOf (h : Forest unit free) {id p : OperationId}
    (hid : id ∈ unit.childrenOf p) : id ∈ unit.ids :=
  h.perm.subset (by simp [mem_parts hid])

/-- A new operation takes its parts from the free ones and is free itself. -/
theorem add {op : Operation} (h : Forest unit (op.kind.children ++ rest)) (hop : op.parent = none) :
    Forest (unit.add op) (unit.nextId :: rest) where
  perm := by
    rw [ids_add, parts_add, roots_add]
    refine List.perm_iff_count.2 fun id => ?_
    have := h.perm.count_eq id
    simp only [List.cons_append, List.count_cons, List.count_append, List.count_nil] at this ⊢
    omega
  below id found hfound part hpart := by
    obtain ⟨old, hold, rfl⟩ | ⟨rfl, rfl⟩ := get?_add_eq_some hfound
    · exact h.below id old hold part (by simpa using hpart)
    · exact BoundUnit.mem_ids.1 (h.mem_ids (by simp [hpart]))
  parent id found hfound p := by
    rw [childrenOf_add]
    obtain ⟨old, hold, rfl⟩ | ⟨rfl, rfl⟩ := get?_add_eq_some hfound
    · by_cases hid : id ∈ op.kind.children
      · have := h.notMem_childrenOf (List.mem_append_left rest hid) p
        by_cases hp : p = unit.nextId <;> simp_all [adopted, eq_comm]
      · have := h.parent id old hold p
        have hnext := childrenOf_of_notMem unit.nextId_notMem_ids
        by_cases hp : p = unit.nextId <;> simp_all [adopted]
    · have hpart : unit.nextId ∉ found.kind.children := fun hc =>
        unit.nextId_notMem_ids (h.mem_ids (List.mem_append_left rest hc))
      have hchild : unit.nextId ∉ unit.childrenOf p := fun hc =>
        unit.nextId_notMem_ids (h.mem_ids_of_mem_childrenOf hc)
      by_cases hp : p = unit.nextId <;> simp [hop, hp, hpart, hchild]

/-- A free operation becomes a root. -/
theorem addRoot {root : OperationId} (h : Forest unit (root :: rest)) :
    Forest (unit.addRoot root) rest where
  perm := by
    refine List.Perm.trans (List.perm_iff_count.2 fun id => ?_) h.perm
    simp only [BoundUnit.addRoot, parts, List.cons_append, List.count_cons, List.count_append,
      List.count_nil]
    omega
  below := h.below
  parent := h.parent

end Forest

/-! ### Walking -/

/-- A walk from some operations meets them and the parts of all operations it meets. -/
theorem exists_visitUpTo (below : ∀ id, ∀ part ∈ unit.childrenOf id, part.index < id.index)
    (bound : Nat) (pending : List OperationId) (hp : ∀ id ∈ pending, id.index < bound) :
    ∃ visited : List OperationId, visited.Perm (pending ++ visited.flatMap unit.childrenOf) ∧
      ∀ more others, unit.visitUpTo (visited.length + more) (pending ++ others) =
        visited ++ unit.visitUpTo more others := by
  induction bound using Nat.strongRecOn generalizing pending with
  | ind bound ih =>
    induction pending with
    | nil => exact ⟨[], .refl _, fun more others => by simp⟩
    | cons id pending ihp =>
      obtain ⟨hid, hp⟩ := List.forall_mem_cons.1 hp
      obtain ⟨inner, hinner, vinner⟩ := ih id.index hid (unit.childrenOf id) (below id)
      obtain ⟨outer, houter, vouter⟩ := ihp hp
      refine ⟨id :: (inner ++ outer), ?_, fun more others => ?_⟩
      · refine List.perm_iff_count.2 fun x => ?_
        have h1 := hinner.count_eq x
        have h2 := houter.count_eq x
        simp only [List.count_append, List.flatMap_cons, List.flatMap_append, List.count_cons,
          List.cons_append] at h1 h2 ⊢
        omega
      · have hlen : (id :: (inner ++ outer)).length + more =
            inner.length + (outer.length + more) + 1 := by simp; omega
        rw [hlen, List.cons_append, visitUpTo, vinner, vouter]
        simp

theorem count_flatMap_childrenOf (below : ∀ id, ∀ part ∈ unit.childrenOf id, part.index < id.index)
    (x : OperationId) (ids : List OperationId) :
    (ids.flatMap unit.childrenOf).count x =
      ((ids.filter fun id => x.index < id.index).flatMap unit.childrenOf).count x := by
  induction ids with
  | nil => rfl
  | cons id ids ih =>
    rw [List.flatMap_cons, List.count_append, ih]
    by_cases h : x.index < id.index
    · rw [List.filter_cons_of_pos (by simpa using h), List.flatMap_cons, List.count_append]
    · have : (unit.childrenOf id).count x = 0 := List.count_eq_zero.2 fun hx => h (below id x hx)
      rw [List.filter_cons_of_neg (by simpa using h), this, Nat.zero_add]

/-- Only one collection of operations consists of some operations and of its own parts. -/
theorem perm_of_perm_append_parts
    (below : ∀ id, ∀ part ∈ unit.childrenOf id, part.index < id.index) {bound : Nat}
    {start ids ids' : List OperationId} (hb : ∀ id ∈ ids, id.index < bound)
    (hb' : ∀ id ∈ ids', id.index < bound) (h : ids.Perm (start ++ ids.flatMap unit.childrenOf))
    (h' : ids'.Perm (start ++ ids'.flatMap unit.childrenOf)) : ids.Perm ids' := by
  -- From the last operation down: how often one occurs depends on those behind it alone.
  have (n : Nat) : ∀ x : OperationId, bound ≤ x.index + n → ids.count x = ids'.count x := by
    induction n with
    | zero =>
      intro x hx
      rw [List.count_eq_zero.2 fun hm => Nat.not_lt.2 hx (hb x hm),
        List.count_eq_zero.2 fun hm => Nat.not_lt.2 hx (hb' x hm)]
    | succ n ih =>
      intro x hx
      have behind : (ids.filter fun id => x.index < id.index).Perm
          (ids'.filter fun id => x.index < id.index) := by
        refine List.perm_iff_count.2 fun y => ?_
        by_cases hy : x.index < y.index
        · rw [List.count_filter (by simpa using hy), List.count_filter (by simpa using hy)]
          exact ih y (by omega)
        · rw [List.count_eq_zero.2 fun hm => hy (by simpa using (List.mem_filter.1 hm).2),
            List.count_eq_zero.2 fun hm => hy (by simpa using (List.mem_filter.1 hm).2)]
      rw [h.count_eq, h'.count_eq, List.count_append, List.count_append,
        count_flatMap_childrenOf below, count_flatMap_childrenOf below x ids',
        (behind.flatMap_right _).count_eq]
  exact List.perm_iff_count.2 fun x => this bound x (Nat.le_add_left ..)

theorem parts_eq_flatMap (unit : BoundUnit) : unit.parts = unit.ids.flatMap unit.childrenOf := by
  have : unit.operations.toList.map (·.kind.children) = unit.ids.map unit.childrenOf := by
    refine List.ext_getElem (by simp [ids]) fun index hi hi' => ?_
    have hlt : index < unit.operations.size := by simpa using hi
    simp [ids, childrenOf, get?, hlt]
  rw [parts, List.flatMap_def, this, ← List.flatMap_def]

theorem Forest.below_childrenOf (h : Forest unit free) {id part : OperationId}
    (hp : part ∈ unit.childrenOf id) : part.index < id.index := by
  rw [childrenOf] at hp
  cases hop : unit.get? id with
  | none => simp [hop] at hp
  | some op => exact h.below id op hop part (by simpa [hop] using hp)

/-- A walk over a finished forest meets every operation once, and then nothing is left to be met. -/
theorem Forest.exists_visited (h : Forest unit []) : ∃ visited : List OperationId,
    visited.Perm unit.ids ∧
      ∀ more, unit.visitUpTo (unit.operations.size + more) unit.roots = visited := by
  have below (id part : OperationId) (hp : part ∈ unit.childrenOf id) := h.below_childrenOf hp
  have hroots (id : OperationId) (hid : id ∈ unit.roots) : id ∈ unit.ids :=
    h.perm.subset (by simp [hid])
  obtain ⟨visited, hv, hvisit⟩ := exists_visitUpTo below unit.operations.size unit.roots
    fun id hid => BoundUnit.mem_ids.1 (hroots id hid)
  have hmem (id : OperationId) (hid : id ∈ visited) : id.index < unit.operations.size := by
    obtain hid | hid := List.mem_append.1 (hv.subset hid)
    · exact BoundUnit.mem_ids.1 (hroots id hid)
    · obtain ⟨p, _, hid⟩ := List.mem_flatMap.1 hid
      exact BoundUnit.mem_ids.1 (h.mem_ids_of_mem_childrenOf hid)
  have hall : unit.ids.Perm (unit.roots ++ unit.ids.flatMap unit.childrenOf) := by
    rw [← parts_eq_flatMap]
    exact h.perm.symm
  have hperm := perm_of_perm_append_parts below hmem (fun id => BoundUnit.mem_ids.1) hv hall
  have hlength : unit.operations.size = visited.length := by
    rw [hperm.length_eq, ids, List.length_map, List.length_range]
  refine ⟨visited, hperm, fun more => ?_⟩
  have := hvisit more []
  rw [List.append_nil] at this
  rw [hlength, this]
  cases more <;> simp [visitUpTo]

theorem Forest.descendants_perm (h : Forest unit []) : unit.descendants.Perm unit.ids := by
  obtain ⟨visited, hperm, hvisit⟩ := h.exists_visited
  rw [descendants, ← Nat.add_zero unit.operations.size, hvisit 0]
  exact hperm

end CultureLint.BoundUnit
