import CultureLint.Proofs.Binding.Order
import CultureLint.Proofs.Document.Fits
import Mathlib.Logic.Relation

/-! Which operations are inside which, as the forest says it and as their spans say it. Of two operations of a
document one is inside the other, or they stand apart; so an operand of an operator, of which another operand
takes up the span, is that operand itself. -/

namespace CultureLint.BoundUnit

variable {unit : BoundUnit} {lo hi : Nat} {ids : List OperationId} {v w : OperationId} {firm : Prop}

/-- The second operation is the first one or inside it. -/
def Encloses (unit : BoundUnit) : OperationId → OperationId → Prop :=
  Relation.ReflTransGen fun p part => part ∈ unit.childrenOf p

/-- The operation is one of those listed or inside one of them. -/
def Reaches (unit : BoundUnit) (ids : List OperationId) (v : OperationId) : Prop :=
  ∃ id ∈ ids, unit.Encloses id v

/-- Where an operation stands that is reached, and its parts. -/
structure LiesAt (unit : BoundUnit) (lo hi : Nat) (v : OperationId) (op : Operation) : Prop where
  get? : unit.get? v = some op
  start : lo ≤ op.origin.span.start
  stop : op.origin.span.stop ≤ hi
  parts : unit.Lies op.origin.span.start op.origin.span.stop op.kind.children
  smaller : op.kind.isInfix = true → ∀ part ∈ op.kind.children, ∃ found,
    unit.get? part = some found ∧ found.origin.span ≠ op.origin.span

theorem reaches_cons {id : OperationId} : unit.Reaches (id :: ids) v ↔ unit.Encloses id v ∨ unit.Reaches ids v := by
  simp [Reaches]

theorem childrenOf_of_get? {id : OperationId} {op : Operation} (h : unit.get? id = some op) :
    unit.childrenOf id = op.kind.children := by simp [childrenOf, h]

/-- What an operation encloses is the operation, or is reached by its parts. -/
theorem encloses_iff {id : OperationId} : unit.Encloses id v ↔ v = id ∨ unit.Reaches (unit.childrenOf id) v := by
  constructor
  · intro h
    obtain rfl | ⟨part, hpart, h⟩ := Relation.ReflTransGen.cases_head h
    · exact .inl rfl
    · exact .inr ⟨part, hpart, h⟩
  · rintro (rfl | ⟨part, hpart, h⟩)
    · exact .refl
    · exact .head hpart h

namespace Lies

/-- What is reached stands in the stretch, with its parts inside its span. -/
theorem exists_liesAt (h : unit.Lies lo hi ids) (hv : unit.Reaches ids v) : ∃ op, unit.LiesAt lo hi v op := by
  induction h with
  | nil _ => simp [Reaches] at hv
  | @cons lo mid hi id op ids hop hlo hhi hparts hsmaller hrest ihparts ihrest =>
    have := op.origin.span.start_le_stop
    have := hrest.le
    obtain hv | hv := reaches_cons.1 hv
    · obtain rfl | hv := encloses_iff.1 hv
      · exact ⟨op, hop, hlo, by omega, hparts, hsmaller⟩
      · obtain ⟨found, hfound⟩ := ihparts (childrenOf_of_get? hop ▸ hv)
        have := hfound.start
        have := hfound.stop
        exact ⟨found, hfound.get?, by omega, by omega, hfound.parts, hfound.smaller⟩
    · obtain ⟨found, hfound⟩ := ihrest hv
      have := hfound.start
      exact ⟨found, hfound.get?, by omega, hfound.stop, hfound.parts, hfound.smaller⟩

/-- What an operation that is reached encloses stands in its span. -/
theorem liesAt_of_encloses (h : unit.Lies lo hi ids) (hv : unit.Reaches ids v) {op : Operation}
    (hop : unit.get? v = some op) (hw : unit.Encloses v w) :
    ∃ found, unit.LiesAt op.origin.span.start op.origin.span.stop w found := by
  obtain ⟨found, hfound⟩ := h.exists_liesAt hv
  cases hfound.get?.symm.trans hop
  have hself : unit.Lies op.origin.span.start op.origin.span.stop [v] :=
    .cons hop (Nat.le_refl _) (Nat.le_refl _) hfound.parts hfound.smaller (.nil (Nat.le_refl _))
  exact hself.exists_liesAt ⟨v, List.mem_singleton_self v, hw⟩

/-- Of two operations one is inside the other, or one ends before the other starts. -/
theorem apart (h : unit.Lies lo hi ids) (hv : unit.Reaches ids v) (hw : unit.Reaches ids w) {a b : Operation}
    (ha : unit.get? v = some a) (hb : unit.get? w = some b) : unit.Encloses v w ∨ unit.Encloses w v ∨
      a.origin.span.stop ≤ b.origin.span.start ∨ b.origin.span.stop ≤ a.origin.span.start := by
  induction h with
  | nil _ => simp [Reaches] at hv
  | @cons lo mid hi id op ids hop hlo hhi hparts hsmaller hrest ihparts ihrest =>
    -- what is inside the first operation ends before what is reached by the others starts
    have before {x y : OperationId} {a b : Operation} (hx : unit.Encloses id x) (hy : unit.Reaches ids y)
        (ha : unit.get? x = some a) (hb : unit.get? y = some b) : a.origin.span.stop ≤ b.origin.span.start := by
      have hfirst : unit.Lies lo mid [id] := .cons hop hlo hhi hparts hsmaller (.nil (Nat.le_refl _))
      obtain ⟨found, hfound⟩ := hfirst.exists_liesAt ⟨id, List.mem_singleton_self id, hx⟩
      obtain ⟨found', hfound'⟩ := hrest.exists_liesAt hy
      cases hfound.get?.symm.trans ha
      cases hfound'.get?.symm.trans hb
      exact Nat.le_trans hfound.stop hfound'.start
    obtain hv | hv := reaches_cons.1 hv <;> obtain hw | hw := reaches_cons.1 hw
    · obtain rfl | hv := encloses_iff.1 hv
      · exact .inl hw
      · obtain rfl | hw := encloses_iff.1 hw
        · exact .inr (.inl (encloses_iff.2 (.inr hv)))
        · rw [childrenOf_of_get? hop] at hv hw
          exact ihparts hv hw
    · exact .inr (.inr (.inl (before hv hw ha hb)))
    · exact .inr (.inr (.inr (before hw hv hb ha)))
    · exact ihrest hv hw

end Lies

/-- In the place of the root of an initial value one can take the value: but for roots, what is reached stays
reached, and all of it lies in the order of the text. -/
theorem RootsLie.exists_lies (h : unit.RootsLie firm lo hi ids) : ∃ inner, unit.Lies lo hi inner ∧
    ∀ v, unit.Reaches ids v → v ∉ ids → unit.Reaches inner v := by
  induction h with
  | nil h => exact ⟨[], .nil h, fun v hv _ => hv⟩
  | @body lo mid hi id ids h _ ih =>
    obtain ⟨inner, hinner, hreach⟩ := ih
    refine ⟨[id] ++ inner, h.append hinner, fun v hv hnot => reaches_cons.2 ?_⟩
    exact (reaches_cons.1 hv).imp_right fun hv => hreach v hv fun h => hnot (List.mem_cons_of_mem _ h)
  | @initial lo mid hi id value op name ids hop hkind hvalue _ _ ih =>
    obtain ⟨inner, hinner, hreach⟩ := ih
    refine ⟨[value] ++ inner, hvalue.append hinner, fun v hv hnot => reaches_cons.2 ?_⟩
    rw [List.mem_cons, not_or] at hnot
    refine (reaches_cons.1 hv).imp (fun hv => ?_) fun hv => hreach v hv hnot.2
    have hchildren : unit.childrenOf id = [value] := by
      rw [childrenOf_of_get? hop, hkind]
      rfl
    obtain ⟨part, hpart, hv⟩ := (encloses_iff.1 hv).resolve_left hnot.1
    rw [hchildren, List.mem_singleton] at hpart
    exact hpart ▸ hv

namespace Forest

/-- Every operation is reached by the roots. -/
theorem reaches_roots (h : Forest unit []) (v : OperationId) (hv : v ∈ unit.ids) : unit.Reaches unit.roots v := by
  obtain hv' | hv' := List.mem_append.1 (h.perm.symm.subset hv)
  · exact ⟨v, hv', .refl⟩
  · obtain ⟨p, hp⟩ := mem_parts_iff.1 hv'
    have hlt := h.below_childrenOf hp
    have hmem : p ∈ unit.ids := by
      by_contra hnot
      rw [childrenOf_of_notMem hnot] at hp
      cases hp
    have := BoundUnit.mem_ids.1 hmem
    obtain ⟨id, hid, hreach⟩ := reaches_roots h p hmem
    exact ⟨id, hid, hreach.tail hp⟩
termination_by unit.operations.size - v.index

/-- What is a part is no root. -/
theorem notMem_roots (h : Forest unit []) {p : OperationId} (hp : v ∈ unit.childrenOf p) : v ∉ unit.roots :=
  fun hv => List.disjoint_of_nodup_append h.nodup (List.mem_append_right _ hv) (mem_parts hp)

/-- Where an operand of an operator takes up some code, an operand that stands in that code and belongs to an
operator that goes beyond it is the same operand of the same operator. -/
theorem eq_of_isInfix (h : Forest unit []) (hroots : unit.RootsLie firm lo hi unit.roots) {p q : OperationId}
    {outer other a b : Operation} (hp : unit.get? p = some outer) (hq : unit.get? q = some other)
    (hv : unit.get? v = some a) (hw : unit.get? w = some b) (hpart : v ∈ outer.kind.children)
    (hpart' : w ∈ other.kind.children) (hjoins : outer.kind.isInfix = true)
    (hinside : b.origin.span.FitsIn a.origin.span.start a.origin.span.stop)
    (hne : b.origin.span.start < b.origin.span.stop)
    (hbeyond : ¬ other.origin.span.FitsIn a.origin.span.start a.origin.span.stop) : w = v ∧ q = p := by
  have hmem : v ∈ unit.childrenOf p := by rwa [childrenOf_of_get? hp]
  have hmem' : w ∈ unit.childrenOf q := by rwa [childrenOf_of_get? hq]
  obtain ⟨inner, hinner, hreach⟩ := hroots.exists_lies
  have hv' := hreach v (h.reaches_roots v (mem_ids_of_get? hv)) (h.notMem_roots hmem)
  have hw' := hreach w (h.reaches_roots w (mem_ids_of_get? hw)) (h.notMem_roots hmem')
  have hself : w = v → w = v ∧ q = p := by
    rintro rfl
    exact ⟨rfl, h.eq_of_mem_childrenOf hmem hmem'⟩
  obtain hin | hin | hin | hin := hinner.apart hv' hw' hv hw
  · obtain heq | ⟨c, hc, hc'⟩ := Relation.ReflTransGen.cases_tail hin
    · exact hself heq
    · obtain rfl := h.eq_of_mem_childrenOf hmem' hc'
      obtain ⟨found, hfound⟩ := hinner.liesAt_of_encloses hv' hv hc
      cases hfound.get?.symm.trans hq
      exact absurd ⟨hfound.start, hfound.stop⟩ hbeyond
  · obtain heq | ⟨c, hc, hc'⟩ := Relation.ReflTransGen.cases_tail hin
    · exact hself heq.symm
    · -- the operator would stand in the code of its own operand
      obtain rfl := h.eq_of_mem_childrenOf hmem hc'
      obtain ⟨found, hfound⟩ := hinner.liesAt_of_encloses hw' hw hc
      cases hfound.get?.symm.trans hp
      obtain ⟨found', hfound'⟩ := hfound.parts.exists_liesAt ⟨v, hpart, .refl⟩
      cases hfound'.get?.symm.trans hv
      obtain ⟨_, hget, hne'⟩ := hfound.smaller hjoins v hpart
      cases hget.symm.trans hv
      have hstart : a.origin.span.start = outer.origin.span.start :=
        Nat.le_antisymm (Nat.le_trans hinside.1 hfound.start) hfound'.start
      have hstop : a.origin.span.stop = outer.origin.span.stop :=
        Nat.le_antisymm hfound'.stop (Nat.le_trans hfound.stop hinside.2)
      exact absurd (Span.mk.injEq .. ▸ ⟨hstart, hstop⟩) hne'
  · have := hinside.2
    omega
  · have := hinside.1
    omega

end Forest

end CultureLint.BoundUnit
