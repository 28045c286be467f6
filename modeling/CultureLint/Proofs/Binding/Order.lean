import CultureLint.Proofs.Binding.Traversal

/-! Operations in the order of the text. Where the parts of each operation stand inside its span, one behind
the other, the walk from the roots meets the operations by their starts, and of two that overlap the outer one
first. -/

namespace CultureLint

/-- Whether an operation has an operator with an operand on each side. -/
def OperationKind.isInfix : OperationKind → Bool
  | .binary .. | .compoundAssignment .. => true
  | _ => false

namespace BoundUnit

variable {unit later : BoundUnit} {lo mid hi : Nat} {ids others : List OperationId}

/-- The operations stand one behind the other in a stretch of the text, each with its parts inside its span.
What has an operator takes up more of the text than each of its operands. -/
inductive Lies (unit : BoundUnit) : Nat → Nat → List OperationId → Prop
  | nil {lo hi : Nat} (h : lo ≤ hi) : Lies unit lo hi []
  | cons {lo mid hi : Nat} {id : OperationId} {op : Operation} {ids : List OperationId}
      (hop : unit.get? id = some op) (hlo : lo ≤ op.origin.span.start) (hhi : op.origin.span.stop ≤ mid)
      (hparts : Lies unit op.origin.span.start op.origin.span.stop op.kind.children)
      (hsmaller : op.kind.isInfix = true → ∀ part ∈ op.kind.children, ∃ found,
        unit.get? part = some found ∧ found.origin.span ≠ op.origin.span)
      (hrest : Lies unit mid hi ids) : Lies unit lo hi (id :: ids)

namespace Lies

theorem le (h : unit.Lies lo hi ids) : lo ≤ hi := by
  induction h with
  | nil h => exact h
  | @cons _ _ _ _ op _ _ hlo hhi _ _ _ _ ih =>
    have := op.origin.span.start_le_stop
    omega

theorem widen {lo' hi' : Nat} (h : unit.Lies lo hi ids) (hlo : lo' ≤ lo) (hhi : hi ≤ hi') :
    unit.Lies lo' hi' ids := by
  induction h generalizing lo' with
  | nil h => exact .nil (by omega)
  | cons hop hlo' hhi' hparts hsmaller _ _ ih =>
    exact .cons hop (by omega) hhi' hparts hsmaller (ih (Nat.le_refl _) hhi)

theorem append (h : unit.Lies lo mid ids) (h' : unit.Lies mid hi others) : unit.Lies lo hi (ids ++ others) := by
  induction h with
  | nil h => exact h'.widen h (Nat.le_refl _)
  | cons hop hlo hhi hparts hsmaller _ _ ih => exact .cons hop hlo hhi hparts hsmaller (ih h')

/-- Operations that are added later change nothing about where the old ones stand. -/
theorem mono (h : unit.Lies lo hi ids) (hext : unit.Extends later) : later.Lies lo hi ids := by
  induction h with
  | nil h => exact .nil h
  | cons hop hlo hhi _ hsmaller _ ihparts ihrest =>
    obtain ⟨parent, hlater⟩ := hext _ _ hop
    refine .cons hlater hlo hhi ihparts (fun hinfix part hpart => ?_) ihrest
    obtain ⟨found, hfound, hne⟩ := hsmaller hinfix part hpart
    obtain ⟨parent', hfound⟩ := hext _ _ hfound
    exact ⟨_, hfound, hne⟩

end Lies

/-! ### Walking -/

/-- One operation ends before the other starts, or the other is a part of one that stands inside it. -/
def Precedes (unit : BoundUnit) (u v : OperationId) : Prop :=
  ∃ a b, unit.get? u = some a ∧ unit.get? v = some b ∧ (a.origin.span.stop ≤ b.origin.span.start ∨
    a.origin.span.start ≤ b.origin.span.start ∧ b.origin.span.stop ≤ a.origin.span.stop ∧
      ∃ p op, unit.get? p = some op ∧ v ∈ op.kind.children ∧
        (op.kind.isInfix = true → b.origin.span ≠ a.origin.span))

/-- The operation stands in a stretch of the text, and so does the one it is a part of, unless it is one of
those listed. -/
structure StandsIn (unit : BoundUnit) (lo hi : Nat) (ids : List OperationId) (v : OperationId)
    (op : Operation) : Prop where
  get? : unit.get? v = some op
  start : lo ≤ op.origin.span.start
  stop : op.origin.span.stop ≤ hi
  part : v ∈ ids ∨ ∃ p parent, unit.get? p = some parent ∧ v ∈ parent.kind.children ∧
    lo ≤ parent.origin.span.start ∧ parent.origin.span.stop ≤ hi ∧
    parent.origin.span.start ≤ op.origin.span.start ∧ op.origin.span.stop ≤ parent.origin.span.stop ∧
    (parent.kind.isInfix = true → op.origin.span ≠ parent.origin.span)

theorem span_ext {a b : Span} (hstart : a.start = b.start) (hstop : a.stop = b.stop) : a = b := by
  cases a
  cases b
  simp_all

/-- An operation comes before all that stands inside it. -/
theorem StandsIn.precedes {id v : OperationId} {op part : Operation} (hop : unit.get? id = some op)
    (hsmaller : op.kind.isInfix = true → ∀ part ∈ op.kind.children, ∃ found,
      unit.get? part = some found ∧ found.origin.span ≠ op.origin.span)
    (h : unit.StandsIn op.origin.span.start op.origin.span.stop op.kind.children v part) :
    unit.Precedes id v := by
  refine ⟨op, part, hop, h.get?, .inr ⟨h.start, h.stop, ?_⟩⟩
  obtain hv | ⟨p, parent, hp, hv, hlo, hhi, hstart, hstop, hne⟩ := h.part
  · refine ⟨id, op, hop, hv, fun hinfix => ?_⟩
    obtain ⟨found, hfound, hne⟩ := hsmaller hinfix v hv
    cases h.get?.symm.trans hfound
    exact hne
  · refine ⟨p, parent, hp, hv, fun hinfix heq => hne hinfix ?_⟩
    have h₁ : part.origin.span.start = op.origin.span.start := congrArg Span.start heq
    have h₂ : part.origin.span.stop = op.origin.span.stop := congrArg Span.stop heq
    exact span_ext (by omega) (by omega)

/-- The walk from operations that lie in the order of the text meets them in this order. -/
theorem Lies.exists_visited (h : unit.Lies lo hi ids) : ∃ visited : List OperationId,
    (∀ more others, unit.visitUpTo (visited.length + more) (ids ++ others) =
      visited ++ unit.visitUpTo more others) ∧
    visited.Pairwise unit.Precedes ∧ ∀ v ∈ visited, ∃ op, unit.StandsIn lo hi ids v op := by
  induction h with
  | nil h => exact ⟨[], fun more others => by simp, .nil, by simp⟩
  | @cons lo mid hi id op ids hop hlo hhi hparts hsmaller hrest ihparts ihrest =>
    obtain ⟨inner, vinner, pinner, sinner⟩ := ihparts
    obtain ⟨outer, vouter, pouter, souter⟩ := ihrest
    have hspan := op.origin.span.start_le_stop
    have hmid := hrest.le
    refine ⟨id :: (inner ++ outer), fun more others => ?_, List.pairwise_cons.2 ⟨fun v hv => ?_,
      List.pairwise_append.2 ⟨pinner, pouter, fun u hu v hv => ?_⟩⟩, fun v hv => ?_⟩
    · have hlen : (id :: (inner ++ outer)).length + more = inner.length + (outer.length + more) + 1 := by
        simp
        omega
      have hchildren : unit.childrenOf id = op.kind.children := by simp [childrenOf, hop]
      rw [hlen, List.cons_append, visitUpTo, hchildren, vinner, vouter]
      simp
    · obtain hv | hv := List.mem_append.1 hv
      · obtain ⟨part, hpart⟩ := sinner v hv
        exact hpart.precedes hop hsmaller
      · obtain ⟨next, hnext⟩ := souter v hv
        have := hnext.start
        exact ⟨op, next, hop, hnext.get?, .inl (by omega)⟩
    · obtain ⟨part, hpart⟩ := sinner u hu
      obtain ⟨next, hnext⟩ := souter v hv
      have := hpart.stop
      have := hnext.start
      exact ⟨part, next, hpart.get?, hnext.get?, .inl (by omega)⟩
    · obtain rfl | hv := List.mem_cons.1 hv
      · exact ⟨op, hop, hlo, by omega, .inl List.mem_cons_self⟩
      · obtain hv | hv := List.mem_append.1 hv
        · obtain ⟨part, hpart⟩ := sinner v hv
          have := hpart.start
          have := hpart.stop
          refine ⟨part, hpart.get?, by omega, by omega, .inr ?_⟩
          obtain hv | ⟨p, parent, hp, hv, hstart, hstop, hinside⟩ := hpart.part
          · refine ⟨id, op, hop, hv, hlo, by omega, hpart.start, hpart.stop, fun hinfix => ?_⟩
            obtain ⟨found, hfound, hne⟩ := hsmaller hinfix v hv
            cases hpart.get?.symm.trans hfound
            exact hne
          · exact ⟨p, parent, hp, hv, by omega, by omega, hinside⟩
        · obtain ⟨next, hnext⟩ := souter v hv
          have := hnext.start
          refine ⟨next, hnext.get?, by omega, hnext.stop, ?_⟩
          obtain hv | ⟨p, parent, hp, hv, hstart, hinside⟩ := hnext.part
          · exact .inl (List.mem_cons_of_mem _ hv)
          · exact .inr ⟨p, parent, hp, hv, by omega, hinside⟩

/-! ### Roots -/

/-- The roots stand one behind the other. The root of an initial value begins with the name that the value is
for; where `firm` holds, nothing of what was bound before stands behind that name. -/
inductive RootsLie (unit : BoundUnit) (firm : Prop) : Nat → Nat → List OperationId → Prop
  | nil {lo hi : Nat} (h : lo ≤ hi) : RootsLie unit firm lo hi []
  | body {lo mid hi : Nat} {id : OperationId} {ids : List OperationId} (h : unit.Lies lo mid [id])
      (hrest : RootsLie unit firm mid hi ids) : RootsLie unit firm lo hi (id :: ids)
  | initial {lo mid hi : Nat} {id value : OperationId} {op : Operation} {name : String}
      {ids : List OperationId} (hop : unit.get? id = some op)
      (hkind : op.kind = .variableDeclaration name (some value)) (hvalue : unit.Lies lo mid [value])
      (hfirm : firm → unit.Lies lo mid [id]) (hrest : RootsLie unit firm mid hi ids) :
      RootsLie unit firm lo hi (id :: ids)

namespace RootsLie

variable {firm : Prop}

theorem le (h : unit.RootsLie firm lo hi ids) : lo ≤ hi := by
  induction h with
  | nil h => exact h
  | body h _ ih => exact Nat.le_trans h.le ih
  | initial _ _ hvalue _ _ ih => exact Nat.le_trans hvalue.le ih

theorem widen {lo' hi' : Nat} (h : unit.RootsLie firm lo hi ids) (hlo : lo' ≤ lo) (hhi : hi ≤ hi') :
    unit.RootsLie firm lo' hi' ids := by
  induction h generalizing lo' with
  | nil h => exact .nil (by omega)
  | body h _ ih => exact .body (h.widen hlo (Nat.le_refl _)) (ih (Nat.le_refl _) hhi)
  | initial hop hkind hvalue hfirm _ ih =>
    exact .initial hop hkind (hvalue.widen hlo (Nat.le_refl _))
      (fun hf => (hfirm hf).widen hlo (Nat.le_refl _)) (ih (Nat.le_refl _) hhi)

theorem append (h : unit.RootsLie firm lo mid ids) (h' : unit.RootsLie firm mid hi others) :
    unit.RootsLie firm lo hi (ids ++ others) := by
  induction h with
  | nil h => exact h'.widen h (Nat.le_refl _)
  | body h _ ih => exact .body h (ih h')
  | initial hop hkind hvalue hfirm _ ih => exact .initial hop hkind hvalue hfirm (ih h')

theorem mono (h : unit.RootsLie firm lo hi ids) (hext : unit.Extends later) :
    later.RootsLie firm lo hi ids := by
  induction h with
  | nil h => exact .nil h
  | body h _ ih => exact .body (h.mono hext) ih
  | initial hop hkind hvalue hfirm _ ih =>
    obtain ⟨parent, hlater⟩ := hext _ _ hop
    exact .initial hlater hkind (hvalue.mono hext) (fun hf => (hfirm hf).mono hext) ih

/-- Where nothing stands between a name and its initial value, the roots lie like other operations. -/
theorem lies (h : unit.RootsLie firm lo hi ids) (hf : firm) : unit.Lies lo hi ids := by
  induction h with
  | nil h => exact .nil h
  | body h _ ih => exact h.append ih
  | initial _ _ _ hfirm _ ih => exact (hfirm hf).append ih

end RootsLie

/-- The walk from some operations meets conversions in the order of the text only, all in one stretch of it. -/
structure ConvertsIn (unit : BoundUnit) (lo hi : Nat) (ids visited : List OperationId) : Prop where
  visits : ∀ more others, unit.visitUpTo (visited.length + more) (ids ++ others) =
    visited ++ unit.visitUpTo more others
  ordered : (visited.filter unit.isConversion).Pairwise unit.Precedes
  inside : ∀ v ∈ visited.filter unit.isConversion, ∃ op, unit.get? v = some op ∧
    lo ≤ op.origin.span.start ∧ op.origin.span.stop ≤ hi

theorem ConvertsIn.append {visited visited' : List OperationId} (h : unit.ConvertsIn lo mid ids visited)
    (h' : unit.ConvertsIn mid hi others visited') (hlo : lo ≤ mid) (hhi : mid ≤ hi) :
    unit.ConvertsIn lo hi (ids ++ others) (visited ++ visited') where
  visits more rest := by
    rw [List.length_append, Nat.add_assoc, List.append_assoc, h.visits, h'.visits, List.append_assoc]
  ordered := by
    rw [List.filter_append]
    refine List.pairwise_append.2 ⟨h.ordered, h'.ordered, fun u hu v hv => ?_⟩
    obtain ⟨a, ha, -, hstop⟩ := h.inside u hu
    obtain ⟨b, hb, hstart, -⟩ := h'.inside v hv
    exact ⟨a, b, ha, hb, .inl (by omega)⟩
  inside v hv := by
    rw [List.filter_append] at hv
    obtain hv | hv := List.mem_append.1 hv
    · obtain ⟨op, hop, hstart, hstop⟩ := h.inside v hv
      exact ⟨op, hop, hstart, by omega⟩
    · obtain ⟨op, hop, hstart, hstop⟩ := h'.inside v hv
      exact ⟨op, hop, by omega, hstop⟩

theorem Lies.exists_convertsIn (h : unit.Lies lo hi ids) :
    ∃ visited, unit.ConvertsIn lo hi ids visited := by
  obtain ⟨visited, hvisits, hordered, hinside⟩ := h.exists_visited
  refine ⟨visited, hvisits, hordered.filter _, fun v hv => ?_⟩
  obtain ⟨op, hop⟩ := hinside v (List.mem_of_mem_filter hv)
  exact ⟨op, hop.get?, hop.start, hop.stop⟩

/-- The walk from the roots meets the conversions in the order of the text. -/
theorem RootsLie.exists_convertsIn {firm : Prop} (h : unit.RootsLie firm lo hi ids) :
    ∃ visited, unit.ConvertsIn lo hi ids visited := by
  induction h with
  | nil h => exact (Lies.nil h).exists_convertsIn
  | body h hrest ih =>
    obtain ⟨first, hfirst⟩ := h.exists_convertsIn
    obtain ⟨rest, hrest'⟩ := ih
    exact ⟨first ++ rest, hfirst.append hrest' h.le hrest.le⟩
  | @initial lo mid hi id value op name ids hop hkind hvalue _ hrest ih =>
    obtain ⟨inner, hinner⟩ := hvalue.exists_convertsIn
    obtain ⟨rest, hrest'⟩ := ih
    have hchildren : unit.childrenOf id = [value] := by
      simp [childrenOf, hop, hkind, OperationKind.children]
    have hnot : unit.isConversion id = false := by
      obtain ⟨kind, _⟩ := op
      cases hkind
      simp [isConversion, hop]
    have hfilter : (id :: inner).filter unit.isConversion = inner.filter unit.isConversion :=
      List.filter_cons_of_neg (by simp [hnot])
    have hroot : unit.ConvertsIn lo mid [id] (id :: inner) := by
      refine ⟨fun more others => ?_, hfilter ▸ hinner.ordered, hfilter ▸ hinner.inside⟩
      rw [List.length_cons, Nat.succ_add, List.singleton_append, visitUpTo, hchildren, hinner.visits]
      rfl
    exact ⟨(id :: inner) ++ rest, hroot.append hrest' hvalue.le hrest.le⟩

/-! ### All operations -/

theorem Forest.eq_descendants (h : Forest unit []) {visited : List OperationId}
    (hvisits : ∀ more others, unit.visitUpTo (visited.length + more) (unit.roots ++ others) =
      visited ++ unit.visitUpTo more others) : unit.descendants = visited := by
  have hend := h.isForest.ends visited.length
  have hall := hvisits unit.operations.size []
  rw [List.append_nil, Nat.add_comm, hend] at hall
  rw [hall]
  cases unit.operations.size <;> simp [visitUpTo]

/-- The operations of a finished forest whose roots lie in the order of the text are met by their starts. -/
theorem Forest.pairwise_descendants (h : Forest unit []) (hroots : unit.Lies lo hi unit.roots) :
    unit.descendants.Pairwise unit.Precedes := by
  obtain ⟨visited, hvisits, hordered, -⟩ := hroots.exists_visited
  rwa [h.eq_descendants hvisits]

theorem Forest.pairwise_conversions {firm : Prop} (h : Forest unit [])
    (hroots : unit.RootsLie firm lo hi unit.roots) : unit.conversions.Pairwise unit.Precedes := by
  obtain ⟨visited, hvisited⟩ := hroots.exists_convertsIn
  rw [conversions, h.eq_descendants hvisited.visits]
  exact hvisited.ordered

end BoundUnit

end CultureLint
