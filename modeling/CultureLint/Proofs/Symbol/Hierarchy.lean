import CultureLint.Proofs.Binding.Program
import Mathlib.Algebra.BigOperators.Fin
import Mathlib.Logic.Relation

/-! The questions about inheritance, for hierarchies of any shape. A program may make a class its own base
or let interfaces list each other, so that links lead in a circle; each walk still ends, and lists what
the links lead to, each type once. -/

namespace CultureLint

namespace Compilation

variable {c : Compilation} {t u id : TypeId} {found pending seen : List TypeId} {bound : Nat}

/-- The second type is the base of the first. -/
def HasBase (c : Compilation) (t u : TypeId) : Prop := (c.symbol t).base = some u

/-- The second type is one of the interfaces that the first lists. -/
def Lists (c : Compilation) (t u : TypeId) : Prop := u ∈ (c.symbol t).interfaces

/-- The type or one of its base types lists the interface, or lists one that leads to it. -/
def Implements (c : Compilation) (t u : TypeId) : Prop :=
  ∃ owner ∈ c.baseChain t, Relation.TransGen c.Lists owner u

/-! ### Base types -/

/-- One step of the walk along the base types. -/
theorem baseChainUpTo_cases (c : Compilation) (bound : Nat) (seen : List TypeId) (id : TypeId) :
    (c.baseChainUpTo (bound + 1) seen id = [id] ∧ ∀ u, c.HasBase id u → u ∈ id :: seen) ∨
    ∃ base, c.HasBase id base ∧ base ∉ id :: seen ∧
      c.baseChainUpTo (bound + 1) seen id = id :: c.baseChainUpTo bound (id :: seen) base := by
  simp only [baseChainUpTo, HasBase]
  cases hbase : (c.symbol id).base with
  | none => exact .inl ⟨rfl, by simp⟩
  | some base =>
    by_cases hcycle : base = id ∨ base ∈ seen
    · exact .inl ⟨by simp [hcycle], by simpa using hcycle⟩
    · exact .inr ⟨base, rfl, by simpa using hcycle, by simp [hcycle]⟩

theorem head?_baseChainUpTo : ∀ u ∈ (c.baseChainUpTo bound seen id).head?, u = id := by
  cases bound with
  | zero => simp [baseChainUpTo]
  | succ bound => simp [baseChainUpTo]

theorem isChain_baseChainUpTo (bound : Nat) (seen : List TypeId) (id : TypeId) :
    (c.baseChainUpTo bound seen id).IsChain c.HasBase := by
  induction bound generalizing seen id with
  | zero => exact .nil
  | succ bound ih =>
    obtain ⟨h, -⟩ | ⟨base, hbase, -, h⟩ := baseChainUpTo_cases c bound seen id
    · rw [h]
      exact .singleton id
    · rw [h, List.isChain_cons]
      refine ⟨fun u hu => ?_, ih (id :: seen) base⟩
      rw [head?_baseChainUpTo u hu]
      exact hbase

theorem nodup_baseChainUpTo (hid : id ∉ seen) :
    (c.baseChainUpTo bound seen id).Nodup ∧ ∀ u ∈ c.baseChainUpTo bound seen id, u ∉ seen := by
  induction bound generalizing seen id with
  | zero => simp [baseChainUpTo]
  | succ bound ih =>
    obtain ⟨h, -⟩ | ⟨base, -, hbase, h⟩ := baseChainUpTo_cases c bound seen id
    · simp [h, hid]
    · obtain ⟨hnodup, hnew⟩ := ih hbase
      rw [h]
      refine ⟨List.nodup_cons.2 ⟨fun hmem => hnew id hmem (List.mem_cons_self ..), hnodup⟩, ?_⟩
      exact List.forall_mem_cons.2 ⟨hid, fun u hu hseen => hnew u hu (List.mem_cons_of_mem _ hseen)⟩

theorem reachable_of_mem_baseChainUpTo (hu : u ∈ c.baseChainUpTo bound seen id) :
    Relation.ReflTransGen c.HasBase id u := by
  induction bound generalizing seen id with
  | zero => simp [baseChainUpTo] at hu
  | succ bound ih =>
    obtain ⟨h, -⟩ | ⟨base, hbase, -, h⟩ := baseChainUpTo_cases c bound seen id
    · rw [h, List.mem_singleton] at hu
      exact hu ▸ .refl
    · rw [h, List.mem_cons] at hu
      obtain rfl | hu := hu
      · exact .refl
      · exact .head hbase (ih hu)

/-- The walk is not cut off by its bound: it goes on to every base type that has not come yet. -/
theorem baseChainUpTo_closed (h : Coherent c) (hnodup : (id :: seen).Nodup)
    (hh : ∀ t ∈ id :: seen, c.Has t) (hb : c.types.size ≤ bound + seen.length) :
    ∀ t ∈ c.baseChainUpTo bound seen id, ∀ u, c.HasBase t u →
      u ∈ seen ∨ u ∈ c.baseChainUpTo bound seen id := by
  induction bound generalizing seen id with
  | zero => simp [baseChainUpTo]
  | succ bound ih =>
    obtain ⟨hstep, hlast⟩ | ⟨base, hbase, hnew, hstep⟩ := baseChainUpTo_cases c bound seen id
    · intro t ht u hu
      rw [hstep, List.mem_singleton] at ht
      subst ht
      rw [hstep, List.mem_singleton, or_comm]
      exact List.mem_cons.1 (hlast u hu)
    · have hbn : (base :: id :: seen).Nodup := List.nodup_cons.2 ⟨hnew, hnodup⟩
      have hbh : ∀ t ∈ base :: id :: seen, c.Has t :=
        List.forall_mem_cons.2 ⟨(h.closed id).base base hbase, hh⟩
      have hrest := ih hbn hbh (by simp only [List.length_cons]; omega)
      -- the base itself is met next, since there is at least one step left for it
      have hpos : bound ≠ 0 := by
        rintro rfl
        have := length_le_of_has hbn hbh
        simp only [List.length_cons] at this
        omega
      obtain ⟨bound, rfl⟩ := Nat.exists_eq_succ_of_ne_zero hpos
      have hself : base ∈ c.baseChainUpTo (bound + 1) (id :: seen) base := by simp [baseChainUpTo]
      intro t ht u hu
      rw [hstep] at ht ⊢
      obtain rfl | ht := List.mem_cons.1 ht
      · obtain rfl : base = u := Option.some.inj (hbase.symm.trans hu)
        exact .inr (List.mem_cons_of_mem _ hself)
      · obtain hu | hu := hrest t ht u hu
        · obtain rfl | hu := List.mem_cons.1 hu
          · exact .inr (List.mem_cons_self ..)
          · exact .inl hu
        · exact .inr (List.mem_cons_of_mem _ hu)

theorem baseChain_of_not_has (hid : ¬ c.Has id) (hb : 0 < bound) : c.baseChainUpTo bound [] id = [id] := by
  obtain ⟨bound, rfl⟩ := Nat.exists_eq_succ_of_ne_zero (Nat.ne_of_gt hb)
  simp [baseChainUpTo, symbol_of_not_has hid]

theorem head_baseChain (c : Compilation) (t : TypeId) : (c.baseChain t).head? = some t := by
  simp [baseChain, baseChainUpTo]

/-- A base type of a type of the chain is in the chain, also where the links lead in a circle. -/
theorem baseChain_closed (h : Coherent c) (ht : t ∈ c.baseChain id) (hu : c.HasBase t u) :
    u ∈ c.baseChain id := by
  by_cases hid : c.Has id
  · refine (baseChainUpTo_closed h ?_ ?_ ?_ t ht u hu).resolve_left (by simp)
    · simp
    · simpa using hid
    · simp only [List.length_nil]
      omega
  · rw [baseChain, baseChain_of_not_has hid (Nat.succ_pos _), List.mem_singleton] at ht
    subst ht
    simp [HasBase, symbol_of_not_has hid] at hu

theorem mem_baseChain_iff (h : Coherent c) :
    u ∈ c.baseChain t ↔ Relation.ReflTransGen c.HasBase t u := by
  refine ⟨reachable_of_mem_baseChainUpTo, fun hreach => ?_⟩
  induction hreach with
  | refl => exact List.mem_of_head? (head_baseChain c t)
  | tail _ hlink ih => exact baseChain_closed h ih hlink

theorem baseChainUpTo_eq (h : Coherent c) (t : TypeId) (hb : c.types.size < bound) :
    c.baseChainUpTo bound [] t = c.baseChain t := by
  by_cases ht : c.Has t
  · exact baseChainUpTo_eq_baseChain h ht hb
  · rw [baseChain, baseChain_of_not_has ht (by omega), baseChain_of_not_has ht (Nat.succ_pos _)]

/-! ### Interfaces -/

/-- The number of interfaces that the types list which have not been asked for them yet. -/
def unasked (c : Compilation) (found : List TypeId) : Nat :=
  ∑ i ∈ Finset.range c.types.size with ⟨i⟩ ∉ found, (c.symbol ⟨i⟩).interfaces.length

theorem unasked_nil (c : Compilation) : c.unasked [] = (c.types.toList.flatMap (·.interfaces)).length := by
  have hsymbol (i : Fin c.types.size) : c.symbol ⟨i⟩ = c.types[i] := by
    rw [symbol, Array.getElem?_eq_getElem i.2, Option.getD_some, Fin.getElem_fin]
  simp only [unasked, List.not_mem_nil, not_false_eq_true, Finset.filter_true, Finset.sum_range, hsymbol]
  rw [List.length_flatMap, ← Fin.sum_univ_getElem]
  exact Fintype.sum_equiv (finCongr (by simp)) _ _ fun i => by simp

/-- Asking a type takes the interfaces it lists off the number. -/
theorem unasked_append (hid : id ∉ found) :
    c.unasked found = (c.symbol id).interfaces.length + c.unasked (found ++ [id]) := by
  have hsame (i : Nat) : (⟨i⟩ : TypeId) ∉ found ++ [id] ↔ (⟨i⟩ : TypeId) ∉ found ∧ i ≠ id.index := by
    obtain ⟨j⟩ := id
    simp
  by_cases hhas : c.Has id
  · rw [unasked, unasked, ← Finset.add_sum_erase (a := id.index)]
    · congr 1
      refine Finset.sum_congr (Finset.ext fun i => ?_) fun _ _ => rfl
      simp only [Finset.mem_erase, Finset.mem_filter, hsame]
      tauto
    · simpa [hid, Has] using hhas
  · -- a number without a type lists nothing, and is not counted
    rw [symbol_of_not_has hhas, unasked, unasked, List.length_nil, Nat.zero_add]
    refine Finset.sum_congr (Finset.filter_congr fun i hi => ?_) fun _ _ => rfl
    rw [hsame, and_iff_left]
    rintro rfl
    exact hhas (Finset.mem_range.1 hi)

/-- What holds while interfaces are followed: what was found and what is still pending is implemented by the
type, and together they leave out nothing that the types met so far list. -/
structure Following (c : Compilation) (t : TypeId) (found pending : List TypeId) : Prop where
  nodup : found.Nodup
  sound : ∀ u, u ∈ found ∨ u ∈ pending → c.Implements t u
  declared : ∀ owner ∈ c.baseChain t, ∀ u, c.Lists owner u → u ∈ found ∨ u ∈ pending
  followed : ∀ v ∈ found, ∀ u, c.Lists v u → u ∈ found ∨ u ∈ pending

namespace Following

/-- An interface that was found before is passed over. -/
theorem skip (h : Following c t found (id :: pending)) (hid : id ∈ found) : Following c t found pending := by
  have move (u : TypeId) (hu : u ∈ found ∨ u ∈ id :: pending) : u ∈ found ∨ u ∈ pending := by
    obtain hu | hu := hu
    · exact .inl hu
    · obtain rfl | hu := List.mem_cons.1 hu
      · exact .inl hid
      · exact .inr hu
  refine ⟨h.nodup, fun u hu => h.sound u (hu.imp_right (List.mem_cons_of_mem _)), ?_, ?_⟩
  · intro owner ho u hu
    exact move u (h.declared owner ho u hu)
  · intro v hv u hu
    exact move u (h.followed v hv u hu)

/-- A new interface is found, and what it lists is pending. -/
theorem take (h : Following c t found (id :: pending)) (hid : id ∉ found) :
    Following c t (found ++ [id]) ((c.symbol id).interfaces.reverse ++ pending) := by
  have hself : c.Implements t id := h.sound id (.inr (List.mem_cons_self ..))
  have move (u : TypeId) (hu : u ∈ found ∨ u ∈ id :: pending) :
      u ∈ found ++ [id] ∨ u ∈ (c.symbol id).interfaces.reverse ++ pending := by
    simp only [List.mem_append, List.mem_cons] at hu ⊢
    tauto
  refine ⟨?_, fun u hu => ?_, ?_, ?_⟩
  · rw [List.nodup_append_comm]
    exact List.nodup_cons.2 ⟨hid, h.nodup⟩
  · simp only [List.mem_append, List.mem_singleton, List.mem_reverse] at hu
    obtain (hu | rfl) | hu | hu := hu
    · exact h.sound u (.inl hu)
    · exact hself
    · obtain ⟨owner, ho, hpath⟩ := hself
      exact ⟨owner, ho, hpath.tail hu⟩
    · exact h.sound u (.inr (List.mem_cons_of_mem _ hu))
  · intro owner ho u hu
    exact move u (h.declared owner ho u hu)
  · intro v hv u hu
    obtain hv | hv := List.mem_append.1 hv
    · exact move u (h.followed v hv u hu)
    · rw [List.mem_singleton.1 hv] at hu
      exact .inr (List.mem_append_left _ (List.mem_reverse.2 hu))

/-- Enough steps follow all interfaces to the end. -/
theorem run (h : Following c t found pending) (hb : pending.length + c.unasked found ≤ bound) :
    Following c t (c.closeInterfaces bound found pending) [] := by
  induction bound generalizing found pending with
  | zero =>
    obtain rfl : pending = [] := List.eq_nil_of_length_eq_zero (by omega)
    exact h
  | succ bound ih =>
    cases pending with
    | nil => exact h
    | cons id pending =>
      rw [List.length_cons] at hb
      rw [closeInterfaces]
      split
      case isTrue hid => exact ih (h.skip hid) (by omega)
      case isFalse hid =>
        rw [unasked_append hid] at hb
        exact ih (h.take hid) (by simp only [List.length_append, List.length_reverse]; omega)

/-- When nothing is pending, all that the type implements has been found. -/
theorem mem_iff (h : Following c t found []) : u ∈ found ↔ c.Implements t u := by
  constructor
  · exact fun hu => h.sound u (.inl hu)
  rintro ⟨owner, ho, hpath⟩
  induction hpath with
  | single hlink => exact (h.declared owner ho _ hlink).resolve_right (by simp)
  | tail _ hlink ih => exact (h.followed _ ih _ hlink).resolve_right (by simp)

end Following

/-- More steps than are needed change nothing. -/
theorem closeInterfaces_eq {more : Nat} (hb : pending.length + c.unasked found ≤ bound) :
    c.closeInterfaces (bound + more) found pending = c.closeInterfaces bound found pending := by
  induction bound generalizing found pending with
  | zero =>
    obtain rfl : pending = [] := List.eq_nil_of_length_eq_zero (by omega)
    cases more <;> simp [closeInterfaces]
  | succ bound ih =>
    rw [Nat.add_right_comm]
    cases pending with
    | nil => rfl
    | cons id pending =>
      rw [List.length_cons] at hb
      simp only [closeInterfaces]
      split
      case isTrue hid => exact ih (by omega)
      case isFalse hid =>
        rw [unasked_append hid] at hb
        exact ih (by simp only [List.length_append, List.length_reverse]; omega)

/-- The interfaces that a type and its base types list themselves. -/
def listedAlong (c : Compilation) (t : TypeId) : List TypeId :=
  (c.baseChain t).flatMap fun owner => (c.symbol owner).interfaces

/-- The number of steps that the search for interfaces is given. -/
def interfaceSteps (c : Compilation) (t : TypeId) : Nat :=
  (c.listedAlong t).length + (c.types.toList.flatMap (·.interfaces)).length

theorem allInterfaces_eq (c : Compilation) (t : TypeId) :
    c.allInterfaces t = c.closeInterfaces (c.interfaceSteps t) [] (c.listedAlong t).reverse := rfl

theorem steps_le_interfaceSteps (c : Compilation) (t : TypeId) :
    (c.listedAlong t).reverse.length + c.unasked [] ≤ c.interfaceSteps t := by
  rw [unasked_nil, List.length_reverse, interfaceSteps]

theorem following_allInterfaces (c : Compilation) (t : TypeId) : Following c t (c.allInterfaces t) [] := by
  rw [allInterfaces_eq]
  refine Following.run ⟨.nil, fun u hu => ?_, fun owner ho u hu => .inr ?_, by simp⟩
    (steps_le_interfaceSteps c t)
  · obtain ⟨owner, ho, hu⟩ := List.mem_flatMap.1 (List.mem_reverse.1 (hu.resolve_left (by simp)))
    exact ⟨owner, ho, .single hu⟩
  · exact List.mem_reverse.2 (List.mem_flatMap.2 ⟨owner, ho, hu⟩)

/-! ### Conversions -/

theorem Coherent.underlying_lt (h : Coherent c) {underlying : TypeId}
    (hkind : (c.symbol t).kind = .nullable underlying) :
    underlying.index < t.index ∧ t.index < c.types.size := by
  have hhas : c.Has t := has_of_kind (by simp [hkind])
  exact ⟨h.precedes t underlying (.inr hkind), hhas⟩

/-- A nullable type is built from a type with a smaller number, so a value is asked for at most as many
types as the number of the target says. -/
theorem convertTypeUpTo_congr (h : Coherent c) {n m : Nat} (s t : TypeId)
    (hn : min t.index c.types.size < n) (hm : min t.index c.types.size < m) :
    c.convertTypeUpTo n s t = c.convertTypeUpTo m s t := by
  induction n generalizing m t with
  | zero => omega
  | succ n ih =>
    cases m with
    | zero => omega
    | succ m =>
      rw [convertTypeUpTo, convertTypeUpTo]
      cases hkind : (c.symbol t).kind with
      | nullable underlying =>
        obtain ⟨hless, hbound⟩ := h.underlying_lt hkind
        have hinner := ih underlying (m := m) (by omega) (by omega)
        simp only [hinner]
      | classType | structType | interfaceType | array => rfl

/-- More steps than there are types change nothing. -/
theorem convertTypeUpTo_eq (h : Coherent c) (s t : TypeId) (hb : c.types.size < bound) :
    c.convertTypeUpTo bound s t = c.convertType s t :=
  convertTypeUpTo_congr h s t (by omega) (by omega)

theorem inheritsFrom_iff (c : Compilation) (s t : TypeId) : c.inheritsFrom s t = true ↔
    t ∈ c.baseChain s ∨ t ∈ c.allInterfaces s ∨
      (c.symbol t).special = some .object ∧ (c.symbol s).kind = .interfaceType := by
  simp [inheritsFrom, or_assoc]

/-- Where neither numbers are widened nor a nullable type takes the value in, only inheritance is left. -/
theorem isConversion_convertType_iff (h : Coherent c) {s t : TypeId} (hne : s ≠ t)
    (hnumeric : c.widens s t = false)
    (hnullable : ∀ underlying, (c.symbol t).kind = .nullable underlying →
      (c.convertType s underlying).isConversion = false) :
    (c.convertType s t).isConversion = true ↔ c.inheritsFrom s t = true := by
  have hstep : c.convertType s t =
      if c.inheritsFrom s t then if c.isValueType s then .boxing else .implicitReference
      else .noConversion := by
    rw [convertType, convertTypeUpTo]
    cases hkind : (c.symbol t).kind with
    | nullable underlying =>
      obtain ⟨hless, hbound⟩ := h.underlying_lt hkind
      have hinner := hnullable underlying hkind
      rw [convertType, convertTypeUpTo_congr h s underlying (m := c.types.size) (by omega) (by omega)] at hinner
      simp [hne, hnumeric, hinner]
    | classType | structType | interfaceType | array => simp [hne, hnumeric]
  rw [hstep]
  cases c.inheritsFrom s t <;> cases c.isValueType s <;> simp [Conversion.isConversion]

/-! ### All questions -/

/-- What the questions about the hierarchy answer, and that no answer is cut short. -/
structure HierarchyExact (c : Compilation) : Prop where
  /-- The base types come one after the other, from the type itself on, none of them twice. -/
  chain : ∀ t, (c.baseChain t).head? = some t ∧ (c.baseChain t).IsChain c.HasBase ∧ (c.baseChain t).Nodup
  mem_chain : ∀ t u, u ∈ c.baseChain t ↔ Relation.ReflTransGen c.HasBase t u
  chain_ends : ∀ t, ∃ enough, ∀ bound, enough ≤ bound → c.baseChainUpTo bound [] t = c.baseChain t
  interfaces_nodup : ∀ t, (c.allInterfaces t).Nodup
  mem_interfaces : ∀ t u, u ∈ c.allInterfaces t ↔ ∃ owner ∈ c.baseChain t, Relation.TransGen c.Lists owner u
  interfaces_end : ∀ t, ∃ enough, ∀ bound, enough ≤ bound →
    c.closeInterfaces bound [] (c.listedAlong t).reverse = c.allInterfaces t
  conversion_ends : ∀ s t, ∃ enough, ∀ bound, enough ≤ bound → c.convertTypeUpTo bound s t = c.convertType s t
  /-- Between different types, where numbers are not widened and no nullable type takes the value in. -/
  conversion_iff : ∀ s t isNull, s ≠ t → c.widens s t = false →
    (∀ underlying, (c.symbol t).kind = .nullable underlying →
      (c.convertImplicit (some s) false underlying).isConversion = false) →
    ((c.convertImplicit (some s) isNull t).isConversion = true ↔
      t ∈ c.baseChain s ∨ t ∈ c.allInterfaces s ∨
        (c.symbol t).special = some .object ∧ (c.symbol s).kind = .interfaceType)

theorem Coherent.hierarchyExact (h : Coherent c) : c.HierarchyExact where
  chain t := ⟨head_baseChain c t, isChain_baseChainUpTo _ _ t, (nodup_baseChainUpTo (by simp)).1⟩
  mem_chain t u := mem_baseChain_iff h
  chain_ends t := ⟨c.types.size + 1, fun bound hb => baseChainUpTo_eq h t hb⟩
  interfaces_nodup t := (following_allInterfaces c t).nodup
  mem_interfaces t u := (following_allInterfaces c t).mem_iff
  interfaces_end t := by
    refine ⟨c.interfaceSteps t, fun bound hb => ?_⟩
    obtain ⟨more, rfl⟩ := Nat.exists_eq_add_of_le hb
    exact closeInterfaces_eq (steps_le_interfaceSteps c t)
  conversion_ends s t := ⟨c.types.size + 1, fun bound hb => convertTypeUpTo_eq h s t hb⟩
  conversion_iff s t isNull hne hnumeric hnullable :=
    (isConversion_convertType_iff h hne hnumeric hnullable).trans (inheritsFrom_iff c s t)

end Compilation

/-- The questions about the hierarchy of a bound program are answered exactly, whatever its documents declare. -/
theorem BoundProgram.hierarchyExact_ofUnits (references : List Reference) (units : List CompilationUnit) :
    (ofUnits references units).compilation.HierarchyExact :=
  (bound_ofUnits references units).coherent.hierarchyExact

/-- Two classes that inherit from each other, and two interfaces that list each other. -/
def circularText : String := "class A:B,I\x7b\x7dclass B:A\x7b\x7dinterface I:J\x7b\x7dinterface J:I\x7b\x7d"

example : ((Document.parse "A.cs" circularText).toOption.any fun d =>
    let c := (Project.mk [.core] [d]).bind.compilation
    (c.byMetadataName? "A").any fun t =>
      (c.baseChain t).map (fun u => (c.symbol u).name) = ["A", "B"] &&
      (c.allInterfaces t).map (fun u => (c.symbol u).name) = ["I", "J"]) = true := by decide +kernel

end CultureLint
