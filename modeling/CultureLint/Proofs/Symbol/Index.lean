import CultureLint.Symbol.Compilation
import Mathlib.Tactic.ByContra

/-! The types of a compilation by their numbers, and the indexes beside them. Whatever type is added, the
indexes tell of the types what one would find by going through all of them. -/

namespace CultureLint

namespace Compilation

variable {c : Compilation}

/-! ### Known types -/

/-- The number is that of a type of the compilation. -/
def Has (c : Compilation) (id : TypeId) : Prop := id.index < c.types.size

/-- A type, where there is one, is a type of the compilation. -/
def Knows (c : Compilation) (type : Option TypeId) : Prop := ∀ id, type = some id → c.Has id

theorem knows_none (c : Compilation) : c.Knows none := fun _ h => nomatch h

theorem knows_some {id : TypeId} : c.Knows (some id) ↔ c.Has id :=
  ⟨fun h => h id rfl, fun h _ hid => Option.some.inj hid ▸ h⟩

theorem Knows.or {a b : Option TypeId} (ha : c.Knows a) (hb : c.Knows b) : c.Knows (a.or b) := by
  cases a with
  | none => exact hb
  | some a => exact ha

theorem symbol_of_not_has {id : TypeId} (h : ¬ c.Has id) :
    c.symbol id = { namespaceName := "", name := "", kind := .classType } := by
  rw [symbol, Array.getElem?_eq_none (Nat.le_of_not_lt h), Option.getD_none]

/-- A number with a symbol that says anything is that of a type. -/
theorem has_of_kind {id : TypeId} (h : (c.symbol id).kind ≠ .classType) : c.Has id := by
  by_contra hid
  rw [symbol_of_not_has hid] at h
  exact h rfl

theorem has_of_special {id : TypeId} {s : SpecialType} (h : (c.symbol id).special = some s) :
    c.Has id := by
  by_contra hid
  rw [symbol_of_not_has hid] at h
  cases h

theorem has_of_mem_members {id : TypeId} {m : Member} (h : m ∈ (c.symbol id).members) : c.Has id := by
  by_contra hid
  rw [symbol_of_not_has hid] at h
  cases h

/-! ### One more type -/

theorem has_nextId_addType (c : Compilation) (s : TypeSymbol) : (c.addType s).Has c.nextId := by
  simp [Has, addType, nextId]

theorem symbol_addType_nextId (c : Compilation) (s : TypeSymbol) :
    (c.addType s).symbol c.nextId = s := by
  simp [symbol, addType, nextId]

theorem symbol_addType_of_has {id : TypeId} (s : TypeSymbol) (h : c.Has id) :
    (c.addType s).symbol id = c.symbol id := by
  simp only [symbol, addType]
  rw [Array.getElem?_push_lt h, Array.getElem?_eq_getElem h]

theorem has_addType_iff {id : TypeId} (s : TypeSymbol) :
    (c.addType s).Has id ↔ c.Has id ∨ id = c.nextId := by
  obtain ⟨i⟩ := id
  simp only [Has, addType, Array.size_push, nextId, TypeId.mk.injEq]
  omega

theorem not_has_nextId (c : Compilation) : ¬ c.Has c.nextId := Nat.lt_irrefl _

/-- What a symbol says of a type when one more is there: it did before, or the type is the new one. -/
theorem has_and_addType_iff {s : TypeSymbol} {P : TypeSymbol → Prop} {id : TypeId} :
    ((c.addType s).Has id ∧ P ((c.addType s).symbol id)) ↔
      (c.Has id ∧ P (c.symbol id)) ∨ id = c.nextId ∧ P s := by
  constructor
  · rintro ⟨hid, h⟩
    obtain hc | rfl := (has_addType_iff s).1 hid
    · rw [symbol_addType_of_has s hc] at h
      exact .inl ⟨hc, h⟩
    · rw [symbol_addType_nextId] at h
      exact .inr ⟨rfl, h⟩
  · rintro (⟨hid, h⟩ | ⟨rfl, h⟩)
    · exact ⟨(has_addType_iff s).2 (.inl hid), by rwa [symbol_addType_of_has s hid]⟩
    · exact ⟨has_nextId_addType c s, by rwa [symbol_addType_nextId]⟩

/-! ### Changing a type -/

theorem symbol_modifyType (c : Compilation) (id : TypeId) (f : TypeSymbol → TypeSymbol) (other : TypeId) :
    (c.modifyType id f).symbol other = c.symbol other ∨
      c.Has id ∧ other = id ∧ (c.modifyType id f).symbol other = f (c.symbol other) := by
  obtain ⟨i⟩ := id
  obtain ⟨j⟩ := other
  simp only [symbol, modifyType, Array.getElem?_modify, Has, TypeId.mk.injEq]
  by_cases h : i = j
  · subst h
    by_cases hi : i < c.types.size <;> simp [hi]
  · simp [h]

theorem has_modifyType {id other : TypeId} {f : TypeSymbol → TypeSymbol} :
    (c.modifyType id f).Has other ↔ c.Has other := by
  simp [Has, modifyType]

/-- What a change leaves alone in a symbol it leaves alone in all of them. -/
theorem symbol_modifyType_eq {α : Type} {f : TypeSymbol → TypeSymbol} {g : TypeSymbol → α}
    (h : ∀ s, g (f s) = g s) (id other : TypeId) :
    g ((c.modifyType id f).symbol other) = g (c.symbol other) := by
  obtain hsame | ⟨-, -, hnew⟩ := symbol_modifyType c id f other
  · rw [hsame]
  · rw [hnew, h]

/-! ### Indexes -/

/-- The type has the name, and is not one that is built from another type. -/
def Named (c : Compilation) (name : String) (id : TypeId) : Prop :=
  c.Has id ∧ (c.symbol id).kind.isConstructed = false ∧ (c.symbol id).metadataName = name

/-- What the index by names should lead to: the first type of the name, and to nothing without one. -/
def NameEntry (c : Compilation) (name : String) : Option TypeId → Prop
  | none => ∀ id, ¬ c.Named name id
  | some id => c.Named name id ∧ ∀ other, c.Named name other → id.index ≤ other.index

/-- The indexes lead to the types, and to nothing else. -/
structure Indexed (c : Compilation) : Prop where
  entry : ∀ name, c.NameEntry name (c.byMetadataName? name)
  isNamespace_iff : ∀ name, c.isNamespace name = true ↔ name ≠ "" ∧ ∃ id, c.Has id ∧
    (c.symbol id).kind.isConstructed = false ∧ name ∈ enclosingNames (c.symbol id).namespaceName
  constructed_iff : ∀ kind id, c.constructed.lookup kind = some id ↔
    kind.isConstructed = true ∧ c.Has id ∧ (c.symbol id).kind = kind

theorem named_addType_iff {s : TypeSymbol} {name : String} {id : TypeId} :
    (c.addType s).Named name id ↔
      c.Named name id ∨ id = c.nextId ∧ s.kind.isConstructed = false ∧ s.metadataName = name :=
  has_and_addType_iff (P := fun s => s.kind.isConstructed = false ∧ s.metadataName = name)

/-- The first type of a name keeps it. -/
theorem byMetadataName?_addType (c : Compilation) (s : TypeSymbol) (name : String) :
    (c.addType s).byMetadataName? name = (c.byMetadataName? name).or
      (if s.kind.isConstructed = false ∧ s.metadataName = name then some c.nextId else none) := by
  have hlist : (c.addType s).byMetadataName? name =
      (if !s.kind.isConstructed && (c.byMetadataName? s.metadataName).isNone then
        (s.metadataName, c.nextId) :: c.byMetadataName else c.byMetadataName).lookup name := rfl
  rw [hlist]
  cases hk : s.kind.isConstructed with
  | true => simp [byMetadataName?]
  | false =>
    by_cases hname : s.metadataName = name
    · subst hname
      cases hold : c.byMetadataName? s.metadataName with
      | none => simp
      | some id =>
        rw [Option.isNone_some, Bool.and_false, if_neg (by simp), Option.some_or]
        exact hold
    · have hne : (name == s.metadataName) = false := by simpa using Ne.symm hname
      simp only [Bool.not_false, Bool.true_and, hname, and_false, if_false, Option.or_none]
      split
      · rw [List.lookup_cons, hne]
        rfl
      · rfl

theorem entry_addType (h : Indexed c) (s : TypeSymbol) (name : String) :
    (c.addType s).NameEntry name ((c.addType s).byMetadataName? name) := by
  have hold := h.entry name
  rw [byMetadataName?_addType]
  cases hname : c.byMetadataName? name with
  | some id =>
    rw [hname] at hold
    obtain ⟨hid, hfirst⟩ := hold
    refine ⟨named_addType_iff.2 (.inl hid), fun other hother => ?_⟩
    obtain hother | ⟨rfl, -⟩ := named_addType_iff.1 hother
    · exact hfirst other hother
    · exact Nat.le_of_lt hid.1
  | none =>
    rw [hname] at hold
    rw [Option.none_or]
    split
    case isTrue hnew =>
      refine ⟨named_addType_iff.2 (.inr ⟨rfl, hnew⟩), fun other hother => ?_⟩
      obtain hother | ⟨rfl, -⟩ := named_addType_iff.1 hother
      · exact absurd hother (hold other)
      · exact Nat.le_refl _
    case isFalse hnew =>
      intro id hid
      obtain hid | ⟨-, hnew'⟩ := named_addType_iff.1 hid
      · exact hold id hid
      · exact hnew hnew'

theorem isNamespace_addType_iff {s : TypeSymbol} {name : String} :
    (c.addType s).isNamespace name = true ↔ c.isNamespace name = true ∨
      name ≠ "" ∧ s.kind.isConstructed = false ∧ name ∈ enclosingNames s.namespaceName := by
  have hlist : (c.addType s).namespaces = if !s.kind.isConstructed then
      ((enclosingNames s.namespaceName).filter fun name => !name.isEmpty && !c.isNamespace name) ++
        c.namespaces else c.namespaces := rfl
  have hcontains : c.isNamespace name = true ↔ name ∈ c.namespaces := List.contains_iff_mem
  rw [isNamespace, List.contains_iff_mem, hlist, hcontains]
  cases s.kind.isConstructed with
  | true => simp
  | false =>
    simp only [Bool.not_false, if_true, List.mem_append, List.mem_filter, Bool.and_eq_true,
      Bool.not_eq_true', String.isEmpty_eq_false_iff]
    constructor
    · rintro (⟨hmem, hne, -⟩ | hold)
      · exact .inr ⟨hne, trivial, hmem⟩
      · exact .inl hold
    · rintro (hold | ⟨hne, -, hmem⟩)
      · exact .inr hold
      · by_cases hold : name ∈ c.namespaces
        · exact .inr hold
        · refine .inl ⟨hmem, hne, Bool.eq_false_iff.2 fun hn => hold (hcontains.1 hn)⟩

namespace Indexed

theorem empty : Indexed {} where
  entry name id hid := by simpa [Has] using hid.1
  isNamespace_iff name := by simp [isNamespace, Has]
  constructed_iff kind id := by simp [Has]

/-- The indexes stay right with one more type, as long as an array or nullable type is not added twice. -/
theorem addType (h : Indexed c) {s : TypeSymbol}
    (hnew : s.kind.isConstructed = true → c.constructed.lookup s.kind = none) : Indexed (c.addType s) where
  entry := entry_addType h s
  isNamespace_iff name := by
    rw [isNamespace_addType_iff, h.isNamespace_iff, ← and_or_left]
    refine and_congr_right fun _ => ?_
    simp only [has_and_addType_iff (P := fun s => s.kind.isConstructed = false ∧
      name ∈ enclosingNames s.namespaceName), exists_or, exists_eq_left]
  constructed_iff kind id := by
    have hold := h.constructed_iff kind id
    have hlist : (c.addType s).constructed =
        if !s.kind.isConstructed then c.constructed else (s.kind, c.nextId) :: c.constructed := rfl
    rw [has_and_addType_iff (P := fun s => s.kind = kind), hlist]
    cases hk : s.kind.isConstructed with
    | false =>
      rw [Bool.not_false, if_pos rfl, hold]
      refine and_congr_right fun hkind => (or_iff_left ?_).symm
      rintro ⟨-, rfl⟩
      rw [hk] at hkind
      cases hkind
    | true =>
      rw [Bool.not_true, if_neg (by simp), List.lookup_cons]
      by_cases hkind : kind = s.kind
      · -- no type was of this kind before
        subst hkind
        rw [hnew hk] at hold
        have hnone : ¬ (c.Has id ∧ (c.symbol id).kind = s.kind) := fun hid => nomatch hold.2 ⟨hk, hid⟩
        rw [beq_self_eq_true, Option.some.injEq, or_iff_right hnone]
        exact ⟨fun h => ⟨hk, h.symm, rfl⟩, fun h => h.2.1.symm⟩
      · have hne : (kind == s.kind) = false := by simpa using hkind
        rw [hne]
        refine hold.trans (and_congr_right fun _ => (or_iff_left ?_).symm)
        exact fun h => hkind h.2.symm

/-- A type may change in all but its name and kind. -/
theorem modifyType (h : Indexed c) (id : TypeId) {f : TypeSymbol → TypeSymbol}
    (hkind : ∀ s, (f s).kind = s.kind) (hname : ∀ s, (f s).name = s.name)
    (hspace : ∀ s, (f s).namespaceName = s.namespaceName) : Indexed (c.modifyType id f) := by
  have hkind' := symbol_modifyType_eq (c := c) (g := TypeSymbol.kind) hkind id
  have hspace' := symbol_modifyType_eq (c := c) (g := TypeSymbol.namespaceName) hspace id
  have hmetadata := symbol_modifyType_eq (c := c) (f := f) (g := TypeSymbol.metadataName)
    (fun s => by simp [TypeSymbol.metadataName, hname, hspace]) id
  have hnamed (name : String) (other : TypeId) : (c.modifyType id f).Named name other ↔ c.Named name other := by
    simp only [Named, has_modifyType, hkind', hmetadata]
  refine ⟨fun name => ?_, fun name => ?_, fun kind other => ?_⟩
  · have hold := h.entry name
    have hsame : (c.modifyType id f).byMetadataName? name = c.byMetadataName? name := rfl
    rw [hsame]
    cases hn : c.byMetadataName? name with
    | none =>
      rw [hn] at hold
      exact fun other hother => hold other ((hnamed name other).1 hother)
    | some first =>
      rw [hn] at hold
      exact ⟨(hnamed name first).2 hold.1, fun other hother => hold.2 other ((hnamed name other).1 hother)⟩
  · simp only [has_modifyType, hkind', hspace']
    exact h.isNamespace_iff name
  · simp only [has_modifyType, hkind']
    exact h.constructed_iff kind other

/-- The names in the index lead to types. -/
theorem knows_byMetadataName? (h : Indexed c) (name : String) : c.Knows (c.byMetadataName? name) := by
  intro id hid
  have hentry := h.entry name
  rw [hid] at hentry
  exact hentry.1.1

theorem knows_constructed (h : Indexed c) (kind : SymbolKind) : c.Knows (c.constructed.lookup kind) :=
  fun id hid => ((h.constructed_iff kind id).1 hid).2.1

end Indexed

end Compilation

end CultureLint
