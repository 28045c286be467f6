import CultureLint.Binding.Scope
import CultureLint.Proofs.Symbol.Index
import CultureLint.Symbol.Conversion
import Mathlib.Data.List.Nodup
import Mathlib.Data.List.Perm.Subperm

/-! What stays true of a compilation while types are added to it. A type that a compilation has keeps
its number and its symbol, and all that a symbol mentions is a type of the same compilation. So what is
found out about a type early still holds at the end, such as whether its values become objects. -/

namespace CultureLint

/-- The types that a member mentions, the one it belongs to among them. -/
def Member.types : Member → List (Option TypeId)
  | .method m => some m.containing :: m.returns :: (m.parameters.map (·.type) ++ m.attributes)
  | .property v | .field v => [some v.containing, v.type]

namespace Compilation

variable {c d e : Compilation}

/-! ### Coherence -/

/-- All that a symbol mentions is a type of the compilation, and what it lists as interfaces are
interfaces. Only `object` itself plays the role of `object`, and it is a class. What a document declares plays no
special role and is built from nothing. -/
structure Closed (c : Compilation) (s : TypeSymbol) : Prop where
  base : c.Knows s.base
  interfaces : ∀ i ∈ s.interfaces, (c.symbol i).kind = .interfaceType
  members : ∀ m ∈ s.members, ∀ t ∈ m.types, c.Knows t
  element : ∀ id, s.kind = .array id ∨ s.kind = .nullable id → c.Has id
  object : s.special = some .object → s.kind = .classType
  declared : s.fromSource = true → s.special = none ∧ s.kind.isConstructed = false

/-- What a type of the kind is built from was there before the number. -/
def Precedes (kind : SymbolKind) (id : TypeId) : Prop :=
  ∀ part, kind = .array part ∨ kind = .nullable part → part.index < id.index

/-- The types that others come from by their kind alone. -/
def IsRoot (c : Compilation) (id : TypeId) : Prop :=
  c.special? .object = some id ∨ c.special? .valueType = some id ∨ c.special? .array = some id

/-- No method makes text by anything that is handed to it, and the base type is one of the roots. -/
structure Simple (c : Compilation) (s : TypeSymbol) : Prop where
  members : ∀ method, .method method ∈ s.members → method.name = "ToString" → method.parameters = []
  base : ∀ id, s.base = some id → c.IsRoot id

/-- The symbols mention only types of the compilation, and the indexes lead to the types they name. An array
or nullable type comes behind the type it is built from, and where there are strings there are objects. -/
structure Coherent (c : Compilation) : Prop where
  closed : ∀ id, c.Closed (c.symbol id)
  precedes : ∀ id, Precedes (c.symbol id).kind id
  simple : ∀ id, (c.symbol id).kind.isConstructed = true ∨ c.IsRoot id → c.Simple (c.symbol id)
  special?_iff : ∀ s id, c.special? s = some id ↔ (c.symbol id).special = some s
  hasObject : (c.special? .string).isSome = true → (c.special? .object).isSome = true
  indexed : Indexed c

theorem Coherent.named (h : Coherent c) (name : String) : c.Knows (c.byMetadataName? name) :=
  h.indexed.knows_byMetadataName? name

theorem Coherent.knows_special? (h : Coherent c) (s : SpecialType) : c.Knows (c.special? s) :=
  fun id hid => has_of_special ((h.special?_iff s id).1 hid)

theorem closed_of_not_has {id : TypeId} (h : ¬ c.Has id) : c.Closed (c.symbol id) := by
  rw [symbol_of_not_has h]
  exact ⟨c.knows_none, by simp, by simp, by simp, by simp, by simp⟩

/-- The members of a name are members of a type of the base chain. -/
theorem mem_membersNamed_iff {id : TypeId} {name : String} {found : MemberRef × Member} :
    found ∈ c.membersNamed id name ↔ ∃ owner ∈ c.baseChain id, found.1.type = owner ∧
      (c.symbol owner).members[found.1.index]? = some found.2 ∧ found.2.name = name := by
  obtain ⟨⟨type, index⟩, m⟩ := found
  simp only [membersNamed, ownMembersNamed, List.mem_flatMap, List.mem_map, List.mem_filter,
    Prod.mk.injEq, MemberRef.mk.injEq, Prod.exists]
  constructor
  · rintro ⟨owner, ho, m', index', ⟨hm, hname⟩, ⟨rfl, rfl⟩, rfl⟩
    exact ⟨owner, ho, rfl, (List.mem_zipIdx_iff_getElem?.1 hm), by simpa using hname⟩
  · rintro ⟨owner, ho, rfl, hm, hname⟩
    exact ⟨_, ho, m, index, ⟨List.mem_zipIdx_iff_getElem?.2 hm, by simpa using hname⟩, ⟨rfl, rfl⟩, rfl⟩

/-- A member of a name belongs to a type of the compilation. -/
theorem has_of_mem_membersNamed {id : TypeId} {name : String} {found : MemberRef × Member}
    (hf : found ∈ c.membersNamed id name) : c.Has found.1.type := by
  obtain ⟨owner, _, rfl, hm, _⟩ := mem_membersNamed_iff.1 hf
  exact has_of_mem_members (List.mem_of_getElem? hm)

theorem Coherent.knows_of_mem_membersNamed (h : Coherent c) {id : TypeId} {name : String}
    {found : MemberRef × Member} (hf : found ∈ c.membersNamed id name) :
    ∀ t ∈ found.2.types, c.Knows t := by
  obtain ⟨owner, _, _, hm, _⟩ := mem_membersNamed_iff.1 hf
  exact (h.closed owner).members found.2 (List.mem_of_getElem? hm)

/-! ### More types -/

/-- The types of one compilation are types of another, of the same kinds and from where they were. -/
structure Within (c d : Compilation) : Prop where
  size_le : c.types.size ≤ d.types.size
  kind_eq : ∀ id, c.Has id → (d.symbol id).kind = (c.symbol id).kind
  fromSource_eq : ∀ id, c.Has id → (d.symbol id).fromSource = (c.symbol id).fromSource

/-- One compilation comes from another by arrays and nullable types, which no name leads to. -/
structure Grows (c d : Compilation) : Prop where
  size_le : c.types.size ≤ d.types.size
  symbol_eq : ∀ id, c.Has id → d.symbol id = c.symbol id
  constructed : ∀ id, ¬ c.Has id → d.Has id → (d.symbol id).kind.isConstructed = true
  special_eq : d.special = c.special
  named_eq : d.byMetadataName = c.byMetadataName
  namespaces_eq : d.namespaces = c.namespaces

theorem Within.refl (c : Compilation) : Within c c := ⟨Nat.le_refl _, fun _ _ => rfl, fun _ _ => rfl⟩

theorem Within.has (h : Within c d) {id : TypeId} (hid : c.Has id) : d.Has id :=
  Nat.lt_of_lt_of_le hid h.size_le

theorem Within.knows (h : Within c d) {t : Option TypeId} (ht : c.Knows t) : d.Knows t :=
  fun id hid => h.has (ht id hid)

theorem Within.trans (h : Within c d) (h' : Within d e) : Within c e :=
  ⟨Nat.le_trans h.size_le h'.size_le, fun id hid => (h'.kind_eq id (h.has hid)).trans (h.kind_eq id hid),
    fun id hid => (h'.fromSource_eq id (h.has hid)).trans (h.fromSource_eq id hid)⟩

theorem Within.closed (h : Within c d) {s : TypeSymbol} (hs : c.Closed s) : d.Closed s where
  base := h.knows hs.base
  interfaces i hi := by
    have hk := hs.interfaces i hi
    rw [h.kind_eq i (has_of_kind (by simp [hk])), hk]
  members m hm t ht := h.knows (hs.members m hm t ht)
  element id hid := h.has (hs.element id hid)
  object := hs.object
  declared := hs.declared

namespace Grows

theorem within (h : Grows c d) : Within c d :=
  ⟨h.size_le, fun id hid => congrArg _ (h.symbol_eq id hid), fun id hid => congrArg _ (h.symbol_eq id hid)⟩

theorem refl (c : Compilation) : Grows c c :=
  ⟨Nat.le_refl _, fun _ _ => rfl, fun _ h h' => absurd h' h, rfl, rfl, rfl⟩

theorem trans (h : Grows c d) (h' : Grows d e) : Grows c e where
  size_le := Nat.le_trans h.size_le h'.size_le
  symbol_eq id hid := (h'.symbol_eq id (h.within.has hid)).trans (h.symbol_eq id hid)
  constructed id hc he := by
    by_cases hd : d.Has id
    · rw [h'.symbol_eq id hd]
      exact h.constructed id hc hd
    · exact h'.constructed id hd he
  special_eq := h'.special_eq.trans h.special_eq
  named_eq := h'.named_eq.trans h.named_eq
  namespaces_eq := h'.namespaces_eq.trans h.namespaces_eq

theorem special?_eq (h : Grows c d) (s : SpecialType) : d.special? s = c.special? s := by
  rw [special?, special?, h.special_eq]

end Grows

/-! ### One more type -/

theorem within_addType (c : Compilation) (s : TypeSymbol) : Within c (c.addType s) :=
  ⟨by simp [addType], fun _ h => congrArg _ (symbol_addType_of_has s h),
    fun _ h => congrArg _ (symbol_addType_of_has s h)⟩

/-- A type that plays no special role leaves the roles as they are. -/
theorem special_addType {s : TypeSymbol} (hs : s.special = none) (id : TypeId) :
    ((c.addType s).symbol id).special = (c.symbol id).special := by
  by_cases hid : (c.addType s).Has id
  · obtain hc | rfl := (has_addType_iff s).1 hid
    · rw [symbol_addType_of_has s hc]
    · rw [symbol_addType_nextId, symbol_of_not_has c.not_has_nextId, hs]
  · rw [symbol_of_not_has hid, symbol_of_not_has fun hc => hid ((within_addType c s).has hc)]

theorem closed_addType (h : Coherent c) {s : TypeSymbol} (hs : (c.addType s).Closed s) (id : TypeId) :
    (c.addType s).Closed ((c.addType s).symbol id) := by
  by_cases hid : (c.addType s).Has id
  · obtain hc | rfl := (has_addType_iff s).1 hid
    · rw [symbol_addType_of_has s hc]
      exact (within_addType c s).closed (h.closed id)
    · rw [symbol_addType_nextId]
      exact hs
  · exact closed_of_not_has hid

theorem precedes_of_isConstructed {kind : SymbolKind} (h : kind.isConstructed = false) (id : TypeId) :
    Precedes kind id := by
  rintro part (rfl | rfl) <;> cases h

theorem precedes_addType (h : Coherent c) {s : TypeSymbol} (hs : Precedes s.kind c.nextId) (id : TypeId) :
    Precedes ((c.addType s).symbol id).kind id := by
  by_cases hid : (c.addType s).Has id
  · obtain hc | rfl := (has_addType_iff s).1 hid
    · rw [symbol_addType_of_has s hc]
      exact h.precedes id
    · rw [symbol_addType_nextId]
      exact hs
  · rw [symbol_of_not_has hid]
    exact precedes_of_isConstructed rfl id

theorem special?_addType {s : TypeSymbol} (hs : s.special = none) (special : SpecialType) :
    (c.addType s).special? special = c.special? special := by
  simp [special?, addType, hs]

theorem isRoot_addType {s : TypeSymbol} (hs : s.special = none) (id : TypeId) :
    (c.addType s).IsRoot id ↔ c.IsRoot id := by simp only [IsRoot, special?_addType hs]

theorem Simple.addType {s t : TypeSymbol} (hs : s.special = none) (h : c.Simple t) : (c.addType s).Simple t :=
  ⟨h.members, fun id hid => (isRoot_addType hs id).2 (h.base id hid)⟩

theorem Coherent.has_of_isRoot (h : Coherent c) {id : TypeId} (hid : c.IsRoot id) : c.Has id := by
  obtain hid | hid | hid := hid <;> exact h.knows_special? _ id hid

theorem simple_addType (h : Coherent c) {s : TypeSymbol} (hspecial : s.special = none)
    (hs : s.kind.isConstructed = true → c.Simple s) (id : TypeId)
    (hid : ((c.addType s).symbol id).kind.isConstructed = true ∨ (c.addType s).IsRoot id) :
    (c.addType s).Simple ((c.addType s).symbol id) := by
  rw [isRoot_addType hspecial] at hid
  by_cases hc : c.Has id
  · rw [symbol_addType_of_has s hc] at hid ⊢
    exact (h.simple id hid).addType hspecial
  · obtain hid | hid := hid
    · obtain rfl : id = c.nextId := ((has_addType_iff s).1 (has_of_kind fun hk => by
        rw [hk] at hid
        cases hid)).resolve_left hc
      rw [symbol_addType_nextId] at hid ⊢
      exact (hs hid).addType hspecial
    · exact absurd (h.has_of_isRoot hid) hc

theorem Coherent.addType (h : Coherent c) {s : TypeSymbol} (hspecial : s.special = none)
    (hnew : s.kind.isConstructed = true → c.constructed.lookup s.kind = none)
    (hs : (c.addType s).Closed s) (hover : Precedes s.kind c.nextId)
    (hsimple : s.kind.isConstructed = true → c.Simple s) : Coherent (c.addType s) where
  closed := closed_addType h hs
  precedes := precedes_addType h hover
  simple := simple_addType h hspecial hsimple
  special?_iff special id := by
    rw [special?_addType hspecial, h.special?_iff, special_addType hspecial]
  hasObject := by
    rw [special?_addType hspecial, special?_addType hspecial]
    exact h.hasObject
  indexed := h.indexed.addType hnew

/-! ### Arrays and nullable types -/

/-- Adding a type that is built from another one. -/
theorem grows_addType {s : TypeSymbol} (hspecial : s.special = none)
    (hkind : s.kind.isConstructed = true) : Grows c (c.addType s) where
  size_le := (within_addType c s).size_le
  symbol_eq _ h := symbol_addType_of_has s h
  constructed id hc hid := by
    obtain rfl := ((has_addType_iff s).1 hid).resolve_left hc
    rwa [symbol_addType_nextId]
  special_eq := by simp [addType, hspecial]
  named_eq := by simp [addType, hkind]
  namespaces_eq := by simp [addType, hkind]

/-- What the step to a compilation with a given type keeps. -/
structure Makes (c : Compilation) (made : Option TypeId × Compilation) : Prop where
  grows : Grows c made.2
  coherent : Coherent made.2
  knows : made.2.Knows made.1

theorem Makes.same (h : Coherent c) {t : Option TypeId} (ht : c.Knows t) : Makes c (t, c) :=
  ⟨.refl c, h, ht⟩

theorem makes_construct (h : Coherent c) (kind : SymbolKind) (create : TypeId → TypeSymbol)
    (hspecial : (create c.nextId).special = none) (hcreate : (create c.nextId).kind = kind)
    (hkind : kind.isConstructed = true)
    (hclosed : (c.addType (create c.nextId)).Closed (create c.nextId))
    (hover : Precedes kind c.nextId) (hsimple : c.Simple (create c.nextId)) :
    Makes c ((c.construct kind create).map some id) := by
  rw [construct]
  split
  case h_1 id hid =>
    exact .same h (knows_some.2 (h.indexed.knows_constructed kind id hid))
  case h_2 hnew =>
    exact ⟨grows_addType hspecial (hcreate ▸ hkind), h.addType hspecial (fun _ => hcreate.symm ▸ hnew) hclosed
      (hcreate.symm ▸ hover) fun _ => hsimple, knows_some.2 (has_nextId_addType c _)⟩

theorem makes_arrayOf (h : Coherent c) {element : TypeId} (he : c.Has element) :
    Makes c ((c.arrayOf element).map some id) := by
  refine makes_construct h _ _ rfl rfl rfl ⟨?_, by simp, by simp, ?_, by simp, by simp⟩ ?_ ⟨by simp, ?_⟩
  · exact (within_addType ..).knows (h.knows_special? .array)
  · rintro id (hid | hid) <;> cases hid
    exact (within_addType ..).has he
  · rintro id (hid | hid) <;> cases hid
    exact he
  · exact fun id hid => .inr (.inr hid)

theorem knows_nullableMembers (h : Coherent c) (hw : Within c d) {id underlying : TypeId} (hid : d.Has id)
    (hu : c.Has underlying) : ∀ m ∈ c.nullableMembers id underlying, ∀ t ∈ m.types, d.Knows t := by
  have hs := hw.knows (h.knows_special? .string)
  have hb := hw.knows (h.knows_special? .boolean)
  have hu' := knows_some.2 (hw.has hu)
  have hid' := knows_some.2 hid
  simp only [nullableMembers]
  split
  case h_1 hs' hb' =>
    rw [hs'] at hs
    rw [hb'] at hb
    simp [Member.types, hs, hb, hu', hid']
  case h_2 => simp [Member.types, hu', hid']

theorem parameters_nullableMembers (c : Compilation) (id underlying : TypeId) {method : MethodSymbol}
    (hm : .method method ∈ c.nullableMembers id underlying) : method.parameters = [] := by
  simp only [nullableMembers] at hm
  split at hm
  all_goals
    simp only [List.cons_append, List.nil_append, List.mem_cons, Member.method.injEq, reduceCtorEq,
      List.not_mem_nil, or_false, false_or] at hm
    grind

theorem makes_nullableOf (h : Coherent c) {underlying : TypeId} (hu : c.Has underlying) :
    Makes c ((c.nullableOf underlying).map some id) := by
  refine makes_construct h _ _ rfl rfl rfl ⟨?_, by simp, ?_, ?_, by simp, by simp⟩ ?_ ⟨?_, ?_⟩
  · exact (within_addType ..).knows (h.knows_special? .valueType)
  · exact knows_nullableMembers h (within_addType ..) (has_nextId_addType ..) hu
  · rintro id (hid | hid) <;> cases hid
    exact (within_addType ..).has hu
  · rintro id (hid | hid) <;> cases hid
    exact hu
  · exact fun method hm _ => c.parameters_nullableMembers _ _ hm
  · exact fun id hid => .inr (.inl hid)

end Compilation

/-! ### Written types -/

namespace Scope

open Compilation

variable {c : Compilation}

theorem knows_of_lookupDotted (h : Coherent c) {dotted : String} {id : TypeId}
    (hd : lookupDotted c dotted = some (.type id)) : c.Has id := by
  rw [lookupDotted] at hd
  split at hd
  case h_1 found hf =>
    cases hd
    exact h.named _ _ hf
  case h_2 => simp at hd

theorem knows_typeIn? (h : Coherent c) (namespaces : List String) (name : String) :
    c.Knows (typeIn? c namespaces name) := by
  intro id hid
  obtain ⟨space, _, hs⟩ := List.exists_of_findSome?_eq_some hid
  exact h.named _ _ hs

theorem knows_of_resolveName (h : Coherent c) (scope : Scope) {name : String} {id : TypeId}
    (hn : scope.resolveName c name = some (.type id)) : c.Has id := by
  rw [resolveName] at hn
  split at hn
  case h_1 found hf =>
    cases hn
    exact knows_typeIn? h _ _ _ hf
  case h_2 =>
    split at hn
    · exact knows_of_lookupDotted h hn
    · split at hn
      case h_1 found hf =>
        cases hn
        exact knows_typeIn? h _ _ _ hf
      case h_2 => simp at hn

theorem knows_of_foldlM_resolveMember (h : Coherent c) (parts : List Ident) {head : NameTarget}
    {id : TypeId} (hh : ∀ id, head = .type id → c.Has id)
    (hp : parts.foldlM (fun target part => resolveMember c target part.name) head = some (.type id)) :
    c.Has id := by
  induction parts generalizing head with
  | nil => exact hh id (Option.some.inj hp)
  | cons part parts ih =>
    rw [List.foldlM_cons] at hp
    obtain ⟨next, hn, hp⟩ := Option.bind_eq_some_iff.1 hp
    refine ih (fun id hid => ?_) hp
    subst hid
    cases head with
    | type => cases hn
    | namespaceName space => exact knows_of_lookupDotted h hn

theorem knows_resolveTypeName (h : Coherent c) (scope : Scope) (name : QualifiedName) :
    c.Knows (scope.resolveTypeName c name) := by
  intro id hid
  rw [resolveTypeName] at hid
  split at hid
  case h_2 => cases hid
  case h_1 found hf =>
    cases hid
    rw [resolveQualified] at hf
    split at hf
    all_goals
      obtain ⟨head, hh, hf⟩ := Option.bind_eq_some_iff.1 hf
      refine knows_of_foldlM_resolveMember h _ (fun id hid => ?_) hf
      subst hid
    · exact knows_of_lookupDotted h hh
    · exact knows_of_resolveName h _ hh

theorem knows_resolveAttribute (h : Coherent c) (scope : Scope) (name : QualifiedName) :
    c.Knows (scope.resolveAttribute c name) :=
  (knows_resolveTypeName h scope name).or (knows_resolveTypeName h scope _)

/-- A step that makes a type from one that was made before. -/
theorem makes_bind {first : StateM Compilation (Option TypeId)}
    {next : TypeId → StateM Compilation (Option TypeId)} (hf : Makes c (first c))
    (hn : ∀ id d, Coherent d → d.Has id → Makes d (next id d)) :
    Makes c ((do match ← first with
      | none => return none
      | some id => next id : StateM Compilation (Option TypeId)) c) := by
  change Makes c ((match (first c).1 with
    | none => (pure none : StateM Compilation (Option TypeId))
    | some id => next id) (first c).2)
  obtain ⟨hg, hc, hk⟩ := hf
  cases hr : (first c).1 with
  | none => exact ⟨hg, hc, knows_none _⟩
  | some id =>
    rw [hr] at hk
    obtain ⟨hg', hc', hk'⟩ := hn id _ hc (knows_some.1 hk)
    exact ⟨hg.trans hg', hc', hk'⟩

/-- A written type means a type that is known once it is resolved, and all else is left as it was. -/
theorem makes_resolveType (scope : Scope) (h : Coherent c) (type : TypeExpr) :
    Makes c (scope.resolveType type c) := by
  induction type with
  | primitive type => exact .same h (h.knows_special? _)
  | named name => exact .same h (knows_resolveTypeName h scope name)
  | implicit => exact .same h c.knows_none
  | nullable of _ ih =>
    refine makes_bind ih fun id d hd hid => ?_
    change Makes d ((if d.isValueType id then _ else _ : StateM Compilation (Option TypeId)) d)
    split
    · exact makes_nullableOf hd hid
    · exact .same hd (knows_some.2 hid)
  | array of _ ih => exact makes_bind ih fun id d hd hid => makes_arrayOf hd hid

end Scope

/-! ### Base types -/

namespace Compilation

variable {c d : Compilation}

theorem length_le_of_has {types : List TypeId} (hn : types.Nodup) (hh : ∀ t ∈ types, c.Has t) :
    types.length ≤ c.types.size := by
  have hinj : (types.map TypeId.index).Nodup :=
    hn.map fun a b hab => by cases a; cases b; exact congrArg _ hab
  have hsub : types.map TypeId.index ⊆ List.range c.types.size := by
    intro index hi
    obtain ⟨t, ht, rfl⟩ := List.mem_map.1 hi
    exact List.mem_range.2 (hh t ht)
  simpa using (List.subperm_of_subset hinj hsub).length_le

/-- The base types of a type do not depend on the bound once it exceeds the number of types that have
not come yet: no type comes twice. -/
theorem baseChainUpTo_succ (h : Coherent c) (bound : Nat) {seen : List TypeId} {id : TypeId}
    (hnodup : (id :: seen).Nodup) (hh : ∀ t ∈ id :: seen, c.Has t)
    (hb : c.types.size ≤ bound + seen.length) :
    c.baseChainUpTo (bound + 1) seen id = c.baseChainUpTo bound seen id := by
  induction bound generalizing seen id with
  | zero =>
    have := length_le_of_has hnodup hh
    simp only [List.length_cons] at this
    omega
  | succ bound ih =>
    rw [baseChainUpTo, baseChainUpTo]
    refine congrArg _ ?_
    cases hbase : (c.symbol id).base with
    | none => rfl
    | some base =>
      by_cases hcycle : base = id ∨ base ∈ seen
      · simp [hcycle]
      · simp only [if_neg hcycle]
        have hbn : (base :: id :: seen).Nodup := List.nodup_cons.2 ⟨by simpa using hcycle, hnodup⟩
        refine ih hbn ?_ (by simp only [List.length_cons]; omega)
        exact List.forall_mem_cons.2 ⟨(h.closed id).base base hbase, hh⟩

theorem baseChainUpTo_eq_baseChain (h : Coherent c) {id : TypeId} (hid : c.Has id) {bound : Nat}
    (hb : c.types.size + 1 ≤ bound) : c.baseChainUpTo bound [] id = c.baseChain id := by
  obtain ⟨more, rfl⟩ := Nat.exists_eq_add_of_le hb
  induction more with
  | zero => rfl
  | succ more ih =>
    rw [← ih (by omega), ← Nat.add_assoc]
    exact baseChainUpTo_succ h _ (by simp) (by simpa using hid) (by simp; omega)

theorem Grows.baseChainUpTo_eq (g : Grows c d) (h : Coherent c) (bound : Nat) (seen : List TypeId)
    {id : TypeId} (hid : c.Has id) : d.baseChainUpTo bound seen id = c.baseChainUpTo bound seen id := by
  induction bound generalizing seen id with
  | zero => rfl
  | succ bound ih =>
    rw [baseChainUpTo, baseChainUpTo, g.symbol_eq id hid]
    refine congrArg _ ?_
    cases hbase : (c.symbol id).base with
    | none => rfl
    | some base => simp only [ih _ ((h.closed id).base base hbase)]

/-- A type has the same base types later on. -/
theorem Grows.baseChain_eq (g : Grows c d) (h : Coherent c) {id : TypeId} (hid : c.Has id) :
    d.baseChain id = c.baseChain id := by
  rw [baseChain, g.baseChainUpTo_eq h _ _ hid]
  exact baseChainUpTo_eq_baseChain h hid (Nat.succ_le_succ g.size_le)

/-! ### Values as objects -/

theorem closeInterfaces_kind (h : Coherent c) (bound : Nat) {found pending : List TypeId}
    (hf : ∀ t ∈ found, (c.symbol t).kind = .interfaceType)
    (hp : ∀ t ∈ pending, (c.symbol t).kind = .interfaceType) :
    ∀ t ∈ c.closeInterfaces bound found pending, (c.symbol t).kind = .interfaceType := by
  induction bound generalizing found pending with
  | zero => exact hf
  | succ bound ih =>
    cases pending with
    | nil => exact hf
    | cons id pending =>
      obtain ⟨hid, hp⟩ := List.forall_mem_cons.1 hp
      rw [closeInterfaces]
      split
      · exact ih hf hp
      · refine ih ?_ ?_
        · simpa [or_imp, forall_and, hid] using hf
        · simp only [List.mem_append, List.mem_reverse]
          exact fun t ht => ht.elim ((h.closed id).interfaces t) (hp t)

theorem kind_of_mem_allInterfaces (h : Coherent c) {id t : TypeId} (ht : t ∈ c.allInterfaces id) :
    (c.symbol t).kind = .interfaceType := by
  refine closeInterfaces_kind h _ (by simp) (fun t ht => ?_) t ht
  obtain ⟨owner, _, ht⟩ := List.mem_flatMap.1 (List.mem_reverse.1 ht)
  exact (h.closed owner).interfaces t ht

theorem not_widens_object {source object : TypeId}
    (ho : (c.symbol object).special = some .object) : c.widens source object = false := by
  rw [widens, ho]
  cases (c.symbol source).special with
  | none => rfl
  | some s => cases s <;> rfl

/-- The values that become objects: those of `object`, of the types that inherit from it, and of
interfaces. -/
theorem isConversion_object_iff (h : Coherent c) {source object : TypeId}
    (ho : c.special? .object = some object) :
    (c.convertType source object).isConversion = true ↔
      source = object ∨ object ∈ c.baseChain source ∨ (c.symbol source).kind = .interfaceType := by
  have hs := (h.special?_iff _ _).1 ho
  have hk := (h.closed object).object hs
  have hni : object ∉ c.allInterfaces source := fun hi => by
    have := kind_of_mem_allInterfaces h hi
    simp [hk] at this
  have hinherits : c.inheritsFrom source object = true ↔
      object ∈ c.baseChain source ∨ (c.symbol source).kind = .interfaceType := by
    simp [inheritsFrom, hni, hs]
  rw [convertType, convertTypeUpTo]
  simp only [hk, not_widens_object hs]
  by_cases hid : source = object
  · simp [hid, Conversion.isConversion]
  · by_cases hi : c.inheritsFrom source object = true
    · have := hinherits.1 hi
      simp only [hid, hi, if_true, if_false, false_or, iff_true, this]
      cases c.isValueType source <;> simp [Conversion.isConversion]
    · have := mt hinherits.2 hi
      simpa [hid, hi, Conversion.isConversion] using this

/-- Whether the values of a type become objects is settled once the type is there. -/
theorem Grows.isConversion_object_eq (g : Grows c d) (hc : Coherent c) (hd : Coherent d)
    {source object : TypeId} (hs : c.Has source) (ho : c.special? .object = some object) :
    (d.convertType source object).isConversion = (c.convertType source object).isConversion := by
  rw [Bool.eq_iff_iff, isConversion_object_iff hc ho,
    isConversion_object_iff hd ((g.special?_eq _).trans ho), g.baseChain_eq hc hs,
    g.symbol_eq source hs]

end Compilation

end CultureLint
