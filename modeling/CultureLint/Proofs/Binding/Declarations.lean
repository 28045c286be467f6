import CultureLint.Binding.Declaration
import CultureLint.Proofs.Symbol.Growth
import CultureLint.Symbol.Library
import CultureLint.Tree.Walk

/-! The types of a program stay coherent while its documents declare theirs: from the framework types on,
through every declaration and every signature. -/

namespace CultureLint

namespace Compilation

variable {c d : Compilation} {α β : Type}

/-! ### Changing a type -/

theorem within_modifyType (id : TypeId) {f : TypeSymbol → TypeSymbol}
    (hf : ∀ s, (f s).kind = s.kind) (hsource : ∀ s, (f s).fromSource = s.fromSource) :
    Within c (c.modifyType id f) where
  size_le := by simp [modifyType]
  kind_eq other _ := symbol_modifyType_eq (g := TypeSymbol.kind) hf id other
  fromSource_eq other _ := symbol_modifyType_eq (g := TypeSymbol.fromSource) hsource id other

/-- A type that a document declares may get another base, more interfaces and more members, as long as they are
known. -/
theorem Coherent.modifyType (h : Coherent c) {id : TypeId} (hid : (c.symbol id).fromSource = true)
    {f : TypeSymbol → TypeSymbol} (hkind : ∀ s, (f s).kind = s.kind) (hspecial : ∀ s, (f s).special = s.special)
    (hname : ∀ s, (f s).name = s.name) (hspace : ∀ s, (f s).namespaceName = s.namespaceName)
    (hsource : ∀ s, (f s).fromSource = s.fromSource)
    (hf : c.Has id → c.Closed (f (c.symbol id))) : Coherent (c.modifyType id f) where
  closed other := by
    refine (within_modifyType id hkind hsource).closed ?_
    obtain hsame | ⟨hid, rfl, hnew⟩ := symbol_modifyType c id f other
    · rw [hsame]
      exact h.closed other
    · rw [hnew]
      exact hf hid
  precedes other := by
    rw [symbol_modifyType_eq (g := TypeSymbol.kind) hkind]
    exact h.precedes other
  simple other hother := by
    rw [symbol_modifyType_eq (g := TypeSymbol.kind) hkind] at hother
    obtain ⟨hnone, hplain⟩ := (h.closed id).declared hid
    have hne : other ≠ id := by
      rintro rfl
      obtain hother | hother | hother | hother := hother
      · exact absurd hother (by simp [hplain])
      all_goals
        have hspecial := (h.special?_iff _ _).1 hother
        rw [hnone] at hspecial
        cases hspecial
    obtain hsame | ⟨-, heq, -⟩ := symbol_modifyType c id f other
    · rw [hsame]
      exact ⟨(h.simple other hother).members, (h.simple other hother).base⟩
    · exact absurd heq hne
  special?_iff special other := by
    rw [symbol_modifyType_eq (g := TypeSymbol.special) hspecial]
    exact h.special?_iff special other
  hasObject := h.hasObject
  indexed := h.indexed.modifyType id hkind hname hspace

/-! ### Steps of declaring -/

/-- A step came to other types, none of which is lost. -/
structure Declares (c : Compilation) (r : α × Compilation) (Q : α → Compilation → Prop) : Prop where
  within : Within c r.2
  coherent : Coherent r.2
  post : Q r.1 r.2

namespace Declares

variable {Q : α → Compilation → Prop} {R : β → Compilation → Prop}

theorem pure {a : α} (h : Coherent c) (hq : Q a c) :
    Declares c ((Pure.pure a : StateM Compilation α) c) Q := ⟨.refl c, h, hq⟩

theorem bind {m : StateM Compilation α} {f : α → StateM Compilation β} (hm : Declares c (m c) Q)
    (hf : ∀ a d, Within c d → Coherent d → Q a d → Declares d (f a d) R) :
    Declares c ((m >>= f) c) R :=
  have hf := hf _ _ hm.within hm.coherent hm.post
  ⟨hm.within.trans hf.within, hf.coherent, hf.post⟩

/-- A step that only asks leaves the types as they are. -/
theorem ask {m : StateM Compilation α} {f : α → StateM Compilation β} {a : α} (ha : m c = (a, c))
    (hf : Declares c (f a c) R) : Declares c ((m >>= f) c) R := by
  have : (m >>= f) c = f (m c).1 (m c).2 := rfl
  rw [this, ha]
  exact hf

theorem mono {r : α × Compilation} {Q' : α → Compilation → Prop} (h : Declares c r Q)
    (hq : ∀ a d, Within c d → Q a d → Q' a d) : Declares c r Q' :=
  ⟨h.within, h.coherent, hq _ _ h.within h.post⟩

/-- Steps whose results stay as they should be while types are added. -/
theorem mapM {f : α → StateM Compilation β} {xs : List α} (h : Coherent c)
    (hR : ∀ b c d, Within c d → R b c → R b d)
    (hf : ∀ x ∈ xs, ∀ d, Within c d → Coherent d → Declares d (f x d) R) :
    Declares c (xs.mapM f c) fun ys d => ∀ y ∈ ys, R y d := by
  induction xs generalizing c with
  | nil => exact .pure h (by simp)
  | cons x xs ih =>
    obtain ⟨hx, hxs⟩ := List.forall_mem_cons.1 hf
    rw [List.mapM_cons]
    refine .bind (hx c (.refl c) h) fun y d hw hd hy =>
      .bind (ih hd fun x hx e he => hxs x hx e (hw.trans he)) fun ys e he hc hys => ?_
    exact .pure hc (List.forall_mem_cons.2 ⟨hR y d e he hy, hys⟩)

theorem filterMapM {f : α → StateM Compilation (Option β)} {xs : List α} (h : Coherent c)
    (hR : ∀ b c d, Within c d → R b c → R b d)
    (hf : ∀ x ∈ xs, ∀ d, Within c d → Coherent d →
      Declares d (f x d) fun y e => ∀ b, y = some b → R b e) :
    Declares c (xs.filterMapM f c) fun ys d => ∀ y ∈ ys, R y d := by
  induction xs generalizing c with
  | nil => exact .pure h (by simp)
  | cons x xs ih =>
    obtain ⟨hx, hxs⟩ := List.forall_mem_cons.1 hf
    rw [List.filterMapM_cons]
    refine .bind (hx c (.refl c) h) fun y d hw hd hy => ?_
    have hrest := ih hd fun x hx e he => hxs x hx e (hw.trans he)
    cases y with
    | none => exact hrest
    | some b =>
      refine .bind hrest fun ys e he hc hys => ?_
      exact .pure hc (List.forall_mem_cons.2 ⟨hR b d e he (hy b rfl), hys⟩)

theorem forM {f : α → StateM Compilation Unit} {xs : List α} (h : Coherent c)
    (hf : ∀ x ∈ xs, ∀ d, Within c d → Coherent d → Declares d (f x d) fun _ _ => True) :
    Declares c (xs.forM f c) fun _ _ => True := by
  induction xs generalizing c with
  | nil => exact .pure h trivial
  | cons x xs ih =>
    obtain ⟨hx, hxs⟩ := List.forall_mem_cons.1 hf
    exact .bind (hx c (.refl c) h) fun _ d hw hd _ => ih hd fun x hx e he => hxs x hx e (hw.trans he)

end Declares

theorem declares_resolveType (scope : Scope) (h : Coherent c) (type : TypeExpr) :
    Declares c (scope.resolveType type c) fun t d => d.Knows t := by
  obtain ⟨hg, hc, hk⟩ := Scope.makes_resolveType scope h type
  exact ⟨hg.within, hc, hk⟩

/-! ### Declarations -/

theorem declares_declareType (namespaceName : String) (decl : TypeDecl) (h : Coherent c) :
    Declares c (declareType namespaceName decl c) fun t d => d.Has t ∧ (d.symbol t).fromSource = true := by
  let symbol : TypeSymbol :=
    { namespaceName, name := decl.name.name, kind := decl.form.kind, fromSource := true }
  have hplain : symbol.kind.isConstructed = false := by
    cases hf : decl.form <;> simp [symbol, TypeForm.kind, hf, SymbolKind.isConstructed]
  have hclosed (d : Compilation) : d.Closed symbol := by
    refine ⟨d.knows_none, by simp [symbol], by simp [symbol], fun id hid => ?_, by simp [symbol],
      fun _ => ⟨rfl, hplain⟩⟩
    rcases hid with hid | hid <;> simp [hid, SymbolKind.isConstructed] at hplain
  rw [declareType]
  refine .ask (a := c) rfl ?_
  cases hp : c.partialOf? decl symbol.metadataName with
  | some id =>
    refine .pure h ?_
    rw [partialOf?] at hp
    split at hp
    · obtain ⟨hid, hsource⟩ := Option.filter_eq_some_iff.1 hp
      exact ⟨h.named _ id hid, hsource⟩
    · cases hp
  | none =>
    have hnot : symbol.kind.isConstructed ≠ true := by simp [hplain]
    refine ⟨within_addType c symbol, h.addType rfl (fun hkind => absurd hkind hnot) (hclosed _)
      (precedes_of_isConstructed hplain _) fun hkind => absurd hkind hnot, has_nextId_addType c symbol, ?_⟩
    exact congrArg TypeSymbol.fromSource (symbol_addType_nextId c symbol)

/-- What is asked of a declared type: it is known as one of a document, and its declaration stands in that
document. -/
structure Declared (document : Nat) (visited : List (Expr × Nat)) (declared : DeclaredType)
    (c : Compilation) : Prop where
  document : declared.document = document
  type : c.Has declared.type
  fromSource : (c.symbol declared.type).fromSource = true
  visited : declared.decl.members.flatMap MemberDecl.walk ⊆ visited

theorem Declared.mono {document : Nat} {v w : List (Expr × Nat)} {declared : DeclaredType}
    (h : Declared document v declared c) (hvw : v ⊆ w) (hw : Within c d) :
    Declared document w declared d :=
  ⟨h.document, hw.has h.type, (hw.fromSource_eq _ h.type).trans h.fromSource, fun _ hp => hvw (h.visited hp)⟩

mutual

theorem declares_declareMember (document : Nat) (scope : Scope) (member : NamespaceMember)
    (c : Compilation) (h : Coherent c) :
    Declares c (declareMember document scope member c)
      fun ds d => ∀ x ∈ ds, Declared document member.walk x d := by
  match member with
  | .namespaceDecl name _ usings members _ =>
    rw [declareMember, NamespaceMember.walk]
    exact declares_declareMembers document _ members c h
  | .typeDecl decl =>
    rw [declareMember, NamespaceMember.walk]
    refine .bind (declares_declareType _ decl h) fun type d _ hd hk => .pure hd ?_
    simp only [List.mem_singleton, forall_eq]
    exact ⟨rfl, hk.1, hk.2, fun _ hp => hp⟩

theorem declares_declareMembers (document : Nat) (scope : Scope) (members : List NamespaceMember)
    (c : Compilation) (h : Coherent c) :
    Declares c (declareMembers document scope members c)
      fun ds d => ∀ x ∈ ds, Declared document (NamespaceMember.walkAll members) x d := by
  match members with
  | [] => exact .pure h (by simp)
  | member :: members =>
    rw [declareMembers, NamespaceMember.walkAll]
    refine .bind (declares_declareMember document scope member c h) fun first d _ hd hfirst => ?_
    refine .bind (declares_declareMembers document scope members d hd) fun others e he hc hothers =>
      .pure hc (List.forall_mem_append.2 ⟨fun x hx => ?_, fun x hx => ?_⟩)
    · exact (hfirst x hx).mono (List.subset_append_left ..) he
    · exact (hothers x hx).mono (List.subset_append_right ..) (.refl e)

end

/-! ### Signatures -/

/-- All types that some members mention are known. -/
def KnowsMembers (c : Compilation) (members : List Member) : Prop :=
  ∀ m ∈ members, ∀ t ∈ m.types, c.Knows t

theorem declares_memberSymbols (scope : Scope) {containing : TypeId} (member : MemberDecl)
    (h : Coherent c) (hcontaining : c.Has containing) :
    Declares c (memberSymbols scope containing member c) fun ms d => d.KnowsMembers ms := by
  have known {d : Compilation} (hw : Within c d) : d.Knows (some containing) :=
    knows_some.2 (hw.has hcontaining)
  cases member with
  | field decl =>
    refine .bind (declares_resolveType scope h decl.type) fun type d hw hd ht => .pure hd ?_
    simp [KnowsMembers, Member.types, ht, known hw]
  | property decl =>
    refine .bind (declares_resolveType scope h decl.type) fun type d hw hd ht => .pure hd ?_
    simp [KnowsMembers, Member.types, ht, known hw]
  | method decl =>
    rw [memberSymbols]
    cases decl.returns with
    | none => exact .pure h (by simp [KnowsMembers])
    | some returns =>
      refine .bind (.mapM h (R := fun (p : ParameterSymbol) d => d.Knows p.type) (fun _ _ _ hw hk => hw.knows hk)
        fun p _ c _ hc => ?_) fun parameters d hw hd hp => ?_
      · exact .bind (declares_resolveType scope hc p.type) fun type d _ hd ht => .pure hd ht
      · refine .ask (a := d) rfl (.bind (declares_resolveType scope hd returns) fun type e he hc ht =>
          .pure hc ?_)
        simp only [KnowsMembers, Member.types, List.mem_singleton, forall_eq, List.forall_mem_cons,
          List.forall_mem_append, List.forall_mem_map]
        exact ⟨known (hw.trans he), ht, fun p hm => he.knows (hp p hm),
          fun a _ => he.knows (Scope.knows_resolveAttribute hd scope a.name)⟩

theorem declares_declareSignatures (declared : DeclaredType) (h : Coherent c) (htype : c.Has declared.type)
    (hsource : (c.symbol declared.type).fromSource = true) :
    Declares c (declareSignatures declared c) fun _ _ => True := by
  refine .bind (.filterMapM h (R := fun t d => d.Has t) (fun _ _ _ hw hk => hw.has hk)
    fun t _ c _ hc => (declares_resolveType declared.scope hc t).mono fun _ _ _ hk => hk)
    fun resolved d hw hd hresolved => .ask (a := d) rfl ?_
  rw [List.partition_eq_filter_filter]
  refine .bind (.mapM hd (R := fun ms d => d.KnowsMembers ms)
    (fun ms _ _ hw hk m hm t ht => hw.knows (hk m hm t ht))
    fun m _ e he hc => declares_memberSymbols declared.scope m hc ((hw.trans he).has htype))
    fun members e he hc hmembers => ?_
  have hkept := (he.fromSource_eq _ (hw.has htype)).trans ((hw.fromSource_eq _ htype).trans hsource)
  refine ⟨within_modifyType _ (fun _ => rfl) fun _ => rfl, hc.modifyType hkept (fun _ => rfl) (fun _ => rfl)
    (fun _ => rfl) (fun _ => rfl) (fun _ => rfl) fun _ => ?_, trivial⟩
  have old := hc.closed declared.type
  refine ⟨?_, ?_, ?_, old.element, old.object, old.declared⟩
  · change Knows e (if _ then _ else _)
    split
    · refine Knows.or (fun id hid => ?_) (he.knows ?_)
      · split at hid
        · exact he.has (hresolved id (List.mem_of_mem_filter (List.mem_of_head? hid)))
        · cases hid
      · cases declared.decl.form with
        | classForm | structForm => exact hd.knows_special? _
        | interfaceForm => exact knows_none _
    · exact old.base
  · refine List.forall_mem_append.2 ⟨old.interfaces, fun id hid => ?_⟩
    obtain ⟨hid, hk⟩ := List.mem_filter.1 hid
    rw [he.kind_eq id (hresolved id hid)]
    simpa using hk
  · refine List.forall_mem_append.2 ⟨old.members, fun m hm => ?_⟩
    obtain ⟨ms, hms, hm⟩ := List.mem_flatten.1 hm
    exact hmembers ms hms m hm

/-! ### Programs -/

/-- Whether a symbol mentions only types of the compilation. -/
def closes (c : Compilation) (s : TypeSymbol) : Bool :=
  let has (id : TypeId) : Bool := id.index < c.types.size
  s.base.all has && s.interfaces.all (fun i => (c.symbol i).kind == .interfaceType) &&
    s.members.all (fun m => m.types.all (·.all has)) && !s.kind.isConstructed &&
    (s.special != some .object || s.kind == .classType) && !s.fromSource

theorem closed_of_closes {s : TypeSymbol} (h : c.closes s = true) :
    c.Closed s ∧ s.kind.isConstructed = false := by
  simp only [closes, Bool.and_eq_true, Bool.or_eq_true, Bool.not_eq_true', List.all_eq_true,
    bne_iff_ne, beq_iff_eq, Option.all_eq_true, decide_eq_true_eq] at h
  obtain ⟨⟨⟨⟨⟨hbase, hinterfaces⟩, hmembers⟩, hkind⟩, hobject⟩, hsource⟩ := h
  refine ⟨⟨fun id hid => hbase id hid, hinterfaces, fun m hm t ht id hid => hmembers m hm t ht id hid,
    fun id hid => ?_, fun hs => hobject.resolve_left fun hn => hn hs, fun hs => ?_⟩, hkind⟩
  case refine_2 =>
    rw [hsource] at hs
    cases hs
  rcases hid with hid | hid <;> simp [hid, SymbolKind.isConstructed] at hkind

/-- The types that others come from by their kind alone, as far as there are any. -/
def roots (c : Compilation) : List TypeId :=
  [SpecialType.object, .valueType, .array].filterMap c.special?

theorem isRoot_iff {id : TypeId} : c.IsRoot id ↔ id ∈ c.roots := by
  simp [IsRoot, roots]

/-- Whether no method makes text by anything that is handed to it, and the base type is one of the roots. -/
def isSimple (c : Compilation) (s : TypeSymbol) : Bool :=
  s.members.all (fun m =>
    m.method?.all fun method => method.name != "ToString" || method.parameters.isEmpty) &&
  s.base.all fun id => c.roots.contains id

theorem simple_of_isSimple {s : TypeSymbol} (h : c.isSimple s = true) : c.Simple s := by
  simp only [isSimple, Bool.and_eq_true, List.all_eq_true, Option.all_eq_true, Bool.or_eq_true, bne_iff_ne,
    List.isEmpty_iff, List.contains_iff_mem] at h
  exact ⟨fun method hm hname => (h.1 _ hm method rfl).resolve_left fun hne => hne hname,
    fun id hid => isRoot_iff.2 (h.2 id hid)⟩

/-- Whether the symbols mention only types of the compilation and the special roles lead to the types that
play them, where no type is built from another; and whether there are objects where there are strings, and no
more than that to the roots. -/
def checks (c : Compilation) : Bool :=
  c.types.toList.all c.closes && c.roots.all (fun id => c.isSimple (c.symbol id)) &&
    c.types.toList.zipIdx.all (fun (s, i) => s.special.all fun special => c.special? special == some ⟨i⟩) &&
    c.special.all (fun (special, id) => (c.symbol id).special == some special) &&
    (!(c.special? .string).isSome || (c.special? .object).isSome)

theorem coherent_of_checks (h : c.checks = true) (hindexed : Indexed c) : Coherent c := by
  simp only [checks, Bool.and_eq_true, List.all_eq_true, Option.all_eq_true, beq_iff_eq] at h
  obtain ⟨⟨⟨⟨hclosed, hroots⟩, hspecial⟩, hlist⟩, hobject⟩ := h
  have hplain (id : TypeId) : c.Closed (c.symbol id) ∧ (c.symbol id).kind.isConstructed = false := by
    by_cases hid : c.Has id
    · refine closed_of_closes (hclosed _ ?_)
      rw [symbol, Array.getElem?_eq_getElem hid, Option.getD_some]
      exact Array.mem_toList_iff.2 (Array.getElem_mem hid)
    · exact ⟨closed_of_not_has hid, by rw [symbol_of_not_has hid]; rfl⟩
  refine ⟨fun id => (hplain id).1, fun id => precedes_of_isConstructed (hplain id).2 id, fun id hid => ?_,
    fun special id => ⟨fun hs => ?_, fun hs => ?_⟩, fun hs => ?_, hindexed⟩
  · obtain hid | hid := hid
    · exact absurd hid (by simp [(hplain id).2])
    · exact simple_of_isSimple (hroots id (isRoot_iff.1 hid))
  · obtain ⟨before, after, hl, _⟩ := List.lookup_eq_some_iff.1 hs
    exact hlist (special, id) (by simp [hl])
  · have hid := has_of_special hs
    have hmem : (c.symbol id, id.index) ∈ c.types.toList.zipIdx := by
      rw [List.mem_zipIdx_iff_getElem?, symbol, Array.getElem?_eq_getElem hid]
      simp [Array.getElem?_eq_getElem hid]
    exact hspecial _ hmem special hs
  · simpa [hs] using hobject

/-- The indexes are right after each of the framework types. -/
theorem indexed_foldl_addType {ts : List LibraryType} (h : Indexed c) :
    Indexed (ts.foldl (fun c t => c.addType t.symbol) c) := by
  induction ts generalizing c with
  | nil => exact h
  | cons t ts ih =>
    refine ih (h.addType fun hkind => ?_)
    cases t <;> cases hkind

/-- The framework types are coherent, whichever libraries are chosen. -/
theorem coherent_ofReferences (references : List Reference) : Coherent (ofReferences references) := by
  refine coherent_of_checks ?_ (indexed_foldl_addType .empty)
  rw [ofReferences, LibraryType.ofReferences]
  cases references.contains .core <;> cases references.contains .globalization <;> decide

/-- All types of all documents are declared and have their signatures. -/
theorem declares_declareTypes (units : List CompilationUnit) (h : Coherent c) :
    Declares c (declareTypes units c) fun ds d => ∀ x ∈ ds, ∃ unit,
      units[x.document]? = some unit ∧ Declared x.document unit.walk x d := by
  let InUnits (ds : List DeclaredType) (d : Compilation) : Prop := ∀ x ∈ ds, ∃ unit : CompilationUnit,
    units[x.document]? = some unit ∧ Declared x.document unit.walk x d
  have mono (ds : List DeclaredType) (c d : Compilation) (hw : Within c d) (hin : InUnits ds c) :
      InUnits ds d := fun x hx =>
    have ⟨unit, hu, hd⟩ := hin x hx
    ⟨unit, hu, hd.mono (List.Subset.refl _) hw⟩
  refine .bind (.mapM h (R := InUnits) mono fun indexed hi c _ hc => ?_) fun declared d _ hd hin => ?_
  · obtain ⟨unit, document⟩ := indexed
    refine (declares_declareMembers document (documentScope units unit) unit.members c hc).mono
      fun ds d _ hds x hx => ⟨unit, ?_, ?_⟩
    all_goals obtain rfl := (hds x hx).document
    · exact List.mem_zipIdx_iff_getElem?.1 hi
    · exact hds x hx
  · have hall : InUnits declared.flatten d := fun x hx =>
      have ⟨ds, hds, hx⟩ := List.mem_flatten.1 hx
      hin ds hds x hx
    refine .bind (.forM hd fun x hx e he hc => ?_) fun _ e he hc _ => .pure hc (mono _ d e he hall)
    obtain ⟨_, _, hdeclared⟩ := hall x hx
    exact declares_declareSignatures x hc (he.has hdeclared.type)
      ((he.fromSource_eq _ hdeclared.type).trans hdeclared.fromSource)

end Compilation

end CultureLint
