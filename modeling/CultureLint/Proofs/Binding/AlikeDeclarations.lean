import CultureLint.Proofs.Binding.LayingProgram
import CultureLint.Proofs.Binding.MoreLines
import CultureLint.Proofs.Binding.MovingProgram
import CultureLint.Proofs.Binding.TrackedStatements

/-! Documents that declare the same types. What a document declares depends on its heads alone, and not on what is
written in its bodies; nor does it depend on an imported namespace in which no type has one of its names. -/

namespace CultureLint

/-! ### Names -/

namespace Compilation

/-- In two programs the same names stand for types and for namespaces. -/
structure SameNames (c d : Compilation) : Prop where
  named : d.byMetadataName = c.byMetadataName
  spaces : d.namespaces = c.namespaces

theorem SameNames.refl (c : Compilation) : SameNames c c := ⟨rfl, rfl⟩

theorem SameNames.trans {c d e : Compilation} (h : SameNames c d) (h' : SameNames d e) : SameNames c e :=
  ⟨h'.named.trans h.named, h'.spaces.trans h.spaces⟩

theorem SameNames.symm {c d : Compilation} (h : SameNames c d) : SameNames d c := ⟨h.named.symm, h.spaces.symm⟩

theorem Grows.sameNames {c d : Compilation} (h : Grows c d) : SameNames c d := ⟨h.named_eq, h.namespaces_eq⟩

end Compilation

namespace Scope

variable {more : List String} {scope scope' : Scope} {c d : Compilation}

/-- What a word means depends on nothing but names. -/
theorem resolveName_of_sameNames (h : c.SameNames d) (word : String) :
    scope.resolveName d word = scope.resolveName c word := by
  have htype : d.byMetadataName? = c.byMetadataName? := by
    funext name
    rw [Compilation.byMetadataName?, h.named, Compilation.byMetadataName?]
  have hspace : d.isNamespace = c.isNamespace := by
    funext name
    rw [Compilation.isNamespace, h.spaces, Compilation.isNamespace]
  simp only [resolveName, lookupDotted, typeIn?, htype, hspace]

/-- In the two scopes the words mean the same. -/
def AgreeOn (c : Compilation) (words : List String) (scope scope' : Scope) : Prop :=
  ∀ word ∈ words, scope'.resolveName c word = scope.resolveName c word

theorem AgreeOn.mono {words words' : List String} (h : AgreeOn c words scope scope') (hsub : words' ⊆ words)
    (hc : c.SameNames d) : AgreeOn d words' scope scope' := fun word hword => by
  rw [resolveName_of_sameNames hc, resolveName_of_sameNames hc, h word (hsub hword)]

theorem AgreeOn.refl (words : List String) : AgreeOn c words scope scope := fun _ _ => rfl

/-- The second scope differs from the first one in imported namespaces alone, and not at all where none was added. -/
structure ImportsMore (more : List String) (scope scope' : Scope) : Prop where
  namespaces : scope'.namespaces = scope.namespaces
  eq_of_nil : more = [] → scope' = scope

namespace ImportsMore

theorem refl (scope : Scope) : ImportsMore more scope scope := ⟨rfl, fun _ => rfl⟩

theorem current_eq (h : ImportsMore more scope scope') : scope'.current = scope.current := by
  rw [Scope.current, h.namespaces, Scope.current]

theorem enter (h : ImportsMore more scope scope') {name name' : QualifiedName} (hname : bare name' = bare name) :
    ImportsMore more (scope.enter name) (scope'.enter name') := by
  refine ⟨?_, fun hnil => ?_⟩
  · rw [Scope.enter, Scope.enter, QualifiedName.dotted_eq hname, h.current_eq]
  · rw [h.eq_of_nil hnil, Scope.enter, Scope.enter, QualifiedName.dotted_eq hname]

end ImportsMore

/-- Lines in which the same is written import the same. -/
theorem addUsings_of_bare {us us' : List Using} (h : bare us' = bare us) :
    scope.addUsings us' = scope.addUsings us := by
  have hbare (us : List Using) : scope.addUsings (bare us) = scope.addUsings us :=
    scope.addUsings_move (f := OrderHom.const Nat 0) us
  rw [← hbare, h, hbare]

end Scope

namespace LinesMore

variable {more : List String} {us us' : List Using}

/-- Without more to import there are no more lines. -/
theorem bare_eq (h : LinesMore [] us us') : bare us' = bare us := by
  generalize hnil : ([] : List String) = more at h
  induction h with
  | nil => rfl
  | keep hu _ ih => rw [bare_cons, bare_cons, hu, ih]
  | insert _ _ hu => cases hnil ▸ hu

/-- The lines that are for the whole program are the same. -/
theorem filter_isGlobal (h : LinesMore more us us') :
    LinesMore [] (us.filter (·.isGlobal)) (us'.filter (·.isGlobal)) := by
  induction h with
  | nil => exact .nil
  | @keep u u' _ _ hu _ ih =>
    rw [List.filter_cons, List.filter_cons, Using.isGlobal_eq hu]
    split
    · exact .keep hu ih
    · exact ih
  | insert _ hglobal _ _ ih => rwa [List.filter_cons_of_neg (by simp [hglobal])]

/-- More lines import more. -/
theorem importsMore (h : LinesMore more us us') {scope scope' : Scope} (hscope : Scope.ImportsMore more scope scope') :
    Scope.ImportsMore more (scope.addUsings us) (scope'.addUsings us') := by
  refine ⟨by simpa using hscope.namespaces, fun hnil => ?_⟩
  subst hnil
  rw [hscope.eq_of_nil rfl, Scope.addUsings_of_bare h.bare_eq]

end LinesMore

/-! ### Types -/

variable {f : Expr → Expr} {g : List Using → List Using} {more : List String}

/-- Two declarations of one type, in which the same is written but for expressions. -/
structure DeclaredType.Alike (f : Expr → Expr) (more : List String) (d d' : DeclaredType) : Prop where
  document : d'.document = d.document
  type : d'.type = d.type
  scope : Scope.ImportsMore more d.scope d'.scope
  decl : bare d'.decl = bare (Outline.map f id d.decl)

namespace Compilation

variable {scope scope' : Scope}

theorem declareType_congr (space : String) {decl decl' : TypeDecl} (h : bare decl' = bare (Outline.map f g decl)) :
    declareType space decl' = declareType space decl := by
  have hform : decl'.form = decl.form := (congrArg TypeDecl.form h :)
  have hname : decl'.name.name = decl.name.name := (congrArg (fun d : TypeDecl => d.name.name) h :)
  have hmodifiers : decl'.modifiers = decl.modifiers := (congrArg TypeDecl.modifiers h :)
  unfold declareType partialOf?
  rw [hform, hname, hmodifiers]

open NamespaceMember (AllAlike) in
mutual

/-- The types are declared one by one in the same way. -/
theorem declareMember_alike (document : Nat) {m m' : NamespaceMember} : m.Alike f more m' → ∀ {scope scope' : Scope},
    Scope.ImportsMore more scope scope' → ∀ c,
      (declareMember document scope' m' c).2 = (declareMember document scope m c).2 ∧
      List.Forall₂ (DeclaredType.Alike f more) (declareMember document scope m c).1
        (declareMember document scope' m' c).1
  | .namespaceDecl hname hus hms, _, _, hscope, c =>
    declareMembers_alike document hms (hus.importsMore (hscope.enter hname)) c
  | @NamespaceMember.Alike.typeDecl _ _ decl decl' h, scope, scope', hscope, c => by
    have hsame : declareType scope'.current decl' c = declareType scope.current decl c := by
      rw [declareType_congr _ h, hscope.current_eq]
    exact ⟨(congrArg Prod.snd hsame :), .cons ⟨rfl, (congrArg Prod.fst hsame :), hscope, h⟩ .nil⟩

theorem declareMembers_alike (document : Nat) {ms ms' : List NamespaceMember} : AllAlike f more ms ms' →
    ∀ {scope scope' : Scope}, Scope.ImportsMore more scope scope' → ∀ c,
      (declareMembers document scope' ms' c).2 = (declareMembers document scope ms c).2 ∧
      List.Forall₂ (DeclaredType.Alike f more) (declareMembers document scope ms c).1
        (declareMembers document scope' ms' c).1
  | .nil, _, _, _, _ => ⟨rfl, .nil⟩
  | @NamespaceMember.AllAlike.cons _ _ m m' ms ms' h hms, scope, scope', hscope, c => by
    obtain ⟨hc, hfirst⟩ := declareMember_alike document h hscope c
    obtain ⟨hd, hrest⟩ := declareMembers_alike document hms hscope (declareMember document scope m c).2
    have run (scope : Scope) (m : NamespaceMember) (ms : List NamespaceMember) (c : Compilation) :
        declareMembers document scope (m :: ms) c =
          ((declareMember document scope m c).1 ++
            (declareMembers document scope ms (declareMember document scope m c).2).1,
            (declareMembers document scope ms (declareMember document scope m c).2).2) := rfl
    rw [run, run, hc]
    exact ⟨hd, List.rel_append hfirst hrest⟩

end

/-! ### Signatures -/

/-- From types with the names of a program both steps do the same and leave the names as they are. -/
def Agree {α : Type} (base : Compilation) (m m' : StateM Compilation α) : Prop :=
  ∀ c, base.SameNames c → m' c = m c ∧ base.SameNames (m c).2

namespace Agree

variable {α β A B : Type} {base : Compilation} {m m' : StateM Compilation α}

theorem pure (a : α) : Agree base (Pure.pure a) (Pure.pure a) := fun _ h => ⟨rfl, h⟩

theorem bind {k k' : α → StateM Compilation β} (h : Agree base m m') (hk : ∀ a, Agree base (k a) (k' a)) :
    Agree base (m >>= k) (m' >>= k') := by
  intro c hc
  obtain ⟨hm, hnames⟩ := h c hc
  change k' (m' c).1 (m' c).2 = k (m c).1 (m c).2 ∧ base.SameNames (k (m c).1 (m c).2).2
  rw [hm]
  exact hk _ _ hnames

/-- A step may look at the types. -/
theorem get {k k' : Compilation → StateM Compilation β}
    (hk : ∀ c, base.SameNames c → Agree base (k c) (k' c)) :
    Agree base (MonadState.get >>= k) (MonadState.get >>= k') := fun c hc => hk c hc c hc

theorem mapM {k : A → StateM Compilation β} {k' : B → StateM Compilation β} {as : List A} {bs : List B}
    (h : List.Forall₂ (fun a b => Agree base (k a) (k' b)) as bs) : Agree base (as.mapM k) (bs.mapM k') := by
  induction h with
  | nil => exact .pure []
  | cons h _ ih =>
    rw [List.mapM_cons, List.mapM_cons]
    exact h.bind fun _ => ih.bind fun _ => .pure _

theorem filterMapM {k : A → StateM Compilation (Option β)} {k' : B → StateM Compilation (Option β)} {as : List A}
    {bs : List B} (h : List.Forall₂ (fun a b => Agree base (k a) (k' b)) as bs) :
    Agree base (as.filterMapM k) (bs.filterMapM k') := by
  induction h with
  | nil => exact .pure []
  | cons h _ ih =>
    rw [List.filterMapM_cons, List.filterMapM_cons]
    refine h.bind fun found => ?_
    cases found with
    | none => exact ih
    | some b => exact ih.bind fun _ => .pure _

theorem forM {k : A → StateM Compilation Unit} {k' : B → StateM Compilation Unit} {as : List A} {bs : List B}
    (h : List.Forall₂ (fun a b => Agree base (k a) (k' b)) as bs) : Agree base (as.forM k) (bs.forM k') := by
  induction h with
  | nil => exact .pure ()
  | cons h _ ih => exact h.bind fun _ => ih

end Agree

/-- Types that are created when they are met have no names. -/
theorem sameNames_resolveType (scope : Scope) (type : TypeExpr) (c : Compilation) :
    c.SameNames (scope.resolveType type c).2 := by
  have construct (c : Compilation) (kind : SymbolKind) (create : TypeId → TypeSymbol)
      (hkind : ∀ id, (create id).kind.isConstructed = true) : c.SameNames (c.construct kind create).2 := by
    rw [Compilation.construct]
    split
    · exact .refl c
    · exact ⟨by simp [addType, hkind], by simp [addType, hkind]⟩
  have hrun {α β : Type} (m : StateM Compilation α) (k : α → StateM Compilation β) :
      (m >>= k) c = k (m c).1 (m c).2 := rfl
  induction type with
  | primitive | named | implicit => exact .refl c
  | nullable of _ ih =>
    refine ih.trans ?_
    rw [Scope.resolveType, hrun]
    cases (scope.resolveType of c).1 with
    | none => exact .refl _
    | some underlying =>
      change (scope.resolveType of c).2.SameNames ((if (scope.resolveType of c).2.isValueType underlying then _ else _ :
        StateM Compilation (Option TypeId)) (scope.resolveType of c).2).2
      split
      · change (scope.resolveType of c).2.SameNames ((scope.resolveType of c).2.nullableOf underlying).2
        exact construct _ _ _ fun _ => rfl
      · exact .refl _
  | array of _ ih =>
    refine ih.trans ?_
    rw [Scope.resolveType, hrun]
    cases (scope.resolveType of c).1 with
    | none => exact .refl _
    | some element =>
      change (scope.resolveType of c).2.SameNames ((scope.resolveType of c).2.arrayOf element).2
      exact construct _ _ _ fun _ => rfl

variable {base : Compilation}

/-- A written type whose words mean the same. -/
theorem agree_resolveType {type type' : TypeExpr} (h : type'.bare = type.bare)
    (hw : Scope.AgreeOn base type.words scope scope') :
    Agree base (scope.resolveType type) (scope'.resolveType type') := by
  intro c hc
  rw [Scope.resolveType_bare h]
  exact ⟨Scope.resolveType_congr (hw.mono (List.Subset.refl _) hc), hc.trans (sameNames_resolveType scope type c)⟩

/-- The class of an attribute. -/
theorem resolveAttribute_congr {c : Compilation} {a a' : Attribute} (h : bare a' = bare a)
    (hw : Scope.AgreeOn c a.words scope scope') :
    scope'.resolveAttribute c a'.name = scope.resolveAttribute c a.name := by
  have hname : bare a'.name = bare a.name := (congrArg Attribute.name h :)
  have hmove (scope : Scope) (name : QualifiedName) : scope.resolveAttribute c (bare name) =
      scope.resolveAttribute c name := scope.resolveAttribute_move (f := OrderHom.const Nat 0) c name
  rw [← hmove scope', hname, hmove]
  have part (name : QualifiedName) (hn : ∀ word ∈ name.words, word ∈ a.words) :
      scope'.resolveTypeName c name = scope.resolveTypeName c name := by
    rw [Scope.resolveTypeName, Scope.resolveTypeName, Scope.resolveQualified_congr fun word hword =>
      hw word (hn word hword)]
  have hfull : ∀ word ∈ (Scope.attributeName a.name).words, word ∈ a.words := by
    obtain ⟨⟨global, head, tail, span⟩, _⟩ := a
    intro word hword
    rw [Attribute.words, List.mem_append]
    unfold Scope.attributeName at hword
    cases global with
    | true => split at hword <;> cases hword
    | false =>
      split at hword
      · exact .inr (by simpa [QualifiedName.words] using hword)
      · exact .inl hword
  rw [Scope.resolveAttribute, part _ fun word hword => List.mem_append_left _ hword, part _ hfull,
    Scope.resolveAttribute]

/-- The symbols of a member are those of its head. -/
theorem agree_memberSymbols (containing : TypeId) {m m' : MemberDecl} (h : bare m' = bare (Outline.map f g m))
    (hw : Scope.AgreeOn base m.headWords scope scope') :
    Agree base (memberSymbols scope containing m) (memberSymbols scope' containing m') := by
  cases m with
  | field d =>
    cases m' with
    | field d' =>
      have h := MemberDecl.field.inj h
      have hmodifiers : d'.modifiers = d.modifiers := (congrArg FieldDecl.modifiers h :)
      have htype : d'.type.bare = d.type.bare := (congrArg FieldDecl.type h :)
      have hnames : d'.declarators.map (·.name.name) = d.declarators.map (·.name.name) := by
        have := congrArg (fun d : FieldDecl => d.declarators.map (·.name.name)) h
        simpa [bare, Outline.map, List.map_map, Function.comp_def] using this
      refine (agree_resolveType htype hw).bind fun type => ?_
      have hsymbols (ds : List Declarator) (modifiers : List String) :
          (ds.map fun d => Member.field ⟨d.name.name, containing, type, isStatic modifiers⟩) =
            (ds.map (·.name.name)).map fun name => .field ⟨name, containing, type, isStatic modifiers⟩ := by
        rw [List.map_map]
        rfl
      rw [hsymbols, hsymbols, hnames, hmodifiers]
      exact .pure _
    | _ => cases h
  | property d =>
    cases m' with
    | property d' =>
      have h := MemberDecl.property.inj h
      have hmodifiers : d'.modifiers = d.modifiers := (congrArg PropertyDecl.modifiers h :)
      have hname : d'.name.name = d.name.name := (congrArg (fun d : PropertyDecl => d.name.name) h :)
      have htype : d'.type.bare = d.type.bare := (congrArg PropertyDecl.type h :)
      refine (agree_resolveType htype hw).bind fun type => ?_
      rw [hname, hmodifiers]
      exact .pure _
    | _ => cases h
  | method d =>
    cases m' with
    | method d' =>
      have h := MemberDecl.method.inj h
      obtain ⟨attributes, modifiers, returns, name, parameters, body, span⟩ := d
      obtain ⟨attributes', modifiers', returns', name', parameters', body', span'⟩ := d'
      have hattributes : bare attributes' = bare attributes := (congrArg MethodDecl.attributes h :)
      have hreturns : bare returns' = bare returns := (congrArg MethodDecl.returns h :)
      have hname : name'.name = name.name := (congrArg (fun d : MethodDecl => d.name.name) h :)
      have hparameters : bare parameters' = bare parameters := (congrArg MethodDecl.parameters h :)
      obtain rfl : modifiers' = modifiers := (congrArg MethodDecl.modifiers h :)
      cases returns with
      | none =>
        obtain rfl : returns' = none := Option.map_eq_none_iff.1 hreturns
        exact .pure _
      | some returns =>
        cases returns' with
        | none => cases hreturns
        | some returns' =>
          have hreturns : returns'.bare = returns.bare := Option.some.inj hreturns
          have part {words : List String} (hsub : words ⊆ MemberDecl.headWords
              (.method ⟨attributes, modifiers', some returns, name, parameters, body, span⟩)) {c : Compilation}
              (hc : base.SameNames c) : Scope.AgreeOn c words scope scope' := hw.mono hsub hc
          simp only [MemberDecl.headWords, Option.map_some, Option.getD_some] at part
          have hsignature : Agree base
              (parameters.mapM fun p => do return (⟨p.name.name, ← scope.resolveType p.type⟩ : ParameterSymbol))
              (parameters'.mapM fun p => do return (⟨p.name.name, ← scope'.resolveType p.type⟩ : ParameterSymbol)) := by
            refine .mapM (((List.forall₂_and_left _ _).2 ⟨fun _ hp => hp, forall₂_bare hparameters⟩).imp
              fun p p' hp => ?_)
            have hname : p'.name.name = p.name.name := (congrArg (fun p : Parameter => p.name.name) hp.2 :)
            have htype : p'.type.bare = p.type.bare := (congrArg Parameter.type hp.2 :)
            refine (agree_resolveType htype (part (fun word hword => ?_) (.refl base))).bind fun type => ?_
            · exact List.mem_append_right _ (List.mem_flatMap.2 ⟨p, hp.1, hword⟩)
            · rw [hname]
              exact .pure _
          refine hsignature.bind fun parameters => .get fun c hc => ?_
          have hsame : (attributes'.map fun a => scope'.resolveAttribute c a.name) =
              attributes.map fun a => scope.resolveAttribute c a.name := by
            have hpairs := (List.forall₂_and_left _ _).2 ⟨fun _ ha => ha, forall₂_bare hattributes⟩
            refine (List.forall₂_eq_eq_eq ▸
              List.forall₂_map_right_iff.2 (List.forall₂_map_left_iff.2 (hpairs.imp fun a a' ha => ?_))).symm
            refine (resolveAttribute_congr ha.2 (part (fun word hword => ?_) hc)).symm
            exact List.mem_append_left _ (List.mem_append_left _ (List.mem_flatMap.2 ⟨a, ha.1, hword⟩))
          rw [hsame, hname]
          refine (agree_resolveType hreturns (part (fun word hword => ?_) (.refl base))).bind fun type => .pure _
          exact List.mem_append_left _ (List.mem_append_right _ hword)
    | _ => cases h

/-- Base types and members are given in the same way. -/
theorem agree_declareSignatures {d d' : DeclaredType} (h : d.Alike f more d')
    (hw : Scope.AgreeOn base d.decl.words d.scope d'.scope) :
    Agree base (declareSignatures d) (declareSignatures d') := by
  obtain ⟨document, type, scope, decl⟩ := d
  obtain ⟨document', type', scope', decl'⟩ := d'
  obtain ⟨-, rfl, hscope, hdecl⟩ := h
  have hform : decl'.form = decl.form := (congrArg TypeDecl.form hdecl :)
  have hbases : bare decl'.bases = bare decl.bases := (congrArg TypeDecl.bases hdecl :)
  have hmembers : bare decl'.members = bare (Outline.map f id decl.members) := (congrArg TypeDecl.members hdecl :)
  have hempty : decl'.bases.isEmpty = decl.bases.isEmpty := by
    rw [← List.isEmpty_map (f := bare), ← List.isEmpty_map (f := bare) (l := decl.bases)]
    exact congrArg List.isEmpty hbases
  have resolved : Agree base (decl.bases.filterMapM scope.resolveType) (decl'.bases.filterMapM scope'.resolveType) := by
    refine .filterMapM (((List.forall₂_and_left _ _).2 ⟨fun _ ht => ht, forall₂_bare hbases⟩).imp fun t t' ht => ?_)
    exact agree_resolveType ht.2 (hw.mono (fun word hword =>
      List.mem_append_left _ (List.mem_flatMap.2 ⟨t, ht.1, hword⟩)) (.refl base))
  have members : Agree base (decl.members.mapM (memberSymbols scope type'))
      (decl'.members.mapM (memberSymbols scope' type')) := by
    refine .mapM (((List.forall₂_and_left _ _).2 ⟨fun _ hm => hm, forall₂_map hmembers⟩).imp fun m m' hm => ?_)
    exact agree_memberSymbols type' hm.2 (hw.mono (fun word hword =>
      List.mem_append_right _ (List.mem_flatMap.2 ⟨m, hm.1, List.mem_append_left _ hword⟩)) (.refl base))
  unfold declareSignatures
  refine resolved.bind fun resolved => .get fun c _ => ?_
  dsimp only
  rw [hform, hempty]
  exact members.bind fun members c hc => ⟨rfl, hc.trans ⟨rfl, rfl⟩⟩

end Compilation

/-! ### Programs with an edited document -/

/-- Of documents with their numbers the one with the given number may be edited, and the others stay. -/
structure CompilationUnit.Edited (document : Nat) (f : Expr → Expr) (more : List String)
    (x x' : CompilationUnit × Nat) :
    Prop where
  number : x'.2 = x.2
  same : x.2 ≠ document → x'.1 = x.1
  alike : x.2 = document → x.1.Alike f more x'.1

/-- Of declared types those of the document with the given number may be edited, and the others stay. -/
structure DeclaredType.Edited (document : Nat) (f : Expr → Expr) (more : List String) (d d' : DeclaredType) : Prop where
  same : d.document ≠ document → d' = d
  alike : d.document = document → d.Alike f more d'

namespace Compilation

variable {document : Nat} {f : Expr → Expr} {more : List String} {units units' : List CompilationUnit} {c : Compilation}

/-- One of several documents is edited. -/
theorem edited_set {unit unit' : CompilationUnit} (hunit : units[document]? = some unit) (h : unit.Alike f more unit') :
    List.Forall₂ (CompilationUnit.Edited document f more) units.zipIdx (units.set document unit').zipIdx := by
  refine List.forall₂_iff_get.2 ⟨by simp, fun i hi hi' => ?_⟩
  simp only [List.get_eq_getElem, List.getElem_zipIdx, Nat.zero_add]
  refine ⟨rfl, fun hne => ?_, fun heq => ?_⟩
  · exact List.getElem_set_ne (Ne.symm hne) _
  · dsimp only at heq
    subst heq
    rw [List.getElem_set_self]
    rw [List.length_zipIdx] at hi
    obtain rfl : units[i] = unit := Option.some.inj ((List.getElem?_eq_getElem hi).symm.trans hunit)
    exact h

/-- What is imported for the whole program stays. -/
theorem shared_edited (h : List.Forall₂ (CompilationUnit.Edited document f more) units.zipIdx units'.zipIdx) :
    LinesMore [] ((units.flatMap (·.usings)).filter (·.isGlobal))
      ((units'.flatMap (·.usings)).filter (·.isGlobal)) := by
  have hall (units : List CompilationUnit) : units.flatMap (·.usings) = units.zipIdx.flatMap (·.1.usings) := by
    conv_lhs => rw [← List.zipIdx_map_fst 0 units, List.flatMap_map]
  have hlines {xs xs' : List (CompilationUnit × Nat)}
      (h : List.Forall₂ (CompilationUnit.Edited document f more) xs xs') :
      LinesMore more (xs.flatMap (·.1.usings)) (xs'.flatMap (·.1.usings)) := by
    induction h with
    | nil => exact .nil
    | @cons x x' _ _ hx _ ih =>
      rw [List.flatMap_cons, List.flatMap_cons]
      refine LinesMore.append ?_ ih
      by_cases hdoc : x.2 = document
      · exact (hx.alike hdoc).usings
      · rw [hx.same hdoc]
        exact .refl _
  rw [hall, hall]
  exact (hlines h).filter_isGlobal

/-- What a document sees outside of its namespaces. -/
theorem importsMore_documentScope
    (h : List.Forall₂ (CompilationUnit.Edited document f more) units.zipIdx units'.zipIdx)
    {unit unit' : CompilationUnit}
    {added : List String} (hunit : LinesMore added unit.usings unit'.usings) :
    Scope.ImportsMore added (documentScope units unit) (documentScope units' unit') := by
  rw [documentScope, documentScope]
  refine (hunit.filter fun u u' hu => by rw [Using.isGlobal_eq hu]).importsMore ?_
  rw [Scope.addUsings_of_bare (shared_edited h).bare_eq]
  exact .refl _

/-- The types of an edited document are declared in the same way, and those of the others are the same. -/
theorem declareUnits_edited (h : List.Forall₂ (CompilationUnit.Edited document f more) units.zipIdx units'.zipIdx)
    {xs xs' : List (CompilationUnit × Nat)} (hxs : List.Forall₂ (CompilationUnit.Edited document f more) xs xs')
    (c : Compilation) :
    ((xs'.mapM fun x => declareMembers x.2 (documentScope units' x.1) x.1.members : StateM Compilation _) c).2 =
      ((xs.mapM fun x => declareMembers x.2 (documentScope units x.1) x.1.members : StateM Compilation _) c).2 ∧
      List.Forall₂ (DeclaredType.Edited document f more)
        ((xs.mapM fun x => declareMembers x.2 (documentScope units x.1) x.1.members : StateM Compilation _) c).1.flatten
        ((xs'.mapM fun x =>
          declareMembers x.2 (documentScope units' x.1) x.1.members : StateM Compilation _) c).1.flatten := by
  induction hxs generalizing c with
  | nil => exact ⟨rfl, .nil⟩
  | @cons x x' xs xs' hx _ ih =>
    have run (units : List CompilationUnit) (x : CompilationUnit × Nat) (xs : List (CompilationUnit × Nat)) :
        ((x :: xs).mapM fun x => declareMembers x.2 (documentScope units x.1) x.1.members : StateM Compilation _) c =
          (let made := declareMembers x.2 (documentScope units x.1) x.1.members c
          let rest := (xs.mapM fun x => declareMembers x.2 (documentScope units x.1) x.1.members :
            StateM Compilation _) made.2
          (made.1 :: rest.1, rest.2)) := by
      rw [List.mapM_cons]
      rfl
    rw [run, run]
    have hfirst : (declareMembers x'.2 (documentScope units' x'.1) x'.1.members c).2 =
          (declareMembers x.2 (documentScope units x.1) x.1.members c).2 ∧
        List.Forall₂ (DeclaredType.Edited document f more)
          (declareMembers x.2 (documentScope units x.1) x.1.members c).1
          (declareMembers x'.2 (documentScope units' x'.1) x'.1.members c).1 := by
      have hplace {d : DeclaredType} (hd : d ∈ (declareMembers x.2 (documentScope units x.1) x.1.members c).1) :
          d.document = x.2 := by
        have hmem := List.mem_map_of_mem (f := DeclaredType.place) hd
        rw [map_place_declareMembers] at hmem
        obtain ⟨decl, -, hdecl⟩ := List.mem_map.1 hmem
        exact (congrArg Prod.fst hdecl).symm
      rw [hx.number]
      by_cases hdoc : x.2 = document
      · obtain ⟨hc, hall⟩ := declareMembers_alike x.2 (hx.alike hdoc).members
          (importsMore_documentScope h (hx.alike hdoc).usings) c
        refine ⟨hc, ((List.forall₂_and_left _ _).2 ⟨fun _ hd => hd, hall⟩).imp
          fun d d' hd => ⟨fun hne => ?_, fun _ => hd.2⟩⟩
        exact absurd ((hplace hd.1).trans hdoc) hne
      · have hsame : LinesMore [] x.1.usings x.1.usings := .refl _
        rw [hx.same hdoc, (importsMore_documentScope h hsame).eq_of_nil rfl]
        refine ⟨rfl, List.forall₂_same.2 fun d hd => ⟨fun _ => rfl, fun heq => ?_⟩⟩
        exact absurd ((hplace hd).symm.trans heq) hdoc
    dsimp only
    rw [hfirst.1]
    obtain ⟨hc, hrest⟩ := ih (declareMembers x.2 (documentScope units x.1) x.1.members c).2
    exact ⟨hc, List.rel_append hfirst.2 hrest⟩

theorem sameNames_declareSignatures (d : DeclaredType) {base : Compilation} :
    Agree base (declareSignatures d) (declareSignatures d) :=
  have hsame : d.Alike id [] d := ⟨rfl, rfl, .refl d.scope, congrArg bare (map_id d.decl).symm⟩
  agree_declareSignatures hsame (.refl d.decl.words)

theorem declareTypes_eq (units : List CompilationUnit) (c : Compilation) : declareTypes units c =
    (let made := (units.zipIdx.mapM fun x => declareMembers x.2 (documentScope units x.1) x.1.members :
      StateM Compilation _) c
    (made.1.flatten, (made.1.flatten.forM declareSignatures made.2).2)) := rfl

/-- With the types that are declared the names are known. -/
theorem sameNames_forM_declareSignatures (ds : List DeclaredType) (c : Compilation) :
    c.SameNames (ds.forM declareSignatures c).2 :=
  (Agree.forM (List.forall₂_same.2 fun d _ => sameNames_declareSignatures d) c (.refl c)).2

/-- In programs of which one document is edited types of the same names are declared; and the types are the same if
the words in what is declared mean the same. -/
theorem declareTypes_edited (h : List.Forall₂ (CompilationUnit.Edited document f more) units.zipIdx units'.zipIdx)
    (c : Compilation) :
    List.Forall₂ (DeclaredType.Edited document f more) (declareTypes units c).1 (declareTypes units' c).1 ∧
      (declareTypes units c).2.SameNames (declareTypes units' c).2 ∧
      (List.Forall₂ (fun d d' => Scope.AgreeOn (declareTypes units c).2 d.decl.words d.scope d'.scope)
        (declareTypes units c).1 (declareTypes units' c).1 →
          (declareTypes units' c).2 = (declareTypes units c).2) := by
  obtain ⟨hc, hall⟩ := declareUnits_edited h h c
  rw [declareTypes_eq, declareTypes_eq]
  dsimp only
  rw [hc]
  generalize (units.zipIdx.mapM fun x => declareMembers x.2 (documentScope units x.1) x.1.members :
    StateM Compilation _) c = made at *
  generalize ((units'.zipIdx.mapM fun x => declareMembers x.2 (documentScope units' x.1) x.1.members :
    StateM Compilation _) c).1.flatten = ds' at *
  have hnames := sameNames_forM_declareSignatures made.1.flatten made.2
  refine ⟨hall, hnames.symm.trans (sameNames_forM_declareSignatures _ _), fun hagree => ?_⟩
  have hsignatures : Agree made.2 (made.1.flatten.forM declareSignatures) (ds'.forM declareSignatures) := by
    refine .forM (List.forall₂_iff_zip.2 ⟨hall.length_eq, fun {d d'} hd => ?_⟩)
    have hedited := List.forall₂_zip hall hd
    by_cases hdoc : d.document = document
    · exact agree_declareSignatures (hedited.alike hdoc)
        ((List.forall₂_zip hagree hd).mono (List.Subset.refl _) hnames.symm)
    · rw [hedited.same hdoc]
      exact sameNames_declareSignatures d
  exact congrArg Prod.snd (hsignatures made.2 (.refl _)).1

end Compilation

end CultureLint
