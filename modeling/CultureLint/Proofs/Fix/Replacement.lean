import CultureLint.Proofs.Binding.TrackedProgram
import CultureLint.Proofs.Fix.FormattedOperand

/-! A program, and the same program with the call in the place of an operand of one document: where the words of the
document mean what they meant, all but the operand and the call is bound as before, and one finding is gone. -/

namespace CultureLint

open CultureLint.Part (exprs)

/-! ### The two documents -/

/-- The second document is the first one with the call that formats an operand in the place of the operand, up to
numbers, places and lines that import more. -/
structure Replacing (full : Bool) (more : List String) (e : Expr) (unit unit' : CompilationUnit) : Prop where
  alike : unit.Alike (Expr.changeAt e.node (Expr.formatted full)) more unit'
  numbered : ∃ n, Numbered 0 n (exprs (parts unit))
  tidy : ∀ a ∈ exprs (parts unit), a.Tidy
  operand : ∃ q ∈ (exprs (parts unit)).flatMap Expr.within, e ∈ q.concatOperands

namespace Replacing

variable {full : Bool} {more : List String} {e : Expr} {unit unit' : CompilationUnit}

theorem mem_within (h : Replacing full more e unit unit') : e ∈ (exprs (parts unit)).flatMap Expr.within := by
  obtain ⟨q, hq, he⟩ := h.operand
  obtain ⟨a, ha, hqa⟩ := List.mem_flatMap.1 hq
  have heq := Expr.mem_within_of_mem_children (Expr.mem_children_of_mem_concatOperands he)
  exact List.mem_flatMap.2 ⟨a, ha, Expr.mem_within_trans heq hqa⟩

/-- The number tells which expression it is. -/
theorem eq_of_id_eq (h : Replacing full more e unit unit') {c : Expr}
    (hc : c ∈ (exprs (parts unit)).flatMap Expr.within) (hid : c.id = e.id) : c = e := by
  obtain ⟨_, hnum⟩ := h.numbered
  exact hnum.eq_of_id_eq hc h.mem_within hid

/-- The operand is a part of operators only. -/
theorem mem_concatOperands (h : Replacing full more e unit unit') {p c : Expr}
    (hp : p ∈ (exprs (parts unit)).flatMap Expr.within) (hc : c ∈ p.children) (hnode : c.node = e.node) :
    c ∈ p.concatOperands := by
  obtain ⟨_, hnum⟩ := h.numbered
  obtain ⟨q, hq, he⟩ := h.operand
  have hmem : c ∈ (exprs (parts unit)).flatMap Expr.within := by
    obtain ⟨a, ha, hpa⟩ := List.mem_flatMap.1 hp
    exact List.mem_flatMap.2 ⟨a, ha, Expr.mem_within_trans (Expr.mem_within_of_mem_children hc) hpa⟩
  obtain rfl := h.eq_of_id_eq hmem (congrArg Node.id hnode)
  exact hnum.eq_of_mem_children hp hq hc (Expr.mem_children_of_mem_concatOperands he) ▸ he

/-- The operand does not stand outermost. -/
theorem notMem_exprs (h : Replacing full more e unit unit') : e ∉ exprs (parts unit) := fun hmem => by
  obtain ⟨_, hnum⟩ := h.numbered
  obtain ⟨q, hq, hqe⟩ := h.operand
  exact hnum.notMem_children hmem hq (Expr.mem_children_of_mem_concatOperands hqe)

/-- The operand is no part of anything in it. -/
theorem notMem_children (h : Replacing full more e unit unit') {x : Expr} (hx : x ∈ e.within) : e ∉ x.children := by
  obtain ⟨_, hnum⟩ := h.numbered
  exact (hnum.of_mem h.mem_within).notMem_children (List.mem_singleton_self e) (by simpa using hx)

/-- What is in the operand is in the document. -/
theorem mem_of_within (h : Replacing full more e unit unit') {x : Expr} (hx : x ∈ e.within) :
    x ∈ (exprs (parts unit)).flatMap Expr.within := by
  obtain ⟨a, ha, hea⟩ := List.mem_flatMap.1 h.mem_within
  exact List.mem_flatMap.2 ⟨a, ha, Expr.mem_within_trans hx hea⟩

theorem tidy_of_mem (h : Replacing full more e unit unit') {x : Expr}
    (hx : x ∈ (exprs (parts unit)).flatMap Expr.within) : x.Tidy := by
  obtain ⟨a, ha, hxa⟩ := List.mem_flatMap.1 hx
  exact fun y hy => h.tidy a ha y (Expr.mem_within_trans hy hxa)

/-- The expressions of both documents face each other, but for the operand and the call. -/
theorem exists_faces (h : Replacing full more e unit unit') : ∃ K,
    Expr.Faces (Expr.Replaces e.node (Expr.formatted full)) K (exprs (parts unit)) (exprs (parts unit')) ∧
      ∀ c c', .kept c c' ∈ K → c.node ≠ e.node := by
  have hbare := h.alike.bare_exprs
  rw [← Expr.changeAllAt_eq_map, ← Expr.bareAll_eq, ← Expr.bareAll_eq] at hbare
  exact Expr.exists_faces hbare fun p hp c hc hnode => h.mem_concatOperands hp hc hnode

end Replacing

/-! ### The declarations -/

/-- The words that are looked up for a declared type and in its members. -/
def TypeDecl.lookedUp (decl : TypeDecl) : List String :=
  decl.words ++ ((exprs (parts decl)).flatMap Expr.within).flatMap Expr.ownWords

namespace DeclaredType

variable (document : Nat)

/-- The expressions of a type that is declared in a document. -/
def exprsIn (d : DeclaredType) : List Expr := if d.document = document then exprs (parts d.decl) else []

variable {document}

theorem exprsIn_of_eq {d : DeclaredType} (h : d.document = document) : d.exprsIn document = exprs (parts d.decl) :=
  if_pos h

theorem exprsIn_of_ne {d : DeclaredType} (h : d.document ≠ document) : d.exprsIn document = [] := if_neg h

/-- The expressions of a document are those of the types that are declared in it. -/
theorem flatMap_exprsIn (references : List Reference) {units : List CompilationUnit} {unit : CompilationUnit}
    (hunit : units[document]? = some unit) :
    (BoundProgram.declared references units).1.flatMap (exprsIn document) = exprs (parts unit) := by
  rw [CompilationUnit.exprs_parts, ← BoundProgram.decls_declareTypes hunit (Compilation.ofReferences references),
    List.flatMap_map]
  generalize (Compilation.declareTypes units (Compilation.ofReferences references)).1 = ds
  induction ds with
  | nil => rfl
  | cons d ds ih =>
    rw [List.flatMap_cons, List.filter_cons, ih]
    by_cases hd : d.document = document
    · rw [if_pos (by simpa using hd), List.flatMap_cons, exprsIn_of_eq hd]
    · rw [if_neg (by simpa using hd), exprsIn_of_ne hd, List.nil_append]

end DeclaredType

/-! ### The comparison -/

namespace Comparison

variable {C : Comparison} {knows : String → Prop}

/-- The comparison for a declaration in whose scopes some words mean the same. -/
def knowing (C : Comparison) (knows : String → Prop) : Comparison := { C with knows }

theorem Finding.knowing (h : C.Finding) : (C.knowing knows).Finding :=
  ⟨h.nonempty, h.forest, h.rootsLie, h.exists_parent, h.exists_type⟩

theorem Follows.of_knowing {α : Type} {m m' : StateM BindState α} (h : (C.knowing knows).Follows m m') :
    C.Follows m m' := fun s s' ha hl hl' => by
  obtain ⟨hdone, hr⟩ := h s s' ⟨ha.compilation, ha.coherent, ha.grows, ha.locals, ha.count⟩ hl hl'
  exact ⟨⟨hdone.compilation, hdone.coherent, hdone.grows, hdone.locals, hdone.count⟩, hr⟩

end Comparison

/-- Declarations are bound alike if everything in them is written alike, apart from operands that are replaced. -/
theorem DeclaredType.Alike.follows {C : Comparison} {f : Expr → Expr} {more : List String} {d d' : DeclaredType}
    (h : d.Alike f more d') {P : Expr → Expr → Prop} {K : List Counterpart}
    (hfaces : Expr.Faces P K (exprs (parts d.decl)) (exprs (parts d'.decl))) (hK : C.Keeps K) (hF : C.Finding)
    (htidy : ∀ a ∈ exprs (parts d.decl), a.Tidy) (houter : ∀ a ∈ exprs (parts d.decl), a.id ≠ C.hole.id)
    (hreplaced : ∀ c c', .replaced c c' ∈ K → C.Replaced c c') (hP : ∀ c c', C.Replaced c c' → ∃ x, P c x)
    (hwords : ∀ word ∈ d.decl.words, C.knows word) (hsurrounds : C.Surrounds d d') :
    C.Follows d.bindMembers d'.bindMembers := by
  obtain ⟨pairs, hes, hes', -, hC⟩ := TypeDecl.paired h.decl
  have htracks := Comparison.tracks_of_faces (hfaces.imp hreplaced hP) hK htidy fun _ _ => hF.tracksExpr
  rw [← hes, ← hes', List.forall₂_map_left_iff, List.forall₂_map_right_iff, List.forall₂_same] at htracks
  refine hC C (fun p hp => ?_) hwords d d' hsurrounds
  have hne : p.1.id ≠ C.hole.id := houter p.1 (hes ▸ List.mem_map_of_mem hp)
  obtain hreplaced | ⟨hkept, htracks⟩ := htracks p hp
  · exact absurd (congrArg Node.id hreplaced.node) hne
  · exact ⟨htracks, hK.sees _ _ hkept, hne⟩

namespace Replacing

open CultureLint.BoundProgram (declared ofUnits)

variable {full : Bool} {more : List String} {e : Expr} {unit unit' : CompilationUnit} {references : List Reference}
  {units : List CompilationUnit} {document : Nat} {C : Comparison}

/-- The places of what faces each other count alike, and so do those of the operand in itself and in the call. -/
structure CountsLike (C : Comparison) (full : Bool) (e : Expr) (K : List Counterpart) : Prop where
  outside : ∀ c c', .kept c c' ∈ K → C.CountsLike c c'
  inside : ∀ call, .replaced e call ∈ K →
    List.Forall₂ (fun c c' => c ∈ e.within → C.CountsLike c c') (e.formatted full).within call.within

/-- A declaration of the document is bound alike. -/
theorem follows (h : Replacing full more e unit unit') (hhole : C.hole = e.node) (hF : C.Finding)
    {K : List Counterpart} (hcounts : CountsLike C full e K)
    (hplain : ∀ c, c.Coherent → C.base.Grows c → ∀ T, C.sought.formats T = true → ∀ arg ref method,
      Bind.overload? c T "ToString" [arg] = some (ref, method) → method.returns.any C.sought.formats = false)
    (hkept : ∀ c c', .kept c c' ∈ K → c.node ≠ e.node) {d d' : DeclaredType}
    (hd : d.Alike (Expr.changeAt e.node (Expr.formatted full)) more d')
    (hsub : exprs (parts d.decl) ⊆ exprs (parts unit)) {H : List Counterpart} (hHK : H ⊆ K)
    (hH : Expr.Faces (Expr.Replaces e.node (Expr.formatted full)) H (exprs (parts d.decl)) (exprs (parts d'.decl)))
    (hagree : Scope.AgreeOn C.base d.decl.lookedUp d.scope d'.scope) :
    C.Follows d.bindMembers d'.bindMembers := by
  suffices (C.knowing (· ∈ d.decl.lookedUp)).Follows d.bindMembers d'.bindMembers from this.of_knowing
  have hin {c c' : Expr} (hc : .kept c c' ∈ H) : c ∈ (exprs (parts d.decl)).flatMap Expr.within := by
    rw [hH.flatMap_within.1]
    exact List.mem_flatMap.2 ⟨_, hc, List.mem_singleton_self c⟩
  have hunit {c : Expr} (hc : c ∈ (exprs (parts d.decl)).flatMap Expr.within) :
      c ∈ (exprs (parts unit)).flatMap Expr.within := by
    obtain ⟨a, ha, hca⟩ := List.mem_flatMap.1 hc
    exact List.mem_flatMap.2 ⟨a, hsub ha, hca⟩
  have hwords {c : Expr} (hc : c ∈ (exprs (parts d.decl)).flatMap Expr.within) {word : String}
      (hword : word ∈ c.ownWords) : word ∈ d.decl.lookedUp :=
    List.mem_append_right _ (List.mem_flatMap.2 ⟨c, hc, hword⟩)
  have hne {c : Expr} (hc : c ∈ (exprs (parts d.decl)).flatMap Expr.within) (hnot : c ≠ e) :
      c.id ≠ (C.knowing (· ∈ d.decl.lookedUp)).hole.id := fun hid =>
    hnot (h.eq_of_id_eq (hunit hc) (hid.trans (congrArg Node.id hhole)))
  have hK : (C.knowing (· ∈ d.decl.lookedUp)).Keeps H :=
    ⟨fun c c' hc => ⟨hcounts.outside c c' (hHK hc), (h.tidy_of_mem (hunit (hin hc)) c c.mem_within_self).nonempty⟩,
      fun c c' hc word hword => hwords (hin hc) hword, fun c c' _ b _ b' hb => hne (hin hb) ?_⟩
  · refine hd.follows hH hK hF.knowing (fun a ha => h.tidy a (hsub ha)) (fun a ha => ?_) (fun c c' hc => ?_)
      (fun c c' hc => ⟨_, hc.node.trans hhole, rfl⟩) (fun word hword => List.mem_append_left _ hword) ⟨hd.type, ?_⟩
    · refine hne (List.mem_flatMap.2 ⟨a, ha, a.mem_within_self⟩) ?_
      rintro rfl
      exact h.notMem_exprs (hsub ha)
    · obtain ⟨hnode, hbare⟩ := hH.of_mem hc
      have hmem : c ∈ (exprs (parts d.decl)).flatMap Expr.within := by
        rw [hH.flatMap_within.1]
        exact List.mem_flatMap.2 ⟨_, hc, c.mem_within_self⟩
      obtain rfl := h.eq_of_id_eq (hunit hmem) (congrArg Node.id hnode)
      have hwithin {x : Expr} (hx : x ∈ c.within) : x ∈ (exprs (parts d.decl)).flatMap Expr.within := by
        obtain ⟨a, ha, hca⟩ := List.mem_flatMap.1 hmem
        exact List.mem_flatMap.2 ⟨a, ha, Expr.mem_within_trans hx hca⟩
      refine hF.knowing.replaced_formatted hhole.symm hbare (h.tidy_of_mem h.mem_within)
        (hcounts.inside c' (hHK hc)) (fun x hx word hword => hwords (hwithin hx) hword) (fun x hx y hy => ?_) hplain
      refine hne (hwithin (Expr.mem_within_trans (Expr.mem_within_of_mem_children hy) hx)) ?_
      rintro rfl
      exact h.notMem_children hx hy
    · exact fun c hc word hword => hagree.mono (List.Subset.refl _) hc.sameNames word hword
  · rintro rfl
    exact hkept _ _ (hHK hb) rfl

/-- The programs have the same types and the same operations in the other documents. In the document as much is found,
but for the operand. -/
theorem ofUnits_edited (h : Replacing full more e unit unit') (hunit : units[document]? = some unit)
    (hbase : C.base = (declared references units).2)
    (hlast : C.last = (ofUnits references units).units[document]?.getD {})
    (hlast' : C.last' = (ofUnits references (units.set document unit')).units[document]?.getD {})
    (hhole : C.hole = e.node) (hF : C.Finding) {K : List Counterpart}
    (hfaces : Expr.Faces (Expr.Replaces e.node (Expr.formatted full)) K (exprs (parts unit)) (exprs (parts unit')))
    (hkept : ∀ c c', .kept c c' ∈ K → c.node ≠ e.node) (hcounts : CountsLike C full e K)
    (hplain : ∀ c, c.Coherent → C.base.Grows c → ∀ T, C.sought.formats T = true → ∀ arg ref method,
      Bind.overload? c T "ToString" [arg] = some (ref, method) → method.returns.any C.sought.formats = false)
    (hagree : List.Forall₂ (fun d d' => Scope.AgreeOn C.base d.decl.lookedUp d.scope d'.scope)
      (declared references units).1 (declared references (units.set document unit')).1) :
    (ofUnits references (units.set document unit')).compilation = (ofUnits references units).compilation ∧
      (∀ i ≠ document,
        (ofUnits references (units.set document unit')).units[i]? = (ofUnits references units).units[i]?) ∧
      C.last'.countJoined C.sought.types C.counts' = C.last.countJoined C.sought.types C.counts := by
  have hlt : document < units.length := (List.getElem?_eq_some_iff.1 hunit).1
  have hunit' : (units.set document unit')[document]? = some unit' := List.getElem?_set_self hlt
  obtain ⟨hall, -, hsame⟩ := Compilation.declareTypes_edited (Compilation.edited_set hunit h.alike)
    (Compilation.ofReferences references)
  have hlengths : List.Forall₂ (fun d d' : DeclaredType => (d'.exprsIn document).length = (d.exprsIn document).length)
      (declared references units).1 (declared references (units.set document unit')).1 := hall.imp fun d d' hd => by
    by_cases hdoc : d.document = document
    · rw [DeclaredType.exprsIn_of_eq hdoc, DeclaredType.exprsIn_of_eq ((hd.alike hdoc).document.trans hdoc)]
      exact TypeDecl.length_exprs (hd.alike hdoc).decl
    · rw [hd.same hdoc]
  have hparts := hfaces
  rw [← DeclaredType.flatMap_exprsIn references hunit, ← DeclaredType.flatMap_exprsIn references hunit'] at hparts
  have heach := hparts.forall₂ hlengths
  refine BoundProgram.ofUnits_edited hlt List.length_set hbase ?_ hlast hlast' ?_
  · refine (hsame (hagree.imp fun d d' hd => ?_)).trans hbase.symm
    exact hbase ▸ hd.mono (List.subset_append_left _ _) (.refl _)
  · refine List.forall₂_iff_zip.2 ⟨hall.length_eq, fun {d d'} hdd => ⟨(List.forall₂_zip hall hdd).same, fun hdoc => ?_⟩⟩
    have hd := (List.forall₂_zip hall hdd).alike hdoc
    obtain ⟨H, hHK, hH⟩ := List.forall₂_zip heach hdd
    rw [DeclaredType.exprsIn_of_eq hdoc, DeclaredType.exprsIn_of_eq (hd.document.trans hdoc)] at hH
    refine ⟨hd.document.trans hdoc, h.follows hhole hF hcounts hplain hkept hd (fun a ha => ?_) hHK hH
      (List.forall₂_zip hagree hdd)⟩
    rw [← DeclaredType.flatMap_exprsIn references hunit]
    exact List.mem_flatMap.2 ⟨d, (List.of_mem_zip hdd).1, (DeclaredType.exprsIn_of_eq hdoc).symm ▸ ha⟩

end Replacing

end CultureLint
