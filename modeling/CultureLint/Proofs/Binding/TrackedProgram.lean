import CultureLint.Proofs.Binding.TrackedMembers

/-! A program, and the same program in which expressions of one document are replaced: if these expressions are bound
alike, the programs have the same types and the same operations in all other documents, and as much is found in the
document. -/

namespace CultureLint

open CultureLint.Comparison (Surrounds Follows Tracks)
open CultureLint.Part (exprs)

variable {f : Expr → Expr} {g : List Using → List Using} {more : List String}

/-! ### Types -/

theorem TypeDecl.paired {decl decl' : TypeDecl} (h : bare decl' = bare (Outline.map f g decl)) :
    Paired f decl.words (exprs (parts decl)) (exprs (parts decl')) fun C => ∀ d d', C.Surrounds d d' →
      C.Follows (decl.members.forM d.bindMember) (decl'.members.forM d'.bindMember) := by
  have hmembers : bare decl'.members = bare (Outline.map f g decl.members) := (congrArg TypeDecl.members h :)
  have hpairs := Paired.list (fun _ _ h => MemberDecl.paired h) hmembers
  exact (hpairs.mono (List.subset_append_right _ _)).imp fun C hC d d' hd => .forM (hC.imp fun m m' hm => hm d d' hd)

namespace NamespaceMember

mutual

/-- The outermost expressions stand in the types. -/
theorem exprs_parts : (m : NamespaceMember) → exprs m.parts = m.types.flatMap fun decl => exprs (Outline.parts decl)
  | .namespaceDecl _ _ _ members _ => exprs_partsAll members
  | .typeDecl _ => (List.append_nil _).symm

theorem exprs_partsAll : (ms : List NamespaceMember) →
    exprs (partsAll ms) = (typesAll ms).flatMap fun decl => exprs (Outline.parts decl)
  | [] => rfl
  | m :: ms => by rw [partsAll, Part.exprs_append, exprs_parts, exprs_partsAll, typesAll, List.flatMap_append]

end

end NamespaceMember

theorem CompilationUnit.exprs_parts (unit : CompilationUnit) :
    exprs (parts unit) = unit.types.flatMap fun decl => exprs (parts decl) := by
  change exprs (parts unit.members) = _
  rw [← NamespaceMember.partsAll_eq]
  exact NamespaceMember.exprs_partsAll unit.members

/-! ### Expressions of alike documents -/

theorem TypeDecl.bare_exprs {decl decl' : TypeDecl} (h : bare decl' = bare (Outline.map f g decl)) :
    bare (exprs (parts decl')) = bare ((exprs (parts decl)).map f) := (TypeDecl.paired h).bare_eq

theorem TypeDecl.length_exprs {decl decl' : TypeDecl} (h : bare decl' = bare (Outline.map f g decl)) :
    (exprs (parts decl')).length = (exprs (parts decl)).length := by
  have hlength := congrArg List.length (bare_exprs h)
  simpa [bare] using hlength

namespace NamespaceMember

mutual

theorem Alike.bare_exprs {m m' : NamespaceMember} : m.Alike f more m' →
    Bare.bare (exprs m'.parts) = Bare.bare ((exprs m.parts).map f)
  | .namespaceDecl _ _ hms => hms.bare_exprs
  | .typeDecl h => TypeDecl.bare_exprs h

theorem AllAlike.bare_exprs {ms ms' : List NamespaceMember} : AllAlike f more ms ms' →
    Bare.bare (exprs (partsAll ms')) = Bare.bare ((exprs (partsAll ms)).map f)
  | .nil => rfl
  | .cons h hms => by
    rw [partsAll, partsAll, Part.exprs_append, Part.exprs_append, List.map_append, bare_append, bare_append,
      h.bare_exprs, hms.bare_exprs]

end

end NamespaceMember

theorem CompilationUnit.Alike.bare_exprs {unit unit' : CompilationUnit} (h : unit.Alike f more unit') :
    bare (exprs (parts unit')) = bare ((exprs (parts unit)).map f) := by
  have hms := h.members.bare_exprs
  rw [NamespaceMember.partsAll_eq, NamespaceMember.partsAll_eq] at hms
  exact hms

/-! ### Programs -/

/-- Binds the members of a type. -/
def DeclaredType.bindMembers (declared : DeclaredType) : StateM BindState Unit :=
  declared.decl.members.forM declared.bindMember

instance (declared : DeclaredType) : BindState.Adds declared.bindMembers :=
  inferInstanceAs (BindState.Adds (declared.decl.members.forM declared.bindMember))

namespace BoundProgram

variable {program : BoundProgram} {i : Nat}

/-- The state in which the members of a type of a document are bound. -/
def stateAt (program : BoundProgram) (i : Nat) : BindState :=
  { compilation := program.compilation, unit := program.units[i]?.getD {} }

theorem bindDeclared_eq (program : BoundProgram) (d : DeclaredType) : program.bindDeclared d =
    ⟨(d.bindMembers (program.stateAt d.document)).2.compilation,
      program.units.setIfInBounds d.document (d.bindMembers (program.stateAt d.document)).2.unit⟩ := rfl

theorem size_bindDeclared (program : BoundProgram) (d : DeclaredType) :
    (program.bindDeclared d).units.size = program.units.size := Array.size_setIfInBounds

theorem stateAt_bindDeclared (hi : i < program.units.size) {d : DeclaredType} (hd : d.document = i) :
    (program.bindDeclared d).stateAt i =
      { (d.bindMembers (program.stateAt i)).2 with locals := [] } := by
  subst hd
  rw [bindDeclared_eq, stateAt]
  simp [hi]

theorem getElem?_bindDeclared_of_ne {d : DeclaredType} (hd : d.document ≠ i) :
    (program.bindDeclared d).units[i]? = program.units[i]? := by
  rw [bindDeclared_eq]
  exact Array.getElem?_setIfInBounds_ne hd

/-- All operations are kept. -/
theorem extends_bindDeclared (program : BoundProgram) (d : DeclaredType) (i : Nat) :
    (program.stateAt i).unit.Extends ((program.bindDeclared d).stateAt i).unit := by
  by_cases hd : d.document = i
  · by_cases hi : i < program.units.size
    · rw [stateAt_bindDeclared hi hd]
      exact BindState.Adds.ext (m := d.bindMembers) _
    · have hout (program : BoundProgram) (hi : ¬ i < program.units.size) : program.units[i]?.getD {} = {} := by
        simp [Nat.le_of_not_lt hi]
      rw [stateAt, stateAt, hout program hi, hout _ (size_bindDeclared program d ▸ hi)]
      exact .refl _
  · rw [stateAt, stateAt, getElem?_bindDeclared_of_ne hd]
    exact .refl _

theorem extends_foldl_bindDeclared (ds : List DeclaredType) (program : BoundProgram) (i : Nat) :
    (program.stateAt i).unit.Extends ((ds.foldl bindDeclared program).stateAt i).unit := by
  induction ds generalizing program with
  | nil => exact .refl _
  | cons d ds ih => exact (extends_bindDeclared program d i).trans (ih _)

end BoundProgram

namespace Comparison

open CultureLint.BoundProgram (stateAt bindDeclared)

variable {C : Comparison} {document : Nat}

variable (C) in
/-- Two programs that differ in one document alone, in which as much is found. -/
structure Together (document : Nat) (program program' : BoundProgram) : Prop where
  bound : program.Bound fun _ _ => True
  lt : document < program.units.size
  size : program'.units.size = program.units.size
  others : ∀ i ≠ document, program'.units[i]? = program.units[i]?
  alike : C.Alike (program.stateAt document) (program'.stateAt document)

/-- A type of the document is bound alike in both, and any other type in the same way. -/
theorem Together.bindDeclared {program program' : BoundProgram} (h : C.Together document program program')
    {d d' : DeclaredType} (hhas : C.base.Has d.type) (hsame : d.document ≠ document → d' = d)
    (hfollows : d.document = document → d'.document = document ∧ C.Follows d.bindMembers d'.bindMembers)
    (hl : ((program.bindDeclared d).stateAt document).unit.Extends C.last)
    (hl' : ((program'.bindDeclared d').stateAt document).unit.Extends C.last') :
    C.Together document (program.bindDeclared d) (program'.bindDeclared d') := by
  obtain ⟨hbound, hgrows⟩ := BoundProgram.bound_bindDeclared h.bound (h.alike.grows.within.has hhas)
    fun _ _ _ _ => trivial
  have hlt : document < program'.units.size := h.size ▸ h.lt
  refine ⟨hbound, ?_, ?_, fun i hi => ?_, ?_⟩
  · rw [BoundProgram.size_bindDeclared]
    exact h.lt
  · rw [BoundProgram.size_bindDeclared, BoundProgram.size_bindDeclared, h.size]
  · by_cases hd : d.document = document
    · rw [BoundProgram.getElem?_bindDeclared_of_ne (by omega), h.others i hi,
        BoundProgram.getElem?_bindDeclared_of_ne (by have := (hfollows hd).1; omega)]
    · obtain rfl := hsame hd
      have hstate : program'.stateAt d'.document = program.stateAt d'.document := by
        rw [stateAt, stateAt, h.others _ hd, show program'.compilation = program.compilation from h.alike.compilation]
      rw [BoundProgram.bindDeclared_eq, BoundProgram.bindDeclared_eq, hstate]
      simp only [Array.getElem?_setIfInBounds, h.others i hi, h.size]
  · by_cases hd : d.document = document
    · obtain ⟨hd', hfollows⟩ := hfollows hd
      rw [BoundProgram.stateAt_bindDeclared h.lt hd] at hl ⊢
      rw [BoundProgram.stateAt_bindDeclared hlt hd'] at hl' ⊢
      obtain ⟨ha, -⟩ := hfollows _ _ h.alike hl hl'
      exact ⟨ha.compilation, ha.coherent, ha.grows, rfl, ha.count⟩
    · obtain rfl := hsame hd
      have hstate : program'.stateAt d'.document = program.stateAt d'.document := by
        rw [stateAt, stateAt, h.others _ hd, show program'.compilation = program.compilation from h.alike.compilation]
      have hcount := h.alike.count
      refine ⟨?_, hbound.coherent, h.alike.grows.trans hgrows, rfl, ?_⟩
      · change (d'.bindMembers (program'.stateAt d'.document)).2.compilation = _
        rw [hstate]
        rfl
      · simp only [stateAt, BoundProgram.getElem?_bindDeclared_of_ne hd]
        exact hcount

/-- The same of all types one after the other. -/
theorem Together.foldl {ds ds' : List DeclaredType} (hds : List.Forall₂ (fun d d' => (d.document ≠ document → d' = d) ∧
      (d.document = document → d'.document = document ∧ C.Follows d.bindMembers d'.bindMembers)) ds ds')
    (hhas : ∀ d ∈ ds, C.base.Has d.type) {program program' : BoundProgram}
    (h : C.Together document program program')
    (hl : ((ds.foldl BoundProgram.bindDeclared program).stateAt document).unit.Extends C.last)
    (hl' : ((ds'.foldl BoundProgram.bindDeclared program').stateAt document).unit.Extends C.last') :
    C.Together document (ds.foldl BoundProgram.bindDeclared program)
      (ds'.foldl BoundProgram.bindDeclared program') := by
  induction hds generalizing program program' with
  | nil => exact h
  | @cons d d' ds ds' hd _ ih =>
    obtain ⟨hfirst, hrest⟩ := List.forall_mem_cons.1 hhas
    refine ih hrest (h.bindDeclared hfirst hd.1 hd.2 ?_ ?_) hl hl'
    · exact (BoundProgram.extends_foldl_bindDeclared ds _ document).trans hl
    · exact (BoundProgram.extends_foldl_bindDeclared ds' _ document).trans hl'

end Comparison

namespace BoundProgram

/-- The types that documents declare, and all types of their program. -/
abbrev declared (references : List Reference) (units : List CompilationUnit) : List DeclaredType × Compilation :=
  Compilation.declareTypes units (Compilation.ofReferences references)

theorem ofUnits_eq (references : List Reference) (units : List CompilationUnit) : ofUnits references units =
    (declared references units).1.foldl bindDeclared
      ⟨(declared references units).2, Array.replicate units.length {}⟩ := rfl

/-- If the declarations of an edited document are bound alike one by one, the program is the same but for that
document, in which as much is found. -/
theorem ofUnits_edited {references : List Reference} {units units' : List CompilationUnit} {document : Nat}
    {C : Comparison} (hdocument : document < units.length) (hlength : units'.length = units.length)
    (hbase : C.base = (declared references units).2) (hbase' : (declared references units').2 = C.base)
    (hlast : C.last = (ofUnits references units).units[document]?.getD {})
    (hlast' : C.last' = (ofUnits references units').units[document]?.getD {})
    (h : List.Forall₂ (fun d d' => (d.document ≠ document → d' = d) ∧
        (d.document = document → d'.document = document ∧ C.Follows d.bindMembers d'.bindMembers))
      (declared references units).1 (declared references units').1) :
    (ofUnits references units').compilation = (ofUnits references units).compilation ∧
      (∀ i ≠ document, (ofUnits references units').units[i]? = (ofUnits references units).units[i]?) ∧
      C.last'.countJoined C.sought.types C.counts' = C.last.countJoined C.sought.types C.counts := by
  obtain ⟨_, hcoherent, hdeclared⟩ :=
    Compilation.declares_declareTypes units (Compilation.coherent_ofReferences references)
  change (declared references units).2.Coherent at hcoherent
  rw [← hbase] at hcoherent
  have hstart : C.Together document ⟨C.base, Array.replicate units.length {}⟩
      ⟨C.base, Array.replicate units'.length {}⟩ := by
    refine ⟨⟨hcoherent, fun i unit hunit => ?_⟩, by simpa using hdocument, by simp [hlength],
      fun i _ => by rw [hlength], ?_⟩
    · obtain rfl : unit = {} := by
        rw [Array.getElem?_replicate] at hunit
        split at hunit
        · exact (Option.some.inj hunit).symm
        · cases hunit
      exact UnitInv.empty hcoherent
    · have hempty (n : Nat) : (Array.replicate n ({} : BoundUnit))[document]?.getD {} = {} := by
        rw [Array.getElem?_replicate]
        split <;> rfl
      simp only [stateAt, hempty]
      exact ⟨rfl, hcoherent, .refl _, rfl, rfl⟩
  have hdone := hstart.foldl h (fun d hd => ?_) ?_ ?_
  · rw [ofUnits_eq, ofUnits_eq, ← hbase, hbase']
    refine ⟨hdone.alike.compilation, hdone.others, ?_⟩
    rw [hlast, hlast', ofUnits_eq, ofUnits_eq, hbase', ← hbase]
    exact hdone.alike.count
  · obtain ⟨_, _, hd⟩ := hdeclared d hd
    exact hbase ▸ hd.type
  · rw [hlast, ofUnits_eq, ← hbase]
    exact .refl _
  · rw [hlast', ofUnits_eq, hbase']
    exact .refl _

end BoundProgram

end CultureLint
