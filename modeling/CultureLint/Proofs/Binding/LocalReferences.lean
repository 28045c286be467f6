import CultureLint.Proofs.Binding.LayingProgram
import CultureLint.Proofs.Binding.LexicalScope

/-! The local references of whole programs. What is bound on its own in a document is a body or the initial
value of a variable that is no local, and for each of them the operations on variables are those of its
events. So every local reference of a document stands for a name in one of its bodies, and has the type of
the declaration that is visible there. -/

namespace CultureLint

/-! ### References in a body -/

namespace TypedEvent

theorem mem_tellsAll {scopes : List Variables} {events : List TypedEvent} {d : Declarator} {type : Option TypeId}
    (h : .declaration (d, type) ∈ events) : .declares d.name.name type d.span.origin ∈ tellsAll scopes events := by
  induction events generalizing scopes with
  | nil => cases h
  | cons event events ih =>
    rw [tellsAll, List.mem_append]
    rcases List.mem_cons.1 h with rfl | h
    · exact .inl (List.mem_singleton.2 rfl)
    · exact .inr (ih h)

/-- An event adds at most one operation. -/
theorem tells_cases (scopes : List Variables) (event : TypedEvent) :
    event.tells scopes = [] ∨
      (∃ (d : Declarator) (type : Option TypeId), event.tells scopes = [.declares d.name.name type d.span.origin]) ∨
      ∃ (node : Node) (word : String) (type : Option TypeId), event = .use node word ∧
        scopes.flatten.lookup word = some type ∧ event.tells scopes = [.refers word type node.origin] := by
  cases event with
  | opening | closing => exact .inl rfl
  | declaration entry => exact .inr (.inl ⟨entry.1, entry.2, rfl⟩)
  | use node word =>
    cases hfound : scopes.flatten.lookup word with
    | none =>
      left
      rw [tells, hfound]
      rfl
    | some type =>
      right
      right
      refine ⟨node, word, type, rfl, hfound, ?_⟩
      rw [tells, hfound]
      rfl

/-- A reference is added where the name is used, behind what was added for the events in front of it. -/
theorem exists_use {scopes : List Variables} {events : List TypedEvent} {front rest : List LocalOperation}
    {word : String} {type : Option TypeId} {origin : Origin}
    (h : tellsAll scopes events = front ++ .refers word type origin :: rest) :
    ∃ before node after, events = before ++ .use node word :: after ∧ origin = node.origin ∧
      (replay scopes before).flatten.lookup word = some type ∧ front = tellsAll scopes before := by
  induction events generalizing scopes front with
  | nil => simp [tellsAll] at h
  | cons event events ih =>
    rw [tellsAll] at h
    -- Whatever is added for the first event, the reference may stand behind it.
    have hbehind {back : List LocalOperation} (hfront : front = event.tells scopes ++ back)
        (hback : tellsAll (event.step scopes) events = back ++ .refers word type origin :: rest) :
        ∃ before node after, event :: events = before ++ .use node word :: after ∧ origin = node.origin ∧
          (replay scopes before).flatten.lookup word = some type ∧ front = tellsAll scopes before := by
      obtain ⟨before, node, after, rfl, horigin, hlookup, rfl⟩ := ih hback
      exact ⟨event :: before, node, after, rfl, horigin, hlookup, hfront⟩
    rcases tells_cases scopes event with hnone | ⟨d, type', hone⟩ | ⟨node, word', type', rfl, hlookup, hone⟩
    · rw [hnone, List.nil_append] at h
      exact hbehind (by rw [hnone, List.nil_append]) h
    · rw [hone, List.singleton_append, List.cons_eq_append_iff] at h
      rcases h with ⟨-, h⟩ | ⟨back, rfl, h⟩
      · cases h
      · exact hbehind (by rw [hone, List.singleton_append]) h
    · rw [hone, List.singleton_append, List.cons_eq_append_iff] at h
      rcases h with ⟨rfl, h⟩ | ⟨back, rfl, h⟩
      · obtain ⟨hrefers, -⟩ := List.cons.inj h
        cases hrefers
        exact ⟨[], node, events, rfl, rfl, hlookup, rfl⟩
      · exact hbehind (by rw [hone, List.singleton_append]) h

/-- A name that is found adds a reference. -/
theorem refers_mem_tellsAll {scopes : List Variables} {before after : List TypedEvent} {node : Node} {word : String}
    {type : Option TypeId} (h : (replay scopes before).flatten.lookup word = some type) :
    .refers word type node.origin ∈ tellsAll scopes (before ++ .use node word :: after) := by
  rw [tellsAll_append, tellsAll, tells, h]
  simp

/-- Names alone add nothing where no scope is open. -/
theorem tellsAll_uses {e : Expr} {events : List TypedEvent} (h : events.map plain = e.uses) :
    tellsAll [] events = [] := by
  have huse : ∀ event ∈ events, ∃ node word, event = .use node word := by
    intro event hevent
    have hplain : event.plain ∈ e.uses := h ▸ List.mem_map_of_mem hevent
    obtain ⟨part, -, hpart⟩ := List.mem_filterMap.1 hplain
    cases part with
    | name node word => exact ⟨node, word, ScopeEvent.map_eq_use (Option.some.inj hpart).symm⟩
    | _ => cases hpart
  clear h
  induction events with
  | nil => rfl
  | cons event events ih =>
    obtain ⟨hevent, hevents⟩ := List.forall_mem_cons.1 huse
    obtain ⟨node, word, rfl⟩ := hevent
    exact ih hevents

end TypedEvent

/-! ### Roots -/

/-- What is bound on its own: a body, or the initial value of a field or property. -/
inductive Root
  | body (b : Body)
  | initial (name : Ident) (value : Expr)

/-- The operations on variables are those of the root. -/
def Root.Tells : Root → List LocalOperation → Prop
  | .body b, told => ∃ typed : List TypedEvent, typed.map TypedEvent.plain = b.events ∧
      told = TypedEvent.tellsAll [] typed
  | .initial name value, told => ∃ type, told = [.declares name.name type (name.span.cover value.span).origin]

def Declarator.roots (d : Declarator) : List Root := (d.value.map (Root.initial d.name)).toList

def Accessor.roots (a : Accessor) : List Root := (a.body.map Root.body).toList

def PropertyBody.roots : PropertyBody → List Root
  | .accessors items => items.flatMap Accessor.roots
  | .arrow value => [.body (.arrow value)]

def MemberDecl.roots : MemberDecl → List Root
  | .field decl => decl.declarators.flatMap Declarator.roots
  | .property decl => decl.body.roots ++ (decl.value.map (Root.initial decl.name)).toList
  | .method decl => (decl.body.map Root.body).toList

def TypeDecl.roots (type : TypeDecl) : List Root := type.members.flatMap MemberDecl.roots

/-- All that is bound on its own in a document, in the order of the text. -/
def CompilationUnit.roots (unit : CompilationUnit) : List Root := unit.types.flatMap TypeDecl.roots

/-- One document has the operations on variables of another, and behind them those of some roots. -/
def TellRoots (roots : List Root) (unit later : BoundUnit) : Prop :=
  ∃ parts, List.Forall₂ Root.Tells roots parts ∧ later.locals = unit.locals ++ parts.flatten

namespace TellRoots

variable {roots roots' : List Root} {unit later last : BoundUnit} {s : BindState} {α : Type}

theorem refl (unit : BoundUnit) : TellRoots [] unit unit := ⟨[], .nil, (List.append_nil _).symm⟩

theorem trans (h : TellRoots roots unit later) (h' : TellRoots roots' later last) :
    TellRoots (roots ++ roots') unit last := by
  obtain ⟨parts, hparts, hlater⟩ := h
  obtain ⟨parts', hparts', hlast⟩ := h'
  refine ⟨parts ++ parts', List.rel_append hparts hparts', ?_⟩
  rw [hlast, hlater, List.flatten_append, List.append_assoc]

theorem single {root : Root} {told : List LocalOperation} (h : root.Tells told)
    (hlater : later.locals = unit.locals ++ told) : TellRoots [root] unit later :=
  ⟨[told], .cons h .nil, by rw [hlater, List.flatten_singleton]⟩

/-- A step that binds nothing changes nothing for the next one. -/
theorem skip {m : StateM BindState α} {f : α → StateM BindState Unit} (hm : (m s).2.unit = s.unit)
    (h : TellRoots roots (m s).2.unit (f (m s).1 (m s).2).2.unit) :
    TellRoots roots s.unit ((m >>= f) s).2.unit := by
  rw [← hm]
  exact h

theorem forM {f : α → StateM BindState Unit} {g : α → List Root}
    (h : ∀ a s, TellRoots (g a) s.unit (f a s).2.unit) (as : List α) :
    TellRoots (as.flatMap g) s.unit (as.forM f s).2.unit := by
  induction as generalizing s with
  | nil => exact .refl _
  | cons a as ih =>
    rw [List.flatMap_cons]
    exact (h a s).trans ih

end TellRoots

namespace DeclaredType

variable {s : BindState} {frame : Frame}

theorem tellRoots_body (body : Body) :
    TellRoots [.body body] s.unit (bindRoot frame body.bind s).2.unit := by
  obtain ⟨typed, htyped, -, hunit⟩ := body.follows_bind frame { s with locals := [] }
  exact .single ⟨typed, htyped, rfl⟩ hunit

theorem tellRoots_bindInitializer (name : Ident) (value : Expr) (type : Option TypeId) :
    TellRoots [.initial name value] s.unit (bindInitializer frame name value type s).2.unit := by
  let start : BindState := { s with locals := [] }
  obtain ⟨typed, htyped, -, hunit⟩ := value.follows_bindConverted type frame start
  rw [TypedEvent.tellsAll_uses htyped, List.append_nil] at hunit
  have hadd := (value.bindConverted type frame start).2.unit.locals_add
    ⟨.variableDeclaration name.name (some (value.bindConverted type frame start).1), type,
      (name.span.cover value.span).origin, false, none⟩
  rw [hunit] at hadd
  exact .single ⟨type, rfl⟩ hadd

theorem tellRoots_bindAccessor (type : Option TypeId) (accessor : Accessor) :
    TellRoots accessor.roots s.unit (bindAccessor frame type accessor s).2.unit := by
  obtain ⟨kind, body⟩ := accessor
  cases body with
  | none => exact .refl _
  | some body =>
    cases kind with
    | get => exact tellRoots_body body
    | set | init => exact tellRoots_body body

variable (declared : DeclaredType)

theorem tellRoots_bindMember (member : MemberDecl) :
    TellRoots member.roots s.unit (declared.bindMember member s).2.unit := by
  cases member with
  | field decl =>
    apply TellRoots.skip (declared.unit_resolveType decl.type)
    apply TellRoots.forM
    intro d s
    obtain ⟨name, value⟩ := d
    cases value with
    | none => exact .refl _
    | some value => exact tellRoots_bindInitializer name value _
  | property decl =>
    obtain ⟨attributes, modifiers, type, name, body, value, span⟩ := decl
    apply TellRoots.skip (declared.unit_resolveType type)
    cases value with
    | none =>
      cases body with
      | arrow inner => exact (tellRoots_body (.arrow inner)).trans (.refl _)
      | accessors items => exact (TellRoots.forM (fun a s => tellRoots_bindAccessor _ a) items).trans (.refl _)
    | some value =>
      cases body with
      | arrow inner => exact (tellRoots_body (.arrow inner)).trans (tellRoots_bindInitializer name value _)
      | accessors items =>
        exact (TellRoots.forM (fun a s => tellRoots_bindAccessor _ a) items).trans
          (tellRoots_bindInitializer name value _)
  | method decl =>
    obtain ⟨attributes, modifiers, returns, name, parameters, body, span⟩ := decl
    cases body with
    | none => exact .refl _
    | some body =>
      have hbody {returns : Option TypeId} {s : BindState} : TellRoots [.body body] s.unit ((do
          let parameters ← parameters.mapM fun p => do
            return (p.name.name, ← declared.resolveType p.type)
          bindRoot { declared.frame modifiers with returns, parameters } body.bind :
            StateM BindState Unit) s).2.unit :=
        .skip (declared.unit_parameters parameters) (tellRoots_body body)
      cases returns with
      | some type => exact .skip (declared.unit_resolveType type) hbody
      | none => exact hbody

end DeclaredType

/-! ### Programs -/

namespace BoundProgram

variable {program : BoundProgram} {unit : BoundUnit} {i : Nat}

theorem tellRoots_bindDeclared {d : DeclaredType} (hu : program.units[d.document]? = some unit) :
    ∃ later, (program.bindDeclared d).units[d.document]? = some later ∧ TellRoots d.decl.roots unit later := by
  have hmembers (s : BindState) : TellRoots d.decl.roots s.unit (d.decl.members.forM d.bindMember s).2.unit :=
    .forM (fun member _ => d.tellRoots_bindMember member) d.decl.members
  have hd := (Array.getElem?_eq_some_iff.1 hu).1
  refine ⟨_, Array.getElem?_setIfInBounds_self_of_lt hd, ?_⟩
  have hstart := hmembers ⟨program.compilation, program.units[d.document]?.getD {}, []⟩
  rw [hu] at hstart ⊢
  exact hstart

theorem tellRoots_foldl_bindDeclared (ds : List DeclaredType) (hu : program.units[i]? = some unit) :
    ∃ later, (ds.foldl bindDeclared program).units[i]? = some later ∧
      TellRoots (((ds.filter (·.document = i)).map (·.decl)).flatMap TypeDecl.roots) unit later := by
  induction ds generalizing program unit with
  | nil => exact ⟨unit, hu, .refl _⟩
  | cons d ds ih =>
    by_cases hd : d.document = i
    · rw [List.filter_cons_of_pos (by simpa using hd), List.map_cons, List.flatMap_cons]
      subst hd
      obtain ⟨next, hnext, htell⟩ := tellRoots_bindDeclared hu
      obtain ⟨later, hlater, htell'⟩ := ih hnext
      exact ⟨later, hlater, htell.trans htell'⟩
    · rw [List.filter_cons_of_neg (by simpa using hd)]
      exact ih ((units_bindDeclared_of_ne hd).trans hu)

theorem tellRoots_ofUnits (references : List Reference) {units : List CompilationUnit} {unit : CompilationUnit}
    (hu : units[i]? = some unit) :
    ∃ bound, (ofUnits references units).units[i]? = some bound ∧ TellRoots unit.roots {} bound := by
  have hstart : (Array.replicate units.length ({} : BoundUnit))[i]? = some {} := by
    rw [Array.getElem?_replicate, if_pos (List.getElem?_eq_some_iff.1 hu).1]
  have hroots := decls_declareTypes hu (Compilation.ofReferences references)
  let start : BoundProgram := ⟨(Compilation.declareTypes units (Compilation.ofReferences references)).2,
    Array.replicate units.length {}⟩
  rw [CompilationUnit.roots, ← hroots]
  exact tellRoots_foldl_bindDeclared _ (show start.units[i]? = some {} from hstart)

end BoundProgram

/-! ### References in a document -/

namespace Root

variable {roots : List Root} {parts : List (List LocalOperation)} {told front rest : List LocalOperation}
  {word : String} {type : Option TypeId} {origin : Origin}

/-- A reference that a root adds stands for a name in a body. Its type is that of the declaration that is
visible there, which was added in front of it. -/
theorem Tells.exists_use {root : Root} (h : root.Tells told)
    (htold : told = front ++ .refers word type origin :: rest) :
    ∃ body before node after d, root = .body body ∧ body.events = before ++ .use node word :: after ∧
      origin = node.origin ∧ ScopeEvent.IsVisible word before d ∧ .declares word type d.span.origin ∈ front := by
  cases root with
  | initial name value =>
    obtain ⟨type', rfl⟩ := h
    simp [List.singleton_eq_append_iff] at htold
  | body body =>
    obtain ⟨typed, htyped, rfl⟩ := h
    obtain ⟨before, node, after, rfl, horigin, hlookup, rfl⟩ := TypedEvent.exists_use htold
    rw [TypedEvent.flatten_replay_nil] at hlookup
    obtain ⟨d, hd, hvisible⟩ := TypedEvent.isVisible_of_lookup hlookup
    refine ⟨body, before.map TypedEvent.plain, node, after.map TypedEvent.plain, d, rfl, ?_, horigin, hvisible, ?_⟩
    · rw [← htyped, List.map_append, List.map_cons]
      rfl
    · rw [← hvisible.name_eq]
      exact TypedEvent.mem_tellsAll hd

/-- The same holds of a reference among those that several roots add. -/
theorem exists_use (h : List.Forall₂ Root.Tells roots parts)
    (hparts : parts.flatten = front ++ .refers word type origin :: rest) :
    ∃ body before node after d, .body body ∈ roots ∧ body.events = before ++ .use node word :: after ∧
      origin = node.origin ∧ ScopeEvent.IsVisible word before d ∧ .declares word type d.span.origin ∈ front := by
  induction h generalizing front with
  | nil => simp at hparts
  | @cons root told roots parts hroot _ ih =>
    rw [List.flatten_cons, List.append_eq_append_iff] at hparts
    rcases hparts with ⟨back, rfl, hback⟩ | ⟨back, rfl, hback⟩
    · obtain ⟨body, before, node, after, d, hbody, hevents, horigin, hvisible, hd⟩ := ih hback
      exact ⟨body, before, node, after, d, .tail _ hbody, hevents, horigin, hvisible, List.mem_append_right _ hd⟩
    · cases back with
      | nil =>
        have hflat : parts.flatten = [] ++ .refers word type origin :: rest := hback.symm
        obtain ⟨_, _, _, _, _, -, -, -, -, hd⟩ := ih hflat
        cases hd
      | cons told back =>
        obtain ⟨rfl, rfl⟩ := List.cons.inj hback
        obtain ⟨body, before, node, after, d, rfl, huse⟩ := hroot.exists_use rfl
        exact ⟨body, before, node, after, d, .head _, huse⟩

/-- A name that is used where a declaration of it is visible adds a reference. -/
theorem refers_mem_flatten (h : List.Forall₂ Root.Tells roots parts) {body : Body}
    (hbody : .body body ∈ roots) {before after : List (ScopeEvent Declarator)} {node : Node} {d : Declarator}
    (hevents : body.events = before ++ .use node word :: after) (hvisible : ScopeEvent.IsVisible word before d) :
    ∃ type, .refers word type node.origin ∈ parts.flatten := by
  induction h with
  | nil => cases hbody
  | @cons root told roots parts hroot _ ih =>
    rcases List.mem_cons.1 hbody with rfl | hbody
    · obtain ⟨typed, htyped, rfl⟩ := hroot
      rw [hevents] at htyped
      obtain ⟨front, back, rfl, rfl, hback⟩ := List.map_eq_append_iff.1 htyped
      obtain ⟨event, back, rfl, hevent, -⟩ := List.map_eq_cons_iff.1 hback
      obtain rfl := ScopeEvent.map_eq_use hevent
      obtain ⟨type, -, hlookup⟩ := TypedEvent.lookup_of_isVisible hvisible
      rw [← TypedEvent.flatten_replay_nil] at hlookup
      rw [List.flatten_cons]
      exact ⟨type, List.mem_append_left _ (TypedEvent.refers_mem_tellsAll hlookup)⟩
    · obtain ⟨type, htype⟩ := ih hbody
      rw [List.flatten_cons]
      exact ⟨type, List.mem_append_right _ htype⟩

end Root

/-! ### Operations of a document -/

namespace Operation

variable {op : Operation} {word : String} {type : Option TypeId} {origin : Origin}

theorem local?_eq_declares : op.local? = some (.declares word type origin) ↔
    (∃ value, op.kind = .variableDeclaration word value) ∧ op.type = type ∧ op.origin = origin := by
  obtain ⟨kind, type', origin', isImplicit, parent⟩ := op
  cases kind <;> simp [local?]

theorem local?_eq_refers : op.local? = some (.refers word type origin) ↔
    op.kind = .localReference word ∧ op.type = type ∧ op.origin = origin := by
  obtain ⟨kind, type', origin', isImplicit, parent⟩ := op
  cases kind <;> simp [local?]

end Operation

namespace BoundUnit

variable {unit : BoundUnit} {told : LocalOperation}

theorem exists_of_mem_locals (h : told ∈ unit.locals) :
    ∃ id op, unit.get? id = some op ∧ op.local? = some told := by
  obtain ⟨op, hop, hlocal⟩ := List.mem_filterMap.1 h
  obtain ⟨index, hindex⟩ := List.mem_iff_getElem?.1 hop
  rw [Array.getElem?_toList] at hindex
  exact ⟨⟨index⟩, op, hindex, hlocal⟩

/-- What was added in front of an operation has a smaller number. -/
theorem locals_eq_append {id : OperationId} {op : Operation} (hop : unit.get? id = some op)
    (hlocal : op.local? = some told) : ∃ front rest, unit.locals = front ++ told :: rest ∧ ∀ told' ∈ front,
      ∃ id' op', unit.get? id' = some op' ∧ id'.index < id.index ∧ op'.local? = some told' := by
  let ops := unit.operations.toList
  have hindex : ops[id.index]? = some op := by
    rw [Array.getElem?_toList]
    exact hop
  obtain ⟨hlt, hget⟩ := List.getElem?_eq_some_iff.1 hindex
  refine ⟨(ops.take id.index).filterMap Operation.local?,
    (ops.drop (id.index + 1)).filterMap Operation.local?, ?_, ?_⟩
  · rw [← List.filterMap_cons_some hlocal, ← hget, List.getElem_cons_drop, ← List.filterMap_append,
      List.take_append_drop, locals]
  · intro told' h
    obtain ⟨op', hop', hlocal'⟩ := List.mem_filterMap.1 h
    obtain ⟨index, hindex'⟩ := List.mem_iff_getElem?.1 hop'
    rw [List.getElem?_take, Option.ite_none_right_eq_some, Array.getElem?_toList] at hindex'
    obtain ⟨hbelow, hop'⟩ := hindex'
    exact ⟨⟨index⟩, op', hop', hbelow, hlocal'⟩

end BoundUnit

/-! ### Locals in scope -/

/-- The references to locals in a document are the names in its bodies for which a declaration is visible,
and they have the type of that declaration. -/
structure LocalsInScope (roots : List Root) (unit : BoundUnit) : Prop where
  reference : ∀ id op word, unit.get? id = some op → op.kind = .localReference word →
    ∃ body before node after d, .body body ∈ roots ∧ body.events = before ++ .use node word :: after ∧
      op.origin = node.origin ∧ ScopeEvent.IsVisible word before d ∧
      ∃ id' op' value, unit.get? id' = some op' ∧ id'.index < id.index ∧
        op'.kind = .variableDeclaration word value ∧ op'.type = op.type ∧ op'.origin = d.span.origin
  use : ∀ body before node word after d, .body body ∈ roots → body.events = before ++ .use node word :: after →
    ScopeEvent.IsVisible word before d →
      ∃ id op, unit.get? id = some op ∧ op.kind = .localReference word ∧ op.origin = node.origin

theorem TellRoots.localsInScope {roots : List Root} {unit : BoundUnit} (h : TellRoots roots {} unit) :
    LocalsInScope roots unit := by
  obtain ⟨parts, hparts, hunit⟩ := h
  replace hunit : unit.locals = parts.flatten := hunit
  constructor
  · intro id op word hop hkind
    obtain ⟨front, rest, hlocals, hfront⟩ :=
      BoundUnit.locals_eq_append hop (Operation.local?_eq_refers.2 ⟨hkind, rfl, rfl⟩)
    obtain ⟨body, before, node, after, d, hbody, hevents, horigin, hvisible, hd⟩ :=
      Root.exists_use hparts (hunit.symm.trans hlocals)
    obtain ⟨id', op', hop', hbelow, hlocal⟩ := hfront _ hd
    obtain ⟨⟨value, hkind'⟩, hdeclared⟩ := Operation.local?_eq_declares.1 hlocal
    exact ⟨body, before, node, after, d, hbody, hevents, horigin, hvisible,
      id', op', value, hop', hbelow, hkind', hdeclared⟩
  · intro body before node word after d hbody hevents hvisible
    obtain ⟨type, hmem⟩ := Root.refers_mem_flatten hparts hbody hevents hvisible
    rw [← hunit] at hmem
    obtain ⟨id, op, hop, hlocal⟩ := BoundUnit.exists_of_mem_locals hmem
    obtain ⟨hkind, -, horigin⟩ := Operation.local?_eq_refers.1 hlocal
    exact ⟨id, op, hop, hkind, horigin⟩

theorem Project.tellRoots_of_mem_snapshots {p : Project} {s : Snapshot} (hs : s ∈ p.snapshots) :
    TellRoots s.document.tree.unit.roots {} s.unit := by
  obtain ⟨⟨document, index⟩, hi, rfl⟩ := List.mem_map.1 hs
  have hdocument : (p.documents.map (·.tree.unit))[index]? = some document.tree.unit := by
    rw [List.getElem?_map, List.mem_zipIdx_iff_getElem?.1 hi]
    rfl
  obtain ⟨bound, hbound, htell⟩ := BoundProgram.tellRoots_ofUnits p.references hdocument
  show TellRoots _ _ (p.bind.units[index]?.getD {})
  rw [show p.bind.units[index]? = some bound from hbound]
  exact htell

/-- Locals follow lexical scope. A statement adds the variables that it declares to the innermost scope, the
latest first, and leaves all others alone; a block and a `for` leave every scope as it was. In a document
the references to locals are the names for which a declaration is visible, and have its type. -/
theorem Project.locals_in_scope :
    (∀ (s : Stmt) (frame : Frame) (state : BindState) (innermost : Variables) (outer : List Variables),
      state.locals = innermost :: outer →
        ∃ added : Variables, (s.bind frame state).2.locals = (added ++ innermost) :: outer ∧
          added.map Prod.fst = (s.declared.map (·.name.name)).reverse) ∧
    (∀ statements span frame state, ((Stmt.block statements span).bind frame state).2.locals = state.locals) ∧
    (∀ start condition iterators body span frame state,
      ((Stmt.forLoop start condition iterators body span).bind frame state).2.locals = state.locals) ∧
    ∀ p : Project, ∀ s ∈ p.snapshots, LocalsInScope s.document.tree.unit.roots s.unit := by
  refine ⟨?_, Stmt.locals_bind_block, Stmt.locals_bind_forLoop, ?_⟩
  · intro s frame state innermost outer h
    exact s.locals_bind frame state h
  · intro p s hs
    exact (Project.tellRoots_of_mem_snapshots hs).localsInScope

/-- A method in which a block declares a variable again, with another type. -/
def shadowingText : String := "class C\x7bvoid M()\x7bstring a=\"\";\x7bint a=1;a+=a;\x7da+=a;\x7d\x7d"

theorem Project.locals_in_scope_shadowing : ∃ (p : Project) (s : Snapshot) (string int : TypeId),
    s ∈ p.snapshots ∧ string ≠ int ∧
    s.compilation.special? .string = some string ∧ s.compilation.special? .int32 = some int ∧
    (s.unit.operations.toList.filterMap fun op => if op.kind = .localReference "a" then op.type else none) =
      [int, int, string, string] ∧
    LocalsInScope s.document.tree.unit.roots s.unit ∧
    ∃ added : Variables, ((Stmt.locals (.implicit ⟨4, 7, by decide⟩)
        [⟨⟨"a", ⟨8, 9, by decide⟩⟩, none⟩] ⟨4, 10, by decide⟩).bind ⟨{}, string, false, none, []⟩
          ⟨s.compilation, s.unit, [[("b", some int)], []]⟩).2.locals = [added ++ [("b", some int)], []] ∧
      added.map Prod.fst = ["a"] := by
  have found : ((Document.parse "C.cs" shadowingText).toOption.any fun d =>
      (Project.mk [.core, .globalization] [d]).snapshots.any fun s =>
        s.compilation.special? .string = some ⟨3⟩ ∧ s.compilation.special? .int32 = some ⟨6⟩ ∧
        (s.unit.operations.toList.filterMap fun op => if op.kind = .localReference "a" then op.type else none) =
          [⟨6⟩, ⟨6⟩, ⟨3⟩, ⟨3⟩]) = true := by decide +kernel
  obtain ⟨d, -, found⟩ := Option.any_eq_true _ _ |>.1 found
  obtain ⟨s, hs, found⟩ := List.any_eq_true.1 found
  obtain ⟨hstring, hint, htypes⟩ := of_decide_eq_true found
  obtain ⟨hadds, -, -, hscope⟩ := Project.locals_in_scope
  exact ⟨_, s, ⟨3⟩, ⟨6⟩, hs, by decide, hstring, hint, htypes, hscope _ s hs, hadds _ _ _ _ _ rfl⟩

end CultureLint
