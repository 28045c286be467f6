import CultureLint.Binding.Expr
import CultureLint.Proofs.Binding.Steps

/-! Dotted names mean the same wherever they stand. Types are written as names, and expressions may be names
too; the two are resolved by different functions. Main statement: unless something nearer has the name that it
begins with, a dotted name is as an expression the type or namespace that it is as a name. -/

namespace CultureLint

/-- Whether an expression turned out to be a type or a namespace, and so no operation. -/
def Bound.isName : Bound → Bool
  | .type _ | .namespaceName _ => true
  | .value _ | .methodGroup .. => false

@[simp] theorem Bound.isName_ofTarget (target : NameTarget) : (Bound.ofTarget target).isName = true := by
  cases target <;> rfl

namespace Expr

/-- The expression is some names with points between them. -/
inductive IsDotted : Expr → List String → Prop
  | name (node : Node) (word : String) : IsDotted (.name node word) [word]
  | memberAccess {receiver : Expr} {words : List String} (node : Node) (h : IsDotted receiver words)
      (ident : Ident) : IsDotted (.memberAccess node receiver ident) (words ++ [ident.name])

theorem IsDotted.ne_nil {e : Expr} {words : List String} (h : IsDotted e words) : words ≠ [] := by
  cases h <;> simp

end Expr

namespace Scope

/-- What names with points between them mean. -/
def resolveWords (scope : Scope) (c : Compilation) : List String → Option NameTarget
  | [] => none
  | head :: tail => do tail.foldlM (resolveMember c) (← scope.resolveName c head)

theorem resolveWords_concat (scope : Scope) (c : Compilation) {words : List String} (h : words ≠ [])
    (word : String) : scope.resolveWords c (words ++ [word]) =
      (scope.resolveWords c words).bind fun target => resolveMember c target word := by
  obtain ⟨head, tail, rfl⟩ := List.exists_cons_of_ne_nil h
  simp only [resolveWords, List.cons_append, List.foldlM_append, List.foldlM_cons, List.foldlM_nil,
    bind_pure, Option.bind_eq_bind, Option.bind_assoc]

theorem resolveQualified_eq (scope : Scope) (c : Compilation) {name : QualifiedName}
    (h : name.global = false) :
    scope.resolveQualified c name = scope.resolveWords c (name.parts.map Ident.name) := by
  simp [resolveQualified, resolveWords, QualifiedName.parts, h, List.foldlM_map]

end Scope

namespace Bind

variable {α β : Type} {frame : Frame} {s : BindState}

/-! ### Results of steps -/

/-- Whatever a step begins with, its result has a property. -/
def Gives (m : Bind α) (Q : α → Prop) : Prop := ∀ frame s, Q (m frame s).1

namespace Gives

variable {m : Bind α} {f : α → Bind β} {P : α → Prop} {Q : β → Prop}

theorem pure {b : β} (h : Q b) : Gives (Pure.pure b) Q := fun _ _ => h

theorem bind (hm : Gives m P) (hf : ∀ a, P a → Gives (f a) Q) : Gives (m >>= f) Q := fun frame s =>
  hf (m frame s).1 (hm frame s) frame (m frame s).2

/-- The result of the last step counts. -/
theorem last (hf : ∀ a, Gives (f a) Q) : Gives (m >>= f) Q := fun frame s =>
  hf (m frame s).1 frame (m frame s).2

theorem ite {p : Prop} [Decidable p] {x y : Bind β} (hx : Gives x Q) (hy : Gives y Q) :
    Gives (if p then x else y) Q := by
  split
  · exact hx
  · exact hy

end Gives

/-- Something that is no type and no namespace. -/
abbrev GivesNoName (m : Bind Bound) : Prop := Gives m fun bound => bound.isName = false

theorem givesNoName_value (m : Bind OperationId) : GivesNoName (do return .value (← m)) :=
  .last fun _ => .pure rfl

/-- A member is a value or a group of methods. -/
theorem gives_member? (node : Node) (owner : TypeId) (name : String) (receiver : Receiver) :
    Gives (member? node owner name receiver) fun found => ∀ bound ∈ found, bound.isName = false := by
  refine .last fun c => ?_
  cases c.membersNamed owner name with
  | nil => exact .pure (by simp)
  | cons found others =>
    obtain ⟨ref, member⟩ := found
    dsimp only
    cases member.value? with
    | none => exact .pure (by simp [Bound.isName])
    | some value =>
      refine .last fun _ => .ite ?_ ?_ <;>
        exact .last fun _ => .last fun _ => .pure (by simp [Bound.isName])

/-- Behind anything but a namespace stands no type and no namespace. -/
theorem givesNoName_memberAccess (node : Node) {bound : Bound} (word : String)
    (h : ∀ space, bound ≠ .namespaceName space) : GivesNoName (memberAccess node bound word) := by
  cases bound with
  | namespaceName space => exact absurd rfl (h space)
  | type id =>
    refine .bind (gives_member? node id word .typeName) fun found hfound => ?_
    cases found with
    | none => exact givesNoName_value _
    | some bound => exact .pure (hfound bound rfl)
  | value op =>
    refine .last fun type => ?_
    cases type with
    | none => exact givesNoName_value _
    | some id =>
      refine .bind (gives_member? node id word (.value op)) fun found hfound => ?_
      cases found with
      | none => exact givesNoName_value _
      | some bound => exact .pure (hfound bound rfl)
  | methodGroup owner name receiver => exact givesNoName_value _

/-! ### Names that nothing nearer has -/

/-- Neither a visible local, nor a parameter, nor a member of the type around or of its base types has the
name. -/
structure IsFree (frame : Frame) (s : BindState) (word : String) : Prop where
  notLocal : ∀ block ∈ s.locals, ∀ v ∈ block, v.1 ≠ word
  notParameter : ∀ v ∈ frame.parameters, v.1 ≠ word
  notMember : ∀ owner ∈ s.compilation.baseChain frame.containing,
    ∀ m ∈ (s.compilation.symbol owner).members, m.name ≠ word

/-- The result is the type or namespace that a name means, and otherwise no type and no namespace. -/
def Answers (target : Option NameTarget) (s : BindState) (r : Bound × BindState) : Prop :=
  match target with
  | some target => r = (.ofTarget target, s)
  | none => r.1.isName = false

theorem Answers.ask {target : Option NameTarget} {m : Bind α} {a : α} {f : α → Bind Bound}
    (hm : m frame s = (a, s)) (h : Answers target s (f a frame s)) :
    Answers target s ((m >>= f) frame s) := by
  rw [bind_of_asks hm]
  exact h

theorem answers_target {target : Option NameTarget} {node : Node} :
    Answers target s ((match target with
      | some target => return .ofTarget target
      | none => return .value (← addInvalid node []) : Bind Bound) frame s) := by
  cases target <;> rfl

theorem lookup_eq_none {block : Variables} {word : String} (h : ∀ v ∈ block, v.1 ≠ word) :
    block.lookup word = none := by
  rw [List.lookup_eq_none_iff]
  intro v hv
  simpa using (h v hv).symm

theorem IsFree.membersNamed {word : String} (h : IsFree frame s word) :
    s.compilation.membersNamed frame.containing word = [] := by
  simp only [Compilation.membersNamed, Compilation.ownMembersNamed, List.flatMap_eq_nil_iff,
    List.map_eq_nil_iff, List.filter_eq_nil_iff]
  rintro owner howner ⟨m, index⟩ hm
  simpa using h.notMember owner howner m (List.fst_mem_of_mem_zipIdx hm)

theorem answers_name {word : String} (h : IsFree frame s word) (node : Node) :
    Answers (frame.scope.resolveName s.compilation word) s (Bind.name node word frame s) := by
  have hlocal : s.locals.flatten.lookup word = none := lookup_eq_none fun v hv => by
    obtain ⟨block, hblock, hv⟩ := List.mem_flatten.1 hv
    exact h.notLocal block hblock v hv
  have hparameter : frame.parameters.lookup word = none := lookup_eq_none h.notParameter
  have hmember : member? node frame.containing word .implicit frame s = (none, s) := by
    refine (bind_of_asks (a := s.compilation) rfl _).trans ?_
    rw [h.membersNamed]
    rfl
  refine .ask (a := s.locals.flatten.lookup word) rfl ?_
  rw [hlocal]
  refine .ask (a := frame) rfl ?_
  rw [hparameter]
  exact .ask (a := frame) rfl (.ask hmember (.ask (a := frame) rfl
    (.ask (a := s.compilation) rfl answers_target)))

/-! ### Dotted names -/

theorem answers_memberAccess {target : Option NameTarget} {m : Bind Bound}
    (h : Answers target s (m frame s)) (node : Node) (word : String) :
    Answers (target.bind fun target => Scope.resolveMember s.compilation target word) s
      ((do memberAccess node (← m) word : Bind Bound) frame s) := by
  change Answers _ s (memberAccess node (m frame s).1 word frame (m frame s).2)
  cases target with
  | none =>
    refine givesNoName_memberAccess node word (fun space hspace => ?_) _ _
    rw [Answers, hspace] at h
    cases h
  | some target =>
    rw [Answers] at h
    rw [h]
    cases target with
    | type id => exact givesNoName_memberAccess node word (fun _ => Bound.noConfusion) _ _
    | namespaceName space => exact answers_target

end Bind

namespace Expr

variable {frame : Frame} {s : BindState}

/-- A dotted expression whose first name is free is what the names mean. -/
theorem IsDotted.answers {e : Expr} {words : List String} (h : e.IsDotted words)
    (hfree : ∀ word ∈ words.head?, Bind.IsFree frame s word) :
    Bind.Answers (frame.scope.resolveWords s.compilation words) s (e.plan.bound frame s) := by
  induction h with
  | name node word =>
    have hword : frame.scope.resolveWords s.compilation [word] =
        frame.scope.resolveName s.compilation word := bind_pure _
    rw [hword, plan]
    exact Bind.answers_name (hfree word rfl) node
  | @memberAccess receiver words node hreceiver ident ih =>
    rw [Scope.resolveWords_concat _ _ hreceiver.ne_nil, plan]
    refine Bind.answers_memberAccess (ih fun word hword => hfree word ?_) node ident.name
    obtain ⟨tail, rfl⟩ := List.head?_eq_some_iff.1 hword
    rfl

/-- A dotted name that begins with a free name is as an expression the type, and the namespace, that it is as
a name: where the one is found, the other is too. -/
theorem bound_eq_iff_resolveQualified {name : QualifiedName} {e : Expr} (hglobal : name.global = false)
    (hdotted : e.IsDotted (name.parts.map Ident.name)) (hfree : Bind.IsFree frame s name.head.name) :
    (∀ id, (e.plan.bound frame s).1 = .type id ↔
      frame.scope.resolveQualified s.compilation name = some (.type id)) ∧
    ∀ space, (e.plan.bound frame s).1 = .namespaceName space ↔
      frame.scope.resolveQualified s.compilation name = some (.namespaceName space) := by
  have hanswers : Bind.Answers (frame.scope.resolveWords s.compilation (name.parts.map Ident.name)) s
      (e.plan.bound frame s) := hdotted.answers fun word hword => by
    obtain rfl := Option.some.inj hword
    exact hfree
  rw [← Scope.resolveQualified_eq _ _ hglobal] at hanswers
  cases hresolved : frame.scope.resolveQualified s.compilation name with
  | none =>
    rw [hresolved, Bind.Answers] at hanswers
    refine ⟨fun id => ⟨fun h => ?_, nofun⟩, fun space => ⟨fun h => ?_, nofun⟩⟩ <;>
      · rw [h] at hanswers
        cases hanswers
  | some target =>
    rw [hresolved, Bind.Answers] at hanswers
    rw [hanswers]
    cases target <;> simp [Bound.ofTarget]

/-- An alias of a namespace, inside another namespace, before the name of a type. -/
theorem bound_eq_iff_resolveQualified_alias : ∃ (frame : Frame) (s : BindState) (name : QualifiedName) (e : Expr),
    frame.scope = ⟨["N", ""], ["M"], [("G", "A.B")]⟩ ∧ name.parts.map Ident.name = ["G", "C"] ∧
      name.global = false ∧ e.IsDotted (name.parts.map Ident.name) ∧ Bind.IsFree frame s name.head.name ∧
      (s.compilation.symbol frame.containing).metadataName = "N.Z" ∧
      (s.compilation.symbol ⟨0⟩).metadataName = "A.B.C" ∧ (e.plan.bound frame s).1 = .type ⟨0⟩ := by
  let here : Span := Span.empty 0
  let node : Node := ⟨0, here⟩
  let c : Compilation := (({} : Compilation).addType ⟨"A.B", "C", .classType, none, none, [], [], true⟩).addType
    ⟨"N", "Z", .classType, none, none, [], [], true⟩
  let frame : Frame := ⟨⟨["N", ""], ["M"], [("G", "A.B")]⟩, ⟨1⟩, false, none, [("p", none)]⟩
  let s : BindState := ⟨c, {}, [[("v", none)]]⟩
  let name : QualifiedName := ⟨false, ⟨"G", here⟩, [⟨"C", here⟩], here⟩
  let e : Expr := .memberAccess node (.name node "G") ⟨"C", here⟩
  have hdotted : e.IsDotted (name.parts.map Ident.name) := .memberAccess node (.name node "G") ⟨"C", here⟩
  have hfree : Bind.IsFree frame s name.head.name := ⟨by decide, by decide, by decide +kernel⟩
  refine ⟨frame, s, name, e, rfl, rfl, rfl, hdotted, hfree, by decide +kernel, by decide +kernel, ?_⟩
  exact ((bound_eq_iff_resolveQualified rfl hdotted hfree).1 ⟨0⟩).2 (by decide +kernel)

end Expr

end CultureLint
