import CultureLint.Binding.Project
import CultureLint.Proofs.Binding.Moving

/-! Programs do not care where things stand either: moved documents declare the same types, and are bound to
the same operations with moved origins. -/

namespace CultureLint

variable {f : Shift}

/-! ### Scopes -/

namespace Scope

variable (scope : Scope)

theorem addUsing_move (u : Using) : scope.addUsing (move f u) = scope.addUsing u := by
  have hname : (move f u).name.dotted = u.name.dotted := dotted_move f u.name
  obtain ⟨isGlobal, isStatic, aliasIdent, name, span⟩ := u
  cases aliasIdent with
  | none => exact congrArg (fun dotted => if isStatic then scope else
      { scope with usings := scope.usings ++ [dotted] }) hname
  | some ident => exact congrArg (fun dotted =>
      { scope with aliases := scope.aliases ++ [(ident.name, dotted)] }) hname

theorem addUsings_move (usings : List Using) : scope.addUsings (move f usings) = scope.addUsings usings := by
  induction usings generalizing scope with
  | nil => rfl
  | cons u usings ih =>
    rw [move_cons, addUsings, List.foldl_cons, addUsing_move]
    exact ih _

theorem enter_move (name : QualifiedName) : scope.enter (move f name) = scope.enter name := by
  rw [enter, dotted_move, enter]

theorem attributeName_move (name : QualifiedName) : attributeName (move f name) = move f (attributeName name) := by
  obtain ⟨global, head, tail, span⟩ := name
  have htail : (move f tail).reverse = move f tail.reverse := (List.map_reverse).symm
  change attributeName ⟨global, move f head, move f tail, move f span⟩ = _
  unfold attributeName
  dsimp only
  rw [htail]
  cases tail.reverse with
  | nil => rfl
  | cons last others =>
    refine congrArg (QualifiedName.mk global _ · _) ?_
    exact (List.map_reverse (l := { last with name := last.name ++ "Attribute" } :: others)).symm

theorem resolveAttribute_move (c : Compilation) (name : QualifiedName) :
    scope.resolveAttribute c (move f name) = scope.resolveAttribute c name := by
  rw [resolveAttribute, attributeName_move, resolveTypeName_move, resolveTypeName_move, resolveAttribute]

end Scope

/-! ### Declarations -/

/-- The declaration at the moved place. -/
def DeclaredType.move (f : Shift) (d : DeclaredType) : DeclaredType := { d with decl := Movable.move f d.decl }

theorem mapM_move {α β : Type} [Movable α] {m : Type → Type} [Monad m] [LawfulMonad m] {g h : α → m β}
    (H : ∀ a, h (move f a) = g a) (as : List α) : (move f as).mapM h = as.mapM g := by
  induction as with
  | nil => rfl
  | cons a as ih => rw [move_cons, List.mapM_cons, List.mapM_cons, H, ih]

namespace Compilation

mutual

theorem declareMember_move (document : Nat) (scope : Scope) : (m : NamespaceMember) →
    declareMember document scope (m.move f) = List.map (DeclaredType.move f) <$> declareMember document scope m
  | .namespaceDecl name _ usings members _ => by
    rw [NamespaceMember.move, declareMember, declareMember, Scope.enter_move, Scope.addUsings_move]
    exact declareMembers_move document _ members
  | .typeDecl decl => rfl

theorem declareMembers_move (document : Nat) (scope : Scope) : (ms : List NamespaceMember) →
    declareMembers document scope (NamespaceMember.moveAll f ms) =
      List.map (DeclaredType.move f) <$> declareMembers document scope ms
  | [] => rfl
  | m :: ms => by
    rw [NamespaceMember.moveAll, declareMembers, declareMembers, declareMember_move document scope m,
      declareMembers_move document scope ms]
    simp

end

theorem memberSymbols_move (scope : Scope) (containing : TypeId) (m : MemberDecl) :
    memberSymbols scope containing (move f m) = memberSymbols scope containing m := by
  have htype (type : TypeExpr) := scope.resolveType_move f type
  cases m with
  | field d =>
    change (scope.resolveType (move f d.type) >>= fun type => pure ((move f d.declarators).map _)) = _
    rw [htype]
    refine congrArg (scope.resolveType d.type >>= ·) (funext fun type => congrArg pure ?_)
    exact List.map_map
  | property d =>
    change (scope.resolveType (move f d.type) >>= fun type => pure _) = _
    rw [htype]
    rfl
  | method d =>
    obtain ⟨attributes, modifiers, returns, name, parameters, body, span⟩ := d
    cases returns with
    | none => rfl
    | some returns =>
      have hparameters : ((move f parameters).mapM fun p => do
            return (⟨p.name.name, ← scope.resolveType p.type⟩ : ParameterSymbol)) =
          (parameters.mapM fun p => do
            return (⟨p.name.name, ← scope.resolveType p.type⟩ : ParameterSymbol)) :=
        mapM_move (fun p => congrArg (fun type => (⟨p.name.name, ·⟩ : Option TypeId → ParameterSymbol) <$> type)
          (htype p.type)) parameters
      have hattributes (c : Compilation) : (move f attributes).map (fun a => scope.resolveAttribute c a.name) =
          attributes.map fun a => scope.resolveAttribute c a.name := by
        rw [move, instMovableList, List.map_map]
        exact List.map_congr_left fun a _ => scope.resolveAttribute_move c a.name
      change ((move f parameters).mapM _ >>= fun parameters => get >>= fun c =>
        scope.resolveType (move f returns) >>= fun type => pure [Member.method ⟨name.name, containing, parameters,
          type, isStatic modifiers, (move f attributes).map fun a => scope.resolveAttribute c a.name⟩]) = _
      simp only [hparameters, hattributes, htype]
      rfl

theorem filterMapM_move {α β : Type} [Movable α] {m : Type → Type} [Monad m] [LawfulMonad m]
    {g h : α → m (Option β)} (H : ∀ a, h (move f a) = g a) (as : List α) :
    (move f as).filterMapM h = as.filterMapM g := by
  induction as with
  | nil => rfl
  | cons a as ih => rw [move_cons, List.filterMapM_cons, List.filterMapM_cons, H, ih]

theorem declareSignatures_move (d : DeclaredType) : declareSignatures (d.move f) = declareSignatures d := by
  obtain ⟨document, type, scope, decl⟩ := d
  have hbases : (move f decl.bases).filterMapM scope.resolveType = decl.bases.filterMapM scope.resolveType :=
    filterMapM_move (fun t => scope.resolveType_move f t) _
  have hmembers : (move f decl.members).mapM (memberSymbols scope type) =
      decl.members.mapM (memberSymbols scope type) :=
    mapM_move (fun m => memberSymbols_move scope type m) _
  have hempty : (move f decl.bases).isEmpty = decl.bases.isEmpty := List.isEmpty_map
  have hdecl : (move f decl).form = decl.form ∧ (move f decl).bases = move f decl.bases ∧
      (move f decl).members = move f decl.members := ⟨rfl, rfl, rfl⟩
  simp only [declareSignatures, DeclaredType.move, hdecl, hbases, hmembers, hempty]

theorem documentScope_move (units : List CompilationUnit) (unit : CompilationUnit) :
    documentScope (move f units) (move f unit) = documentScope units unit := by
  have hfilter (p : Using → Bool) (hp : ∀ u, p (move f u) = p u) (usings : List Using) :
      (move f usings).filter p = move f (usings.filter p) := by
    change (usings.map (move f)).filter p = _
    rw [List.filter_map]
    exact congrArg (List.map (move f)) (List.filter_congr fun u _ => hp u)
  have hshared : (move f units).flatMap (·.usings) = move f (units.flatMap (·.usings)) := by
    change (units.map (move f)).flatMap _ = (units.flatMap (·.usings)).map (move f)
    rw [List.flatMap_map, List.map_flatMap]
    rfl
  unfold documentScope
  dsimp only
  rw [hshared, hfilter _ (fun _ => rfl), Scope.addUsings_move]
  change Scope.addUsings _ ((move f unit.usings).filter _) = _
  rw [hfilter _ (fun _ => rfl), Scope.addUsings_move]

theorem declareUnits_move (units rest : List CompilationUnit) (first : Nat) :
    ((move f rest).zipIdx first).mapM
        (fun x => declareMembers x.2 (documentScope (move f units) x.1) x.1.members) =
      List.map (List.map (DeclaredType.move f)) <$> (rest.zipIdx first).mapM
        (fun x => declareMembers x.2 (documentScope units x.1) x.1.members) := by
  induction rest generalizing first with
  | nil => rfl
  | cons unit rest ih =>
    have hmembers : declareMembers first (documentScope units unit) (move f unit).members =
        List.map (DeclaredType.move f) <$> declareMembers first (documentScope units unit) unit.members := by
      rw [← declareMembers_move, NamespaceMember.moveAll_eq]
      rfl
    rw [move_cons, List.zipIdx_cons, List.zipIdx_cons, List.mapM_cons, List.mapM_cons, ih,
      documentScope_move, hmembers]
    simp

theorem declareTypes_move (units : List CompilationUnit) :
    declareTypes (move f units) = List.map (DeclaredType.move f) <$> declareTypes units := by
  have hsignatures : (fun d => declareSignatures (d.move f)) = declareSignatures :=
    funext declareSignatures_move
  have hunits := declareUnits_move (f := f) units units 0
  unfold declareTypes
  simp [hunits, ← List.map_flatten, hsignatures]

end Compilation

/-! ### Members -/

namespace BindState

/-- The second step does in a moved state what the first one does. -/
def Moves {α : Type} (f : Shift) (m n : StateM BindState α) : Prop :=
  ∀ s, n (s.move f) = ((m s).1, (m s).2.move f)

namespace Moves

variable {α β : Type} {m n : StateM BindState α}

theorem pure {a : α} : Moves f (pure a) (pure a) := fun _ => rfl

theorem bind {k l : α → StateM BindState β} (h : Moves f m n) (hk : ∀ a, Moves f (k a) (l a)) :
    Moves f (m >>= k) (n >>= l) := by
  intro s
  change l (n (s.move f)).1 (n (s.move f)).2 = _
  rw [h s]
  exact hk _ _

theorem special (t : SpecialType) : Moves f (do return (← get).compilation.special? t)
    (do return (← get).compilation.special? t) := fun _ => rfl

theorem forM [Movable β] {k l : β → StateM BindState Unit} (h : ∀ b, Moves f (k b) (l (Movable.move f b)))
    (bs : List β) : Moves f (bs.forM k) ((Movable.move f bs).forM l) := by
  induction bs with
  | nil => exact .pure
  | cons b bs ih => exact (h b).bind fun _ => ih

theorem mapM [Movable β] {k l : β → StateM BindState α} (h : ∀ b, Moves f (k b) (l (Movable.move f b)))
    (bs : List β) : Moves f (bs.mapM k) ((Movable.move f bs).mapM l) := by
  induction bs with
  | nil => exact .pure
  | cons b bs ih =>
    rw [move_cons, List.mapM_cons, List.mapM_cons]
    exact (h b).bind fun _ => ih.bind fun _ => .pure

end Moves

end BindState

namespace DeclaredType

open CultureLint.BindState (Moves)

variable (declared : DeclaredType)

theorem moves_resolveType (type : TypeExpr) :
    Moves f (declared.resolveType type) ((declared.move f).resolveType (Movable.move f type)) := by
  intro s
  have hscope : declared.scope.resolveType (Movable.move f type) = declared.scope.resolveType type :=
    declared.scope.resolveType_move f type
  change ((declared.scope.resolveType (Movable.move f type) s.compilation).1, BindState.mk
    (declared.scope.resolveType (Movable.move f type) s.compilation).2 _ _) = _
  rw [hscope]
  rfl

theorem moves_bindRoot (frame : Frame) {body body' : Bind OperationId} (h : Bind.Moves f body body') :
    Moves f (bindRoot frame body) (bindRoot frame body') := by
  intro s
  exact congrArg (fun done : OperationId × BindState =>
    ((), ({ done.2 with unit := done.2.unit.addRoot done.1 } : BindState))) (h frame { s with locals := [] })

theorem moves_bindInitializer (frame : Frame) (name : Ident) (value : Expr) (type : Option TypeId) :
    Moves f (bindInitializer frame name value type)
      (bindInitializer frame (Movable.move f name) (Movable.move f value) type) := by
  refine moves_bindRoot frame ((value.moves_bindConverted type).bind fun op => Bind.Moves.add ?_)
  rw [Expr.span_move]
  exact congrArg (fun span : Span => (⟨_, type, span.origin, false, none⟩ : Operation))
    (move_cover f name.span value.span).symm

theorem moves_bindAccessor (frame : Frame) (type : Option TypeId) (accessor : Accessor) :
    Moves f (bindAccessor frame type accessor) (bindAccessor frame type (Movable.move f accessor)) := by
  obtain ⟨kind, body⟩ := accessor
  cases body with
  | none => exact .pure
  | some body =>
    cases kind with
    | get => exact moves_bindRoot _ body.moves_bind
    | set | init => exact fun s => moves_bindRoot _ body.moves_bind s

theorem moves_bindMember (member : MemberDecl) :
    Moves f (declared.bindMember member) ((declared.move f).bindMember (Movable.move f member)) := by
  cases member with
  | field d =>
    refine (declared.moves_resolveType d.type).bind fun type => .forM (fun declarator => ?_) d.declarators
    obtain ⟨name, value⟩ := declarator
    cases value with
    | none => exact .pure
    | some value => exact moves_bindInitializer _ name value type
  | property d =>
    obtain ⟨attributes, modifiers, type, name, body, value, span⟩ := d
    refine (declared.moves_resolveType type).bind fun type => ?_
    have initial (value : Expr) := moves_bindInitializer (f := f) (declared.frame modifiers) name value type
    cases body with
    | arrow result =>
      refine (moves_bindRoot _ result.moves_bindArrow).bind fun _ => ?_
      cases value with
      | none => exact .pure
      | some value => exact initial value
    | accessors items =>
      refine (Moves.forM (moves_bindAccessor _ type) items).bind fun _ => ?_
      cases value with
      | none => exact .pure
      | some value => exact initial value
  | method d =>
    obtain ⟨attributes, modifiers, returns, name, parameters, body, span⟩ := d
    cases body with
    | none => exact .pure
    | some body =>
      have hparameters : Moves f
          (parameters.mapM fun p => do return (p.name.name, ← declared.resolveType p.type))
          ((Movable.move f parameters).mapM fun p => do
            return (p.name.name, ← (declared.move f).resolveType p.type)) :=
        .mapM (fun p => (declared.moves_resolveType p.type).bind fun _ => .pure) parameters
      have hbody (returns : Option TypeId) (parameters : Variables) := moves_bindRoot (f := f)
        { declared.frame modifiers with returns, parameters } body.moves_bind
      cases returns with
      | none => exact (Moves.special .void).bind fun returns => hparameters.bind fun types => hbody returns types
      | some returns =>
        exact (declared.moves_resolveType returns).bind fun returns =>
          hparameters.bind fun types => hbody returns types

end DeclaredType

/-! ### Programs -/

namespace BoundProgram

/-- The program whose documents have moved. -/
def move (f : Shift) (program : BoundProgram) : BoundProgram :=
  { program with units := program.units.map (BoundUnit.move f) }

theorem getD_units_move (program : BoundProgram) (i : Nat) :
    (program.move f).units[i]?.getD {} = (program.units[i]?.getD {}).move f := by
  have hempty : BoundUnit.move f {} = {} := by simp [BoundUnit.move]
  rw [move, Array.getElem?_map]
  cases program.units[i]? with
  | none => exact hempty.symm
  | some unit => rfl

theorem bindDeclared_move (program : BoundProgram) (declared : DeclaredType) :
    (program.move f).bindDeclared (declared.move f) = (program.bindDeclared declared).move f := by
  have hmembers := BindState.Moves.forM (fun m => declared.moves_bindMember (f := f) m) declared.decl.members
    ⟨program.compilation, program.units[declared.document]?.getD {}, []⟩
  rw [BindState.move, ← getD_units_move] at hmembers
  have hdone := congrArg (fun done : Unit × BindState => BoundProgram.mk done.2.compilation
    ((program.move f).units.setIfInBounds declared.document done.2.unit)) hmembers
  refine hdone.trans (congrArg (BoundProgram.mk _) ?_)
  exact Array.map_setIfInBounds.symm

/-- Moved documents are bound to the same program, but for where its operations come from. -/
theorem ofUnits_move (references : List Reference) (units : List CompilationUnit) :
    ofUnits references (Movable.move f units) = (ofUnits references units).move f := by
  have hfold (declared : List DeclaredType) (program : BoundProgram) :
      (declared.map (DeclaredType.move f)).foldl bindDeclared (program.move f) =
        (declared.foldl bindDeclared program).move f := by
    induction declared generalizing program with
    | nil => rfl
    | cons d declared ih => rw [List.map_cons, List.foldl_cons, bindDeclared_move, ih, List.foldl_cons]
  have hempty : Array.replicate (Movable.move f units).length {} =
      (Array.replicate units.length ({} : BoundUnit)).map (BoundUnit.move f) := by
    have hlength : (Movable.move f units).length = units.length := List.length_map _
    rw [Array.map_replicate, hlength, BoundUnit.move]
    simp
  unfold ofUnits
  rw [Compilation.declareTypes_move, hempty]
  exact hfold (Compilation.declareTypes units (.ofReferences references)).1
    ⟨(Compilation.declareTypes units (.ofReferences references)).2, Array.replicate units.length {}⟩

end BoundProgram

end CultureLint
