import CultureLint.Binding.Declaration
import CultureLint.Binding.Stmt
import CultureLint.Symbol.Library

/-! Binding of whole programs: from the documents to their types and operations. -/

namespace CultureLint

namespace DeclaredType

variable (declared : DeclaredType)

/-- What surrounds a body with the given modifiers. -/
def frame (modifiers : List String) : Frame where
  scope := declared.scope
  containing := declared.type
  inStatic := isStatic modifiers

/-- Resolves a written type outside of any body. -/
def resolveType (type : TypeExpr) : StateM BindState (Option TypeId) :=
  modifyGet fun s =>
    let (id, compilation) := declared.scope.resolveType type s.compilation
    (id, { s with compilation })

/-- Binds a body, which then stands alone among the operations. -/
def bindRoot (frame : Frame) (body : Bind OperationId) : StateM BindState Unit := do
  modify fun s => { s with locals := [] }
  let root ← body frame
  modify fun s => { s with unit := s.unit.addRoot root }

/-- Binds the initial value of a field or property. -/
def bindInitializer (frame : Frame) (name : Ident) (value : Expr) (type : Option TypeId) :
    StateM BindState Unit :=
  bindRoot frame do
    let op ← value.bindConverted type
    Bind.add ⟨.variableDeclaration name.name (some op), type, (name.span.cover value.span).origin,
      false, none⟩

/-- Binds an accessor. All but `get` give nothing back and are handed the new value. -/
def bindAccessor (frame : Frame) (type : Option TypeId) (accessor : Accessor) :
    StateM BindState Unit := do
  match accessor.body with
  | none => return
  | some body =>
    match accessor.kind with
    | .get => bindRoot { frame with returns := type } body.bind
    | .set | .init =>
      let void := (← get).compilation.special? .void
      bindRoot { frame with returns := void, parameters := [("value", type)] } body.bind

/-- Binds the bodies and initial values of a member. -/
def bindMember : MemberDecl → StateM BindState Unit
  | .field decl => do
    let frame := declared.frame decl.modifiers
    let type ← declared.resolveType decl.type
    decl.declarators.forM fun d => do
      match d.value with
      | some value => bindInitializer frame d.name value type
      | none => return
  | .property decl => do
    let frame := declared.frame decl.modifiers
    let type ← declared.resolveType decl.type
    match decl.body with
    | .arrow value => bindRoot { frame with returns := type } value.bindArrow
    | .accessors items => items.forM (bindAccessor frame type)
    match decl.value with
    | some value => bindInitializer frame decl.name value type
    | none => return
  | .method decl => do
    match decl.body with
    | none => return
    | some body =>
      let frame := declared.frame decl.modifiers
      let returns ←
        match decl.returns with
        | some type => declared.resolveType type
        | none => pure ((← get).compilation.special? .void)
      let parameters ← decl.parameters.mapM fun p => do
        return (p.name.name, ← declared.resolveType p.type)
      bindRoot { frame with returns, parameters } body.bind

end DeclaredType

/-- A program: its types, and the operations of each of its documents. -/
structure BoundProgram where
  compilation : Compilation
  units : Array BoundUnit
deriving Repr

namespace BoundProgram

/-- Binds the members of one declared type into the operations of its document. -/
def bindDeclared (program : BoundProgram) (declared : DeclaredType) : BoundProgram :=
  let start : BindState :=
    { compilation := program.compilation, unit := program.units[declared.document]?.getD {} }
  let (_, done) := (declared.decl.members.forM declared.bindMember).run start
  { compilation := done.compilation
    units := program.units.setIfInBounds declared.document done.unit }

/-- Binds documents against the chosen libraries. -/
def ofUnits (references : List Reference) (units : List CompilationUnit) : BoundProgram :=
  let (declared, compilation) :=
    (Compilation.declareTypes units).run (Compilation.ofReferences references)
  declared.foldl bindDeclared { compilation, units := Array.replicate units.length {} }

end BoundProgram

end CultureLint
