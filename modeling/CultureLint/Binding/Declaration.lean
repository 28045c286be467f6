import CultureLint.Binding.Scope

/-! The types that documents declare. All types of all documents are declared before the first
signature is looked at, so that a signature may mention any of them. -/

namespace CultureLint

/-- A declaration of a type: the document it is in, the type, and the names visible to it. -/
structure DeclaredType where
  document : Nat
  type : TypeId
  scope : Scope
  decl : TypeDecl
deriving Repr

def TypeForm.kind : TypeForm → SymbolKind
  | .classForm => .classType
  | .structForm => .structType
  | .interfaceForm => .interfaceType

namespace Compilation

/-! ### Types -/

/-- The type that a further part of a partial type belongs to. -/
def partialOf? (c : Compilation) (decl : TypeDecl) (metadataName : String) : Option TypeId :=
  if decl.modifiers.contains "partial" then
    (c.byMetadataName? metadataName).filter fun id => (c.symbol id).fromSource
  else none

/-- Declares a type without its members. -/
def declareType (namespaceName : String) (decl : TypeDecl) : StateM Compilation TypeId := do
  let symbol : TypeSymbol :=
    { namespaceName, name := decl.name.name, kind := decl.form.kind, fromSource := true }
  match (← get).partialOf? decl symbol.metadataName with
  | some id => return id
  | none => modifyGet fun c => (c.nextId, c.addType symbol)

mutual

/-- Declares the types of a namespace or the one type. -/
def declareMember (document : Nat) (scope : Scope) :
    NamespaceMember → StateM Compilation (List DeclaredType)
  | .namespaceDecl name _ usings members _ =>
    declareMembers document ((scope.enter name).addUsings usings) members
  | .typeDecl decl => do
    let type ← declareType scope.current decl
    return [⟨document, type, scope, decl⟩]

/-- Declares the types of several namespaces and types. -/
def declareMembers (document : Nat) (scope : Scope) :
    List NamespaceMember → StateM Compilation (List DeclaredType)
  | [] => return []
  | member :: members => do
    let first ← declareMember document scope member
    return first ++ (← declareMembers document scope members)

end

/-! ### Signatures -/

/-- The symbols of one member. A constructor has none. -/
def memberSymbols (scope : Scope) (containing : TypeId) :
    MemberDecl → StateM Compilation (List Member)
  | .field decl => do
    let type ← scope.resolveType decl.type
    return decl.declarators.map fun d => .field ⟨d.name.name, containing, type, isStatic decl.modifiers⟩
  | .property decl => do
    let type ← scope.resolveType decl.type
    return [.property ⟨decl.name.name, containing, type, isStatic decl.modifiers⟩]
  | .method decl => do
    match decl.returns with
    | none => return []
    | some returns =>
      let parameters ← decl.parameters.mapM fun p => do
        return (⟨p.name.name, ← scope.resolveType p.type⟩ : ParameterSymbol)
      let c ← get
      let attributes := decl.attributes.map fun a => scope.resolveAttribute c a.name
      let returns ← scope.resolveType returns
      return [.method ⟨decl.name.name, containing, parameters, returns, isStatic decl.modifiers,
        attributes⟩]

/-- The base type that a declaration has when it names none. -/
def defaultBase (c : Compilation) : TypeForm → Option TypeId
  | .classForm => c.special? .object
  | .structForm => c.special? .valueType
  | .interfaceForm => none

/-- Gives a declared type its base types and members. Only the first class that a class names is its
base; a further part of a partial type changes the base only if it names base types itself. -/
def declareSignatures (declared : DeclaredType) : StateM Compilation Unit := do
  let decl := declared.decl
  let resolved ← decl.bases.filterMapM declared.scope.resolveType
  let c ← get
  let (interfaces, others) := resolved.partition fun id => (c.symbol id).kind == .interfaceType
  let named := if decl.form = .classForm then others.head? else none
  let base := named.or (c.defaultBase decl.form)
  let members ← decl.members.mapM (memberSymbols declared.scope declared.type)
  modify fun c => c.modifyType declared.type fun symbol =>
    { symbol with
      base := if symbol.base.isNone || !decl.bases.isEmpty then base else symbol.base
      interfaces := symbol.interfaces ++ interfaces
      members := symbol.members ++ members.flatten }

/-! ### Documents -/

/-- The names visible in a document outside of its namespaces. A `global using` counts for every
document of the program. -/
def documentScope (units : List CompilationUnit) (unit : CompilationUnit) : Scope :=
  let shared := (units.flatMap (·.usings)).filter (·.isGlobal)
  (({} : Scope).addUsings shared).addUsings (unit.usings.filter fun u => !u.isGlobal)

/-- Declares the types of all documents, and then their signatures. -/
def declareTypes (units : List CompilationUnit) : StateM Compilation (List DeclaredType) := do
  let declared ← units.zipIdx.mapM fun (unit, document) =>
    declareMembers document (documentScope units unit) unit.members
  let declared := declared.flatten
  declared.forM declareSignatures
  return declared

end Compilation

end CultureLint
