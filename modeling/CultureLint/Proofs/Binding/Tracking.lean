import CultureLint.Proofs.Binding.Adding
import CultureLint.Proofs.Binding.Moving
import CultureLint.Proofs.Binding.Tally
import CultureLint.Proofs.Tree.Naming

/-! Two bodies that are bound side by side. `Tracks` relates a step of binding in an old document to one in a new
document: from states that are alike both come to states that are alike, with as much found in them, and with
results that are as alike as the steps behind them need. It is closed under the ways to put steps together, so that
what is bound by one function follows from what the function is made of. -/

namespace CultureLint

/-! ### Names in two scopes -/

namespace Scope

variable {scope scope' : Scope} {c : Compilation}

/-- Only the first part of a name is looked up in the scope. -/
theorem resolveQualified_congr {name : QualifiedName}
    (h : ∀ word ∈ name.words, scope'.resolveName c word = scope.resolveName c word) :
    scope'.resolveQualified c name = scope.resolveQualified c name := by
  unfold resolveQualified
  cases hg : name.global with
  | true => rfl
  | false => rw [if_neg (by simp), if_neg (by simp), h _ (by simp [QualifiedName.words, hg])]

theorem resolveType_congr {type : TypeExpr}
    (h : ∀ word ∈ type.words, scope'.resolveName c word = scope.resolveName c word) :
    scope'.resolveType type c = scope.resolveType type c := by
  induction type with
  | primitive | implicit => rfl
  | named name =>
    have hname : scope'.resolveQualified c name = scope.resolveQualified c name :=
      resolveQualified_congr h
    change (scope'.resolveTypeName c name, c) = (scope.resolveTypeName c name, c)
    rw [resolveTypeName, hname, resolveTypeName]
  | nullable of _ ih | array of _ ih =>
    rw [resolveType, resolveType]
    simp only [bind, StateT.bind, ih h]

/-- Types in which the same is written mean the same. -/
theorem resolveType_bare {type type' : TypeExpr} (h : type'.bare = type.bare) :
    scope.resolveType type' = scope.resolveType type := by
  have hbare (t : TypeExpr) : t.bare = t.move (OrderHom.const Nat 0) := by
    induction t with
    | primitive | implicit | named => rfl
    | nullable of _ ih => exact congrArg (TypeExpr.nullable · _) ih
    | array of _ ih => exact congrArg (TypeExpr.array · _) ih
  have hmove (t : TypeExpr) : scope.resolveType t.bare = scope.resolveType t := by
    rw [hbare]
    exact scope.resolveType_move _ t
  rw [← hmove, h, hmove]

end Scope

/-! ### What is compared -/

/-- The code spells the operation out, and not with nothing. -/
def BoundUnit.IsSolid (unit : BoundUnit) (id : OperationId) : Prop :=
  ∃ op, unit.get? id = some op ∧ op.isImplicit = false ∧ op.origin.span.start < op.origin.span.stop

namespace BoundUnit.IsSolid

variable {unit later : BoundUnit} {id : OperationId}

theorem mem_ids (h : unit.IsSolid id) : id ∈ unit.ids := by
  obtain ⟨op, hop, -⟩ := h
  exact mem_ids_of_get? hop

theorem mono (h : unit.IsSolid id) (hx : unit.Extends later) : later.IsSolid id := by
  obtain ⟨op, hop, hs⟩ := h
  obtain ⟨parent, hlater⟩ := hx id op hop
  exact ⟨_, hlater, hs⟩

end BoundUnit.IsSolid

/-- How an old document is compared to a new one: over the types that both start from, up to what their operations
are at last, by what is sought in them at the places that count in the old and in the new one. The scopes agree about
the words that they `know`. In the old document an operand, the `hole`, is found to be converted; this conversion is
left out of the count. -/
structure Comparison where
  base : Compilation
  knows : String → Prop
  sought : Sought
  shows' : Nat → Bool
  last : BoundUnit
  last' : BoundUnit
  hole : Node
  found : OperationId
  of_found : ∀ op, last.get? found = some op → op.isImplicit = true ∧ op.origin = hole.origin

namespace Comparison

variable (C : Comparison)

/-- What is counted in the old document: what is sought, but for the conversion that was found. -/
def counts (id : OperationId) : Bool := id ≠ C.found && C.last.isSought C.sought id

/-- What is counted in the new document. -/
def counts' (id : OperationId) : Bool := C.last'.isSought { C.sought with shows := C.shows' } id

/-- Expressions whose places count alike. -/
structure Sees (node node' : Node) : Prop where
  shows : C.shows' node'.span.start = C.sought.shows node.span.start
  nonempty : node.span.start < node.span.stop

/-- Expressions whose places count alike, where the old one is not the hole. -/
structure Shares (node node' : Node) : Prop extends C.Sees node node' where
  ne : node.id ≠ C.hole.id

/-- Surroundings that differ in their scopes alone, and there in no word that matters. -/
structure Frames (f f' : Frame) : Prop where
  containing : f'.containing = f.containing
  inStatic : f'.inStatic = f.inStatic
  returns : f'.returns = f.returns
  parameters : f'.parameters = f.parameters
  scope : ∀ c, C.base.Grows c → ∀ word, C.knows word →
    f'.scope.resolveName c word = f.scope.resolveName c word

/-- States with the same types and the same locals, in which as much is found. -/
structure Alike (s s' : BindState) : Prop where
  compilation : s'.compilation = s.compilation
  coherent : s.compilation.Coherent
  grows : C.base.Grows s.compilation
  locals : s'.locals = s.locals
  count : s'.unit.countJoined C.sought.types C.counts' = s.unit.countJoined C.sought.types C.counts

/-- From alike states both steps come to alike states, if they stay within what is made at last. -/
def Tracks {α β : Type} (m : Bind α) (m' : Bind β) (u u' : BoundUnit)
    (R : α → β → BoundUnit → BoundUnit → Prop) : Prop :=
  ∀ f f' s s', C.Frames f f' → s.unit = u → s'.unit = u' → C.Alike s s' →
    (m f s).2.unit.Extends C.last → (m' f' s').2.unit.Extends C.last' →
    C.Alike (m f s).2 (m' f' s').2 ∧ R (m f s).1 (m' f' s').1 (m f s).2.unit (m' f' s').2.unit

/-- Both steps only ask, and are answered alike. -/
def Asks {α : Type} (m m' : Bind α) (u u' : BoundUnit) : Prop :=
  ∀ f f' s s', C.Frames f f' → s.unit = u → s'.unit = u' → C.Alike s s' → ∃ a, m f s = (a, s) ∧ m' f' s' = (a, s')

/-- Nothing is known of the results. -/
abbrev Whatever {α β : Type} (_ : α) (_ : β) (_ _ : BoundUnit) : Prop := True

/-- The two documents know the same of two operations that are spelled out. -/
structure Akin (u u' : BoundUnit) (op op' : OperationId) : Prop where
  solid : u.IsSolid op
  written : u'.IsWritten op'
  type : u'.typeOf op' = u.typeOf op
  null : u'.isNull op' = u.isNull op

theorem Akin.mono {u u' v v' : BoundUnit} {op op' : OperationId} (h : Akin u u' op op') (hv : u.Extends v)
    (hv' : u'.Extends v') : Akin v v' op op' where
  solid := h.solid.mono hv
  written := h.written.mono hv'
  type := by rw [hv.typeOf_eq h.solid.mem_ids, hv'.typeOf_eq h.written.mem_ids, h.type]
  null := by rw [hv.isNull_eq h.solid.mem_ids, hv'.isNull_eq h.written.mem_ids, h.null]

variable {C}
variable {α β γ δ : Type} {u u' : BoundUnit}

variable (C) in
/-- Operations that count alike. -/
def Matched (r r' : OperationId) : Prop := C.counts' r' = C.counts r

theorem Matched.eq {r r' : OperationId} (h : C.Matched r r') : C.counts' r' = C.counts r := h

theorem isSolid_isWritten {id : OperationId} (h : u.IsSolid id) : u.IsWritten id := by
  obtain ⟨op, hop, hwritten, -⟩ := h
  exact ⟨op, hop, hwritten⟩

theorem counts_of_isWritten {id : OperationId} (h : u.IsWritten id) (hl : u.Extends C.last) : C.counts id = false := by
  rw [counts, BoundUnit.isSought_of_isWritten (h.mono hl), Bool.and_false]

theorem counts'_of_isWritten {id : OperationId} (h : u'.IsWritten id) (hl : u'.Extends C.last') :
    C.counts' id = false := BoundUnit.isSought_of_isWritten (h.mono hl)

/-- What is spelled out does not count. -/
theorem Akin.matched {op op' : OperationId} (h : Akin u u' op op') (hl : u.Extends C.last) (hl' : u'.Extends C.last') :
    C.Matched op op' :=
  (counts'_of_isWritten h.written hl').trans (counts_of_isWritten (isSolid_isWritten h.solid) hl).symm

/-- Operators count alike if their operands do. -/
theorem countJoined_binary (op : BinaryOp) {l l' r r' : OperationId} (hl : C.Matched l l') (hr : C.Matched r r')
    {type : Option TypeId} {origin origin' : Origin} : C.sought.types.countJoined C.counts'
        ⟨.binary op l' r', type, origin', false, none⟩ =
      C.sought.types.countJoined C.counts ⟨.binary op l r, type, origin, false, none⟩ := by
  refine WellKnownTypes.countJoined_congr (by cases op <;> rfl) ?_
  simp only [OperationKind.children, List.countP_cons, List.countP_nil, hl.eq, hr.eq]

theorem countJoined_compoundAssignment (op : BinaryOp) {l l' r r' : OperationId} (hl : C.Matched l l')
    (hr : C.Matched r r') {type : Option TypeId} {origin origin' : Origin} : C.sought.types.countJoined C.counts'
        ⟨.compoundAssignment op l' r', type, origin', false, none⟩ =
      C.sought.types.countJoined C.counts ⟨.compoundAssignment op l r, type, origin, false, none⟩ := by
  refine WellKnownTypes.countJoined_congr (by cases op <;> rfl) ?_
  simp only [OperationKind.children, List.countP_cons, List.countP_nil, hl.eq, hr.eq]

/-! ### Questions -/

namespace Asks

variable {m m' : Bind α} {k k' : α → Bind β}

theorem pure {a : α} : C.Asks (Pure.pure a) (Pure.pure a) u u' := fun _ _ _ _ _ _ _ _ => ⟨a, rfl, rfl⟩

theorem bind (h : C.Asks m m' u u') (hk : ∀ a, C.Asks (k a) (k' a) u u') :
    C.Asks (m >>= k) (m' >>= k') u u' := by
  intro f f' s s' hf hs hs' ha
  obtain ⟨a, hm, hm'⟩ := h f f' s s' hf hs hs' ha
  rw [Bind.bind_of_asks hm, Bind.bind_of_asks hm']
  exact hk a f f' s s' hf hs hs' ha

theorem skip {k : α → Bind γ} {k' : α → Bind δ} {Q : γ → δ → BoundUnit → BoundUnit → Prop}
    (h : C.Asks m m' u u') (hk : ∀ a, C.Tracks (k a) (k' a) u u' Q) : C.Tracks (m >>= k) (m' >>= k') u u' Q := by
  intro f f' s s' hf hs hs' ha
  obtain ⟨a, hm, hm'⟩ := h f f' s s' hf hs hs' ha
  rw [Bind.bind_of_asks hm, Bind.bind_of_asks hm']
  exact hk a f f' s s' hf hs hs' ha

/-- A question about the types. -/
theorem ofCompilation {m : Bind α} (answer : Compilation → α)
    (h : ∀ f s, m f s = (answer s.compilation, s)) : C.Asks m m u u' := by
  intro f f' s s' hf hs hs' ha
  exact ⟨answer s.compilation, h f s, by rw [h f' s', ha.compilation]⟩

theorem getCompilation : C.Asks Bind.getCompilation Bind.getCompilation u u' := ofCompilation id fun _ _ => rfl

theorem special (t : SpecialType) : C.Asks (Bind.special t) (Bind.special t) u u' :=
  ofCompilation (·.special? t) fun _ _ => rfl

theorem numericOf (type : Option TypeId) : C.Asks (Bind.numericOf type) (Bind.numericOf type) u u' :=
  ofCompilation (fun c => (type.bind fun id => (c.symbol id).special).filter SpecialType.isNumeric) fun _ _ => rfl

theorem isString (type : Option TypeId) : C.Asks (Bind.isString type) (Bind.isString type) u u' :=
  ofCompilation (·.isStringType type) fun _ _ => rfl

theorem specialType (t : Option SpecialType) : C.Asks (Bind.specialType t) (Bind.specialType t) u u' := by
  cases t with
  | none => exact .pure
  | some t => exact special t

theorem promotionOf (left right : Option TypeId) :
    C.Asks (Bind.promotionOf left right) (Bind.promotionOf left right) u u' := by
  refine (numericOf left).bind fun a => (numericOf right).bind fun b => ?_
  cases a <;> cases b <;> exact .pure

theorem local? (word : String) : C.Asks (Bind.local? word) (Bind.local? word) u u' := by
  intro f f' s s' hf hs hs' ha
  refine ⟨s.locals.flatten.lookup word, rfl, ?_⟩
  rw [← ha.locals]
  rfl

theorem returnsNothing : C.Asks Bind.returnsNothing Bind.returnsNothing u u' := by
  intro f f' s s' hf hs hs' ha
  refine ⟨f.returns.all fun id => s.compilation.isSpecial id .void, rfl, ?_⟩
  rw [← hf.returns, ← ha.compilation]
  rfl

variable {op op' : OperationId}

theorem typeOf (h : Akin u u' op op') : C.Asks (Bind.typeOf op) (Bind.typeOf op') u u' := by
  rintro f f' s s' hf rfl rfl ha
  exact ⟨s.unit.typeOf op, rfl, by rw [← h.type]; rfl⟩

theorem isNull (h : Akin u u' op op') : C.Asks (Bind.isNull op) (Bind.isNull op') u u' := by
  rintro f f' s s' hf rfl rfl ha
  exact ⟨s.unit.isNull op, Bind.isNull_apply op, by rw [Bind.isNull_apply, h.null]⟩

end Asks

/-! ### Steps -/

namespace Tracks

variable {m : Bind α} {m' : Bind β} {k : α → Bind γ} {k' : β → Bind δ}
  {R R' : α → β → BoundUnit → BoundUnit → Prop} {Q : γ → δ → BoundUnit → BoundUnit → Prop}

theorem pure {a : α} {b : β} (h : R a b u u') : C.Tracks (Pure.pure a) (Pure.pure b) u u' R := by
  rintro f f' s s' hf rfl rfl ha _ _
  exact ⟨ha, h⟩

/-- The operations there are at last are more than those there are now. -/
theorem pure_of {a : α} {b : β} (h : u.Extends C.last → u'.Extends C.last' → R a b u u') :
    C.Tracks (Pure.pure a) (Pure.pure b) u u' R := by
  rintro f f' s s' hf rfl rfl ha hl hl'
  exact ⟨ha, h hl hl'⟩

theorem imp (h : C.Tracks m m' u u' R) (hr : ∀ a b v v', R a b v v' → R' a b v v') : C.Tracks m m' u u' R' :=
  fun f f' s s' hf hs hs' ha hl hl' => (h f f' s s' hf hs hs' ha hl hl').imp_right (hr _ _ _ _)

open CultureLint.Bind (Adds)

theorem bind_of_adds [Adds m] [Adds m'] (hg : ∀ a, Adds (k a)) (hg' : ∀ b, Adds (k' b)) (h : C.Tracks m m' u u' R)
    (hk : ∀ a b v v', u.Extends v → u'.Extends v' → R a b v v' → C.Tracks (k a) (k' b) v v' Q) :
    C.Tracks (m >>= k) (m' >>= k') u u' Q := by
  rintro f f' s s' hf rfl rfl ha hl hl'
  have hstep := Adds.ext (m := m) f s
  have hstep' := Adds.ext (m := m') f' s'
  obtain ⟨ha, hr⟩ := h f f' s s' hf rfl rfl ha (((hg _).ext f _).trans hl) (((hg' _).ext f' _).trans hl')
  exact hk _ _ _ _ hstep hstep' hr f f' _ _ hf rfl rfl ha hl hl'

theorem bind [Adds m] [Adds m'] [∀ a, Adds (k a)] [∀ b, Adds (k' b)] (h : C.Tracks m m' u u' R)
    (hk : ∀ a b v v', u.Extends v → u'.Extends v' → R a b v v' → C.Tracks (k a) (k' b) v v' Q) :
    C.Tracks (m >>= k) (m' >>= k') u u' Q := bind_of_adds inferInstance inferInstance h hk

theorem map {g : α → γ} {g' : β → δ} (h : C.Tracks m m' u u' R) (hg : ∀ a b v v', R a b v v' → Q (g a) (g' b) v v') :
    C.Tracks (g <$> m) (g' <$> m') u u' Q := by
  intro f f' s s' hf hs hs' ha hl hl'
  exact (h f f' s s' hf hs hs' ha hl hl').imp_right (hg _ _ _ _)

theorem ite {c : Prop} [Decidable c] {n : Bind α} {n' : Bind β} (h : c → C.Tracks m m' u u' R)
    (h' : ¬c → C.Tracks n n' u u' R) : C.Tracks (if c then m else n) (if c then m' else n') u u' R := by
  split
  · exact h ‹_›
  · exact h' ‹_›

/-- Two choices by conditions that agree. -/
theorem ite_of_iff {c c' : Prop} [Decidable c] [Decidable c'] (hc : c' ↔ c) {n : Bind α} {n' : Bind β}
    (h : C.Tracks m m' u u' R) (h' : C.Tracks n n' u u' R) :
    C.Tracks (if c then m else n) (if c' then m' else n') u u' R := by
  by_cases hp : c
  · rwa [if_pos hp, if_pos (hc.2 hp)]
  · rwa [if_neg hp, if_neg fun h => hp (hc.1 h)]

/-- A step may look at what surrounds it. -/
theorem read {k : Frame → Bind γ} {k' : Frame → Bind δ}
    (hk : ∀ f f', C.Frames f f' → C.Tracks (k f) (k' f') u u' Q) :
    C.Tracks (MonadReaderOf.read >>= k) (MonadReaderOf.read >>= k') u u' Q := fun f f' s s' hf hs hs' ha hl hl' =>
  hk f f' hf f f' s s' hf hs hs' ha hl hl'

/-- A step may look at the types. -/
theorem getCompilation {k : Compilation → Bind γ} {k' : Compilation → Bind δ}
    (hk : ∀ c, C.base.Grows c → C.Tracks (k c) (k' c) u u' Q) :
    C.Tracks (Bind.getCompilation >>= k) (Bind.getCompilation >>= k') u u' Q := by
  intro f f' s s' hf hs hs' ha hl hl'
  have hstep : (Bind.getCompilation >>= k') f' s' = k' s.compilation f' s' := by
    rw [← ha.compilation]
    rfl
  rw [hstep] at hl' ⊢
  exact hk s.compilation ha.grows f f' s s' hf hs hs' ha hl hl'

/-- A written type. -/
theorem resolveType {type type' : TypeExpr} (h : type'.bare = type.bare) (hw : ∀ word ∈ type.words, C.knows word) :
    C.Tracks (Bind.resolveType type) (Bind.resolveType type') u u' fun t t' v v' => t' = t ∧ v = u ∧ v' = u' := by
  rintro f f' s s' hf rfl rfl ha - -
  have hsame : f'.scope.resolveType type' s'.compilation = f.scope.resolveType type s.compilation := by
    rw [Scope.resolveType_bare h, ha.compilation]
    exact Scope.resolveType_congr fun word hword => hf.scope _ ha.grows word (hw word hword)
  obtain ⟨hg, hc, -⟩ := Scope.makes_resolveType f.scope ha.coherent type
  have hstate : Bind.resolveType type f s = ((f.scope.resolveType type s.compilation).1,
    { s with compilation := (f.scope.resolveType type s.compilation).2 }) := rfl
  have hstate' : Bind.resolveType type' f' s' = ((f'.scope.resolveType type' s'.compilation).1,
    { s' with compilation := (f'.scope.resolveType type' s'.compilation).2 }) := rfl
  rw [hstate, hstate', hsame]
  exact ⟨⟨rfl, hc, ha.grows.trans hg, ha.locals, ha.count⟩, rfl, rfl, rfl⟩

/-! ### Operations -/

/-- Operations of which the same parts count. -/
theorem add {op op' : Operation} (h : (u.add op).Extends C.last → (u'.add op').Extends C.last' →
      C.sought.types.countJoined C.counts' op' = C.sought.types.countJoined C.counts op) :
    C.Tracks (Bind.add op) (Bind.add op') u u' fun r r' v v' => v.get? r = some op ∧ v'.get? r' = some op' ∧
      (u.Extends v ∧ u'.Extends v') ∧ v.Extends C.last ∧ v'.Extends C.last' := by
  rintro f f' s s' hf rfl rfl ha hl hl'
  refine ⟨⟨ha.compilation, ha.coherent, ha.grows, ha.locals, ?_⟩, s.unit.get?_add_nextId op,
    s'.unit.get?_add_nextId op', ⟨s.unit.extends_add op, s'.unit.extends_add op'⟩, hl, hl'⟩
  change (s'.unit.add op').countJoined _ _ = (s.unit.add op).countJoined _ _
  rw [BoundUnit.countJoined_add, BoundUnit.countJoined_add, ha.count, h hl hl']

variable {node node' : Node}

theorem isNull_of_get? {unit : BoundUnit} {id : OperationId} {op : Operation} (h : unit.get? id = some op) :
    unit.isNull id = decide (op.kind = .literal .null) := by
  rw [BoundUnit.isNull, h]
  obtain ⟨kind, _⟩ := op
  cases kind with
  | literal kind => cases kind <;> rfl
  | _ => rfl

/-- An operation that is spelled out, and of which both documents know the same. -/
theorem addExpr_of (h : C.Sees node node') {kind kind' : OperationKind} (type : Option TypeId)
    (hnull : kind' = .literal .null ↔ kind = .literal .null) (hcount : u.Extends C.last → u'.Extends C.last' →
      C.sought.types.countJoined C.counts' ⟨kind', type, node'.origin, false, none⟩ =
        C.sought.types.countJoined C.counts ⟨kind, type, node.origin, false, none⟩) :
    C.Tracks (Bind.addExpr node kind type) (Bind.addExpr node' kind' type) u u' fun r r' v v' => Akin v v' r r' := by
  refine (add fun hl hl' => hcount ((u.extends_add _).trans hl) ((u'.extends_add _).trans hl')).imp
    fun r r' v v' hr => ?_
  obtain ⟨hget, hget', -⟩ := hr
  refine ⟨⟨_, hget, rfl, h.nonempty⟩, ⟨_, hget', rfl⟩, ?_, ?_⟩
  · rw [BoundUnit.typeOf, BoundUnit.typeOf, hget, hget']
    rfl
  · rw [isNull_of_get? hget, isNull_of_get? hget']
    exact decide_eq_decide.2 hnull

/-- An operation that joins no strings. -/
theorem addExpr (h : C.Sees node node') {kind kind' : OperationKind} (type : Option TypeId)
    (hnull : kind' = .literal .null ↔ kind = .literal .null)
    (hjoins : C.sought.types.joinsStrings ⟨kind, type, node.origin, false, none⟩ = false)
    (hjoins' : C.sought.types.joinsStrings ⟨kind', type, node'.origin, false, none⟩ = false) :
    C.Tracks (Bind.addExpr node kind type) (Bind.addExpr node' kind' type) u u' fun r r' v v' => Akin v v' r r' :=
  addExpr_of h type hnull fun _ _ => by simp only [WellKnownTypes.countJoined_of_not_joins, hjoins, hjoins']

theorem addInvalid (h : C.Sees node node') {parts parts' : List OperationId} :
    C.Tracks (Bind.addInvalid node parts) (Bind.addInvalid node' parts') u u' fun r r' v v' => Akin v v' r r' :=
  addExpr h _ (by simp) rfl rfl

/-- An operation that no expression stands for. -/
theorem addUnnamed {op op' : Operation} (h : C.sought.types.joinsStrings op = false)
    (h' : C.sought.types.joinsStrings op' = false) : C.Tracks (Bind.add op) (Bind.add op') u u' Whatever :=
  (add fun _ _ => by simp only [WellKnownTypes.countJoined_of_not_joins, h, h']).imp fun _ _ _ _ _ => trivial

theorem addStmt (span span' : Span) (kind kind' : OperationKind) :
    C.Tracks (Bind.addStmt span kind) (Bind.addStmt span' kind') u u' Whatever :=
  addUnnamed (WellKnownTypes.joinsStrings_untyped ..) (WellKnownTypes.joinsStrings_untyped ..)

theorem addImplicitThis : C.Tracks (Bind.addImplicitThis node) (Bind.addImplicitThis node') u u' Whatever :=
  read fun _ _ _ => addUnnamed rfl rfl

variable {op op' : OperationId}

theorem convert (h : Akin u u' op op') (hn : C.Shares node node') (target : Option TypeId) :
    C.Tracks (Bind.convert op node target) (Bind.convert op' node' target) u u' fun r r' _ _ => C.Matched r r' := by
  cases target with
  | none => exact pure_of h.matched
  | some target =>
    refine Asks.getCompilation.skip fun c => (Asks.typeOf h).skip fun type => (Asks.isNull h).skip fun null => ?_
    refine ite (fun _ => pure_of h.matched) fun _ => ?_
    refine (add fun _ _ => rfl).imp fun r r' v v' hr => ?_
    obtain ⟨hget, hget', ⟨hv, hv'⟩, hl, hl'⟩ := hr
    obtain ⟨parent, hr⟩ := hl _ _ hget
    obtain ⟨parent', hr'⟩ := hl' _ _ hget'
    have hne : r ≠ C.found := by
      rintro rfl
      exact hn.ne (Option.some.inj (congrArg Origin.node (C.of_found _ hr).2))
    have hoperand := h.mono hv hv'
    have hshows : C.shows' node'.origin.span.start = C.sought.shows node.origin.span.start := hn.shows
    rw [Matched, counts, counts', decide_eq_true hne, Bool.true_and, BoundUnit.isSought_of_get? hr,
      BoundUnit.isSought_of_get? hr', hl.typeOf_eq hoperand.solid.mem_ids, hl'.typeOf_eq hoperand.written.mem_ids,
      hoperand.type, ← hshows]

theorem convertSpecial (h : Akin u u' op op') (hn : C.Shares node node') (target : SpecialType) :
    C.Tracks (Bind.convertSpecial op node target) (Bind.convertSpecial op' node' target) u u'
      fun r r' _ _ => C.Matched r r' :=
  (Asks.special target).skip fun _ => convert h hn _

end Tracks

/-! ### Operators -/

open CultureLint.Bind (Operand)

variable (C)

/-- Operands of which the two documents know the same. -/
structure Operands (u u' : BoundUnit) (x x' : Operand) : Prop where
  akin : Akin u u' x.1 x'.1
  shares : C.Shares x.2 x'.2

variable {C}

theorem Operands.mono {v v' : BoundUnit} {x x' : Operand} (h : C.Operands u u' x x') (hv : u.Extends v)
    (hv' : u'.Extends v') : C.Operands v v' x x' := ⟨h.akin.mono hv hv', h.shares⟩

namespace Tracks

variable {node node' : Node} {x x' y y' : Operand}

theorem convertOperand (h : C.Operands u u' x x') (target : Option TypeId) :
    C.Tracks (Bind.convertOperand x target) (Bind.convertOperand x' target) u u' fun r r' _ _ => C.Matched r r' :=
  convert h.akin h.shares target

theorem unary (hn : C.Sees node node') (op : UnaryOp) (h : C.Operands u u' x x') :
    C.Tracks (Bind.unary node op x) (Bind.unary node' op x') u u' fun r r' v v' => Akin v v' r r' := by
  cases op with
  | increment | decrement => exact (Asks.typeOf h.akin).skip fun _ => addExpr hn _ (by simp) rfl rfl
  | not =>
    exact (Asks.special _).skip fun _ => (convertOperand h _).bind fun _ _ _ _ _ _ _ =>
      addExpr hn _ (by simp) rfl rfl
  | plus | minus | bitNot =>
    refine (Asks.typeOf h.akin).skip fun _ => (Asks.numericOf _).skip fun numeric => ?_
    cases numeric with
    | none => exact addExpr hn _ (by simp) rfl rfl
    | some s =>
      exact (convertSpecial h.akin h.shares _).bind fun _ _ _ _ _ _ _ => (Asks.special _).skip fun _ =>
        addExpr hn _ (by simp) rfl rfl

theorem step (hn : C.Sees node node') (increment : Bool) {op op' : OperationId} (h : Akin u u' op op') :
    C.Tracks (Bind.step node increment op) (Bind.step node' increment op') u u'
      fun r r' v v' => Akin v v' r r' := (Asks.typeOf h).skip fun _ => addExpr hn _ (by simp) rfl rfl

theorem cast (hn : C.Sees node node') (target : Option TypeId) {op op' : OperationId} (h : Akin u u' op op') :
    C.Tracks (Bind.cast node target op) (Bind.cast node' target op') u u' fun r r' v v' => Akin v v' r r' := by
  cases target with
  | none => exact addInvalid hn
  | some target =>
    exact Asks.getCompilation.skip fun _ => (Asks.typeOf h).skip fun _ => (Asks.isNull h).skip fun _ =>
      addExpr hn _ (by simp) rfl rfl

theorem concatOperand (h : C.Operands u u' x x') :
    C.Tracks (Bind.concatOperand x) (Bind.concatOperand x') u u' fun r r' _ _ => C.Matched r r' :=
  (Asks.typeOf h.akin).skip fun _ => (Asks.isString _).skip fun _ => ite (fun _ => pure_of h.akin.matched) fun _ =>
    (Asks.isNull h.akin).skip fun _ => ite (fun _ => convertSpecial h.akin h.shares _)
      fun _ => convertSpecial h.akin h.shares _

theorem convertBoth (h : C.Operands u u' x x') (h' : C.Operands u u' y y') (target : Option TypeId) :
    C.Tracks (Bind.convertBoth x y target) (Bind.convertBoth x' y' target) u u'
      fun r r' _ _ => C.Matched r.1 r'.1 ∧ C.Matched r.2 r'.2 :=
  (convertOperand h target).bind fun _ _ _ _ hv hv' hl => (convertOperand (h'.mono hv hv') target).bind
    fun _ _ _ _ _ _ hr => pure ⟨hl, hr⟩

theorem binaryOperands (op : BinaryOp) (h : C.Operands u u' x x') (h' : C.Operands u u' y y') :
    C.Tracks (Bind.binaryOperands op x y) (Bind.binaryOperands op x' y') u u' fun r r' _ _ =>
      (C.Matched r.1.1 r'.1.1 ∧ C.Matched r.1.2 r'.1.2) ∧ r'.2 = r.2 := by
  refine (Asks.typeOf h.akin).skip fun _ => (Asks.typeOf h'.akin).skip fun _ => (Asks.special _).skip fun boolean =>
    (Asks.promotionOf _ _).skip fun numeric => ?_
  have both (target type : Option TypeId) : C.Tracks
      (Bind.convertBoth x y target >>= fun both => Pure.pure (both, type))
      (Bind.convertBoth x' y' target >>= fun both => Pure.pure (both, type)) u u' fun r r' _ _ =>
        (C.Matched r.1.1 r'.1.1 ∧ C.Matched r.1.2 r'.1.2) ∧ r'.2 = r.2 :=
    (convertBoth h h' target).bind fun _ _ _ _ _ _ hr => pure ⟨hr, rfl⟩
  have calculate : C.Tracks
      (Bind.specialType numeric >>= fun promoted => Bind.convertBoth x y promoted >>= fun both =>
        Pure.pure (both, promoted))
      (Bind.specialType numeric >>= fun promoted => Bind.convertBoth x' y' promoted >>= fun both =>
        Pure.pure (both, promoted)) u u' fun r r' _ _ =>
          (C.Matched r.1.1 r'.1.1 ∧ C.Matched r.1.2 r'.1.2) ∧ r'.2 = r.2 :=
    (Asks.specialType numeric).skip fun promoted => both promoted promoted
  have asTheyAre (type : Option TypeId) : C.Tracks (Pure.pure ((x.1, y.1), type)) (Pure.pure ((x'.1, y'.1), type)) u u'
      fun r r' _ _ => (C.Matched r.1.1 r'.1.1 ∧ C.Matched r.1.2 r'.1.2) ∧ r'.2 = r.2 :=
    pure_of fun hl hl' => ⟨⟨h.akin.matched hl hl', h'.akin.matched hl hl'⟩, rfl⟩
  cases op with
  | add =>
    refine (Asks.isString _).skip fun _ => (Asks.isString _).skip fun _ => ite (fun _ => ?_) fun _ =>
      ite (fun _ => calculate) fun _ => asTheyAre _
    exact (concatOperand h).bind fun _ _ _ _ hv hv' hl => (concatOperand (h'.mono hv hv')).bind
      fun _ _ _ _ _ _ hr => (Asks.special _).skip fun _ => pure ⟨⟨hl, hr⟩, rfl⟩
  | sub | mul | div | rem => exact ite (fun _ => calculate) fun _ => asTheyAre _
  | shl =>
    exact (Asks.numericOf _).skip fun _ => (Asks.specialType _).skip fun _ => (convertOperand h _).bind
      fun _ _ _ _ hv hv' hl => (convertSpecial (h'.mono hv hv').akin h'.shares _).bind
        fun _ _ _ _ _ _ hr => pure ⟨⟨hl, hr⟩, rfl⟩
  | bitAnd | bitOr | bitXor =>
    exact ite (fun _ => asTheyAre _) fun _ => ite (fun _ => calculate) fun _ => asTheyAre _
  | eq | ne | lt | gt | le | ge => exact (Asks.specialType _).skip fun _ => both _ _
  | and | or => exact both _ _
  | coalesce => exact asTheyAre _

theorem binary (hn : C.Sees node node') (op : BinaryOp) (h : C.Operands u u' x x') (h' : C.Operands u u' y y') :
    C.Tracks (Bind.binary node op x y) (Bind.binary node' op x' y') u u' fun r r' v v' => Akin v v' r r' := by
  refine (binaryOperands op h h').bind fun r r' _ _ _ _ hr => ?_
  obtain ⟨⟨l, r⟩, type⟩ := r
  obtain ⟨⟨l', r'⟩, type'⟩ := r'
  obtain ⟨⟨hl, hr⟩, rfl⟩ := hr
  exact addExpr_of hn _ (by simp) fun _ _ => countJoined_binary op hl hr

theorem assignment (hn : C.Sees node node') (op : AssignOp) {target target' : OperationId}
    (ht : Akin u u' target target') (h : C.Operands u u' x x') :
    C.Tracks (Bind.assignment node op target x) (Bind.assignment node' op target' x') u u'
      fun r r' v v' => Akin v v' r r' := by
  refine (Asks.typeOf ht).skip fun type => ?_
  cases op with
  | assign => exact (convertOperand h _).bind fun _ _ _ _ _ _ _ => addExpr hn _ (by simp) rfl rfl
  | compound op =>
    have finish {m m' : Bind OperationId} [Bind.Adds m] [Bind.Adds m']
        (hm : C.Tracks m m' u u' fun r r' _ _ => C.Matched r r') : C.Tracks
          (m >>= fun value => Bind.addExpr node (.compoundAssignment op target value) type)
          (m' >>= fun value => Bind.addExpr node' (.compoundAssignment op target' value) type) u u'
          fun r r' v v' => Akin v v' r r' := hm.bind fun _ _ v v' hv hv' hr => by
      refine addExpr_of hn _ (by simp) fun hl hl' => ?_
      exact countJoined_compoundAssignment op ((ht.mono hv hv').matched hl hl') hr
    refine (Asks.isString _).skip fun _ => ite (fun _ => finish (concatOperand h)) fun _ => ?_
    exact (Asks.typeOf h.akin).skip fun _ => (Asks.promotionOf _ _).skip fun _ =>
        (Asks.specialType _).skip fun _ => finish (convertOperand h _)

theorem conditional (hn : C.Sees node node') (condition condition' : OperationId) (h : C.Operands u u' x x')
    (h' : C.Operands u u' y y') :
    C.Tracks (Bind.conditional node condition x y) (Bind.conditional node' condition' x' y') u u'
      fun r r' v v' => Akin v v' r r' := by
  refine Asks.getCompilation.skip fun _ => (Asks.typeOf h.akin).skip fun _ => (Asks.typeOf h'.akin).skip fun _ =>
    (Asks.isNull h.akin).skip fun _ => (Asks.isNull h'.akin).skip fun _ => ?_
  exact (convertBoth h h' _).bind fun r r' _ _ _ _ _ => addExpr hn _ (by simp) rfl rfl

end Tracks

/-! ### Names, members and calls -/

/-- Receivers of one form. -/
inductive Receivers : Receiver → Receiver → Prop
  | value (op op' : OperationId) : Receivers (.value op) (.value op')
  | typeName : Receivers .typeName .typeName
  | implicit : Receivers .implicit .implicit

/-- What two expressions turn out to be, if it is the same. -/
inductive Bounds (u u' : BoundUnit) : Bound → Bound → Prop
  | value {op op' : OperationId} (h : Akin u u' op op') : Bounds u u' (.value op) (.value op')
  | type (id : TypeId) : Bounds u u' (.type id) (.type id)
  | namespaceName (space : String) : Bounds u u' (.namespaceName space) (.namespaceName space)
  | methodGroup (owner : TypeId) (word : String) {r r' : Receiver} (h : Receivers r r') :
    Bounds u u' (.methodGroup owner word r) (.methodGroup owner word r')

theorem Bounds.mono {v v' : BoundUnit} {b b' : Bound} (h : Bounds u u' b b') (hv : u.Extends v)
    (hv' : u'.Extends v') : Bounds v v' b b' := by
  cases h with
  | value h => exact .value (h.mono hv hv')
  | type id => exact .type id
  | namespaceName space => exact .namespaceName space
  | methodGroup owner word h => exact .methodGroup owner word h

theorem Bounds.ofTarget (target : NameTarget) : Bounds u u' (.ofTarget target) (.ofTarget target) := by
  cases target with
  | type id => exact .type id
  | namespaceName space => exact .namespaceName space

theorem Receivers.implicit_iff {r r' : Receiver} (h : Receivers r r') : r' = .implicit ↔ r = .implicit := by
  cases h <;> simp

theorem Asks.mapM {A B : Type} {f : A → Bind β} {f' : B → Bind β} {as : List A} {bs : List B}
    (h : List.Forall₂ (fun a b => C.Asks (f a) (f' b) u u') as bs) : C.Asks (as.mapM f) (bs.mapM f') u u' := by
  induction h with
  | nil => exact .pure
  | cons h _ ih =>
    rw [List.mapM_cons, List.mapM_cons]
    exact h.bind fun _ => ih.bind fun _ => .pure

/-- What is done with a name that is no variable, once the members have been looked through. -/
theorem adds_orResolve (node : Node) (word : String) (b : Option Bound) : Bind.Adds (match b with
    | some bound => (Pure.pure bound : Bind Bound)
    | _ => do
      match (← read).scope.resolveName (← Bind.getCompilation) word with
      | some target => return .ofTarget target
      | none => return .value (← Bind.addInvalid node [])) := by
  cases b with
  | some bound => exact .pure bound
  | none =>
    refine @Bind.Adds.bind _ _ _ _ _ fun frame => @Bind.Adds.bind _ _ _ _ _ fun c => ?_
    cases frame.scope.resolveName c word <;> infer_instance

namespace Tracks

variable {node node' : Node}

theorem asValue (hn : C.Sees node node') {b b' : Bound} (h : Bounds u u' b b') :
    C.Tracks (Bind.asValue node b) (Bind.asValue node' b') u u' fun r r' v v' => Akin v v' r r' := by
  cases h with
  | value h => exact pure h
  | type | namespaceName | methodGroup => exact addInvalid hn

/-- The `this` that is left out, or the receiver that is there. -/
theorem receiver {r r' : Receiver} {c c' : Prop} [Decidable c] [Decidable c'] (hc : c' ↔ c)
    {k : Option OperationId → Bind γ} {k' : Option OperationId → Bind δ} [∀ o, Bind.Adds (k o)]
    [∀ o, Bind.Adds (k' o)] {Q : γ → δ → BoundUnit → BoundUnit → Prop}
    (hk : ∀ o o' v v', u.Extends v → u'.Extends v' → C.Tracks (k o) (k' o') v v' Q) :
    C.Tracks (if c then some <$> Bind.addImplicitThis node >>= k else Pure.pure r.value? >>= k)
      (if c' then some <$> Bind.addImplicitThis node' >>= k' else Pure.pure r'.value? >>= k') u u' Q := by
  have hthis : C.Tracks (some <$> Bind.addImplicitThis node) (some <$> Bind.addImplicitThis node') u u' Whatever :=
    addImplicitThis.map fun _ _ _ _ _ => trivial
  have hsame : C.Tracks (Pure.pure r.value?) (Pure.pure r'.value?) u u' Whatever := pure trivial
  exact ite_of_iff hc (hthis.bind fun o o' v v' hv hv' _ => hk o o' v v' hv hv')
    (hsame.bind fun o o' v v' hv hv' _ => hk o o' v v' hv hv')

theorem implicit_iff {r r' : Receiver} (h : Receivers r r') {f f' : Frame} (hf : C.Frames f f') (isStatic : Bool) :
    (decide (r' = .implicit) && !isStatic && !f'.inStatic) = true ↔
      (decide (r = .implicit) && !isStatic && !f.inStatic) = true := by
  simp only [h.implicit_iff, hf.inStatic]

theorem member? (hn : C.Sees node node') (owner : TypeId) (word : String) {r r' : Receiver}
    (h : Receivers r r') : C.Tracks (Bind.member? node owner word r) (Bind.member? node' owner word r') u u'
      fun b b' v v' => Option.Rel (Bounds v v') b b' := by
  have use {kind kind' : OperationKind} (type : Option TypeId)
      (hnull : kind' = .literal .null ↔ kind = .literal .null)
      (hjoins : C.sought.types.joinsStrings ⟨kind, type, node.origin, false, none⟩ = false)
      (hjoins' : C.sought.types.joinsStrings ⟨kind', type, node'.origin, false, none⟩ = false) (v v' : BoundUnit) :
      C.Tracks (Bind.addExpr node kind type >>= fun op => Pure.pure (some (Bound.value op)))
        (Bind.addExpr node' kind' type >>= fun op => Pure.pure (some (Bound.value op))) v v'
        fun b b' v v' => Option.Rel (Bounds v v') b b' :=
    (addExpr hn type hnull hjoins hjoins').bind fun _ _ _ _ _ _ hr => pure (.some (.value hr))
  refine Asks.getCompilation.skip fun c => ?_
  cases c.membersNamed owner word with
  | nil => exact pure .none
  | cons found others =>
    obtain ⟨ref, member⟩ := found
    cases member with
    | method symbol => exact pure (.some (.methodGroup owner word h))
    | property symbol | field symbol =>
      exact read fun f f' hf => receiver (implicit_iff h hf symbol.isStatic) fun _ _ v v' _ _ =>
        use symbol.type (by simp) rfl rfl v v'

theorem name (hn : C.Sees node node') {word : String} (hw : C.knows word) :
    C.Tracks (Bind.name node word) (Bind.name node' word) u u' fun b b' v v' => Bounds v v' b b' := by
  refine (Asks.local? word).skip fun found => ?_
  cases found with
  | some type => exact (addExpr hn _ (by simp) rfl rfl).bind fun _ _ _ _ _ _ hr => pure (.value hr)
  | none =>
    refine read fun f f' hf => ?_
    rw [hf.parameters]
    cases f.parameters.lookup word with
    | some type => exact (addExpr hn _ (by simp) rfl rfl).bind fun _ _ _ _ _ _ hr => pure (.value hr)
    | none =>
      refine read fun f f' hf => ?_
      rw [hf.containing]
      refine bind_of_adds (fun b => ?_) (fun b => ?_) (member? hn _ word .implicit) fun b b' v v' _ _ hb => ?_
      · exact adds_orResolve node word b
      · exact adds_orResolve node' word b
      · cases hb with
        | some hb => exact pure hb
        | none =>
          refine read fun f f' hf => getCompilation fun c hc => ?_
          rw [hf.scope c hc word hw]
          cases f.scope.resolveName c word with
          | some target => exact pure (.ofTarget target)
          | none => exact (addInvalid hn).bind fun _ _ _ _ _ _ hr => pure (.value hr)

theorem memberAccess (hn : C.Sees node node') {b b' : Bound} (h : Bounds u u' b b') (word : String) :
    C.Tracks (Bind.memberAccess node b word) (Bind.memberAccess node' b' word) u u'
      fun b b' v v' => Bounds v v' b b' := by
  have hinvalid {v v' : BoundUnit} {parts parts' : List OperationId} :
      C.Tracks (Bound.value <$> Bind.addInvalid node parts) (Bound.value <$> Bind.addInvalid node' parts') v v'
        fun b b' v v' => Bounds v v' b b' := (addInvalid hn).map fun _ _ _ _ hr => .value hr
  -- what is done with a member that is found, and with one that is not
  have orInvalid {m m' : Bind (Option Bound)} [Bind.Adds m] [Bind.Adds m'] {k k' : Option Bound → Bind Bound}
      {parts parts' : List OperationId} (hsome : ∀ b, k (some b) = Pure.pure b)
      (hnone : k none = Bound.value <$> Bind.addInvalid node parts) (hsome' : ∀ b, k' (some b) = Pure.pure b)
      (hnone' : k' none = Bound.value <$> Bind.addInvalid node' parts')
      (h : C.Tracks m m' u u' fun b b' v v' => Option.Rel (Bounds v v') b b') :
      C.Tracks (m >>= k) (m' >>= k') u u' fun b b' v v' => Bounds v v' b b' := by
    refine bind_of_adds (fun b => ?_) (fun b => ?_) h fun b b' v v' _ _ hb => ?_
    · cases b with
      | none => exact hnone ▸ inferInstance
      | some b => exact hsome b ▸ inferInstance
    · cases b with
      | none => exact hnone' ▸ inferInstance
      | some b => exact hsome' b ▸ inferInstance
    · cases hb with
      | some hb =>
        rw [hsome, hsome']
        exact pure hb
      | none =>
        rw [hnone, hnone']
        exact hinvalid
  cases h with
  | namespaceName space =>
    refine Asks.getCompilation.skip fun c => ?_
    cases Scope.resolveMember c (.namespaceName space) word with
    | some target => exact pure (.ofTarget target)
    | none => exact hinvalid
  | type id => exact orInvalid (fun _ => rfl) rfl (fun _ => rfl) rfl (member? hn id word .typeName)
  | value h =>
    refine (Asks.typeOf h).skip fun type => ?_
    cases type with
    | none => exact hinvalid
    | some id => exact orInvalid (fun _ => rfl) rfl (fun _ => rfl) rfl (member? hn id word (.value _ _))
  | methodGroup owner word h => exact hinvalid

variable {args args' : List Operand}

theorem convertArguments (h : List.Forall₂ (C.Operands u u') args args') (parameters : List ParameterSymbol) :
    C.Tracks (Bind.convertArguments args parameters) (Bind.convertArguments args' parameters) u u' Whatever := by
  induction args generalizing args' parameters u u' with
  | nil =>
    cases h
    cases parameters <;> exact pure trivial
  | cons x args ih =>
    cases h with
    | @cons _ x' _ args' hx hargs =>
      cases parameters with
      | nil => exact pure trivial
      | cons p parameters =>
        refine (convert hx.akin hx.shares p.type).bind fun _ _ _ _ hv hv' _ => ?_
        exact (ih (hargs.imp fun _ _ h => h.mono hv hv') parameters).bind fun _ _ _ _ _ _ _ => pure trivial

theorem callGroup (hn : C.Sees node node') (owner : TypeId) (word : String) {r r' : Receiver}
    (hr : Receivers r r') (h : List.Forall₂ (C.Operands u u') args args') :
    C.Tracks (Bind.callGroup node owner word r args) (Bind.callGroup node' owner word r' args') u u'
      fun r r' v v' => Akin v v' r r' := by
  refine (Asks.mapM (h.imp fun _ _ hx => (Asks.typeOf hx.akin).bind fun _ =>
    (Asks.isNull hx.akin).bind fun _ => .pure)).skip fun types => Asks.getCompilation.skip fun c => ?_
  cases Bind.overload? c owner word types with
  | none => exact addExpr hn _ (by simp) rfl rfl
  | some found =>
    obtain ⟨ref, method⟩ := found
    refine read fun f f' hf => receiver (implicit_iff hr hf method.isStatic) fun o o' _ _ hv hv' => ?_
    exact (convertArguments (h.imp fun _ _ h => h.mono hv hv') method.parameters).bind fun _ _ _ _ _ _ _ =>
      addExpr hn _ (by simp) rfl rfl

theorem invocation (hn : C.Sees node node') {callee callee' : Bound} (hc : Bounds u u' callee callee')
    (h : List.Forall₂ (C.Operands u u') args args') :
    C.Tracks (Bind.invocation node callee args) (Bind.invocation node' callee' args') u u'
      fun r r' v v' => Akin v v' r r' := by
  cases hc with
  | methodGroup owner word hr => exact callGroup hn owner word hr h
  | value | type | namespaceName => exact addInvalid hn

theorem elementAccess (hn : C.Sees node node') {op op' : OperationId} (h : Akin u u' op op')
    (ops ops' : List OperationId) :
    C.Tracks (Bind.elementAccess node op ops) (Bind.elementAccess node' op' ops') u u'
      fun r r' v v' => Akin v v' r r' :=
  Asks.getCompilation.skip fun _ => (Asks.typeOf h).skip fun _ =>
    addExpr hn _ (by simp) rfl rfl

end Tracks

end Comparison

end CultureLint
