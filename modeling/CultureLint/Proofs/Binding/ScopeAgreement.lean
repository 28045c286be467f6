import CultureLint.Fix.Import
import CultureLint.Proofs.Document.Reread

/-! Two ways to say which namespaces are known at a place. The binder hands a scope down the tree;
where an import is wanted, it is looked for by the spans that touch a position. Main statement: at the
start of an expression they agree. -/

namespace CultureLint

/-! ### Names of namespaces -/

theorem mem_beforePoints {l cs : List Char} : l ∈ beforePoints cs ↔ l ++ ['.'] <+: cs := by
  induction cs generalizing l with
  | nil => simp [beforePoints]
  | cons c cs ih =>
    have hlonger : l ∈ (beforePoints cs).map (c :: ·) ↔ ∃ l', l = c :: l' ∧ l' ++ ['.'] <+: cs := by
      simp only [List.mem_map, ih]
      exact ⟨fun ⟨l', h, he⟩ => ⟨l', he.symm, h⟩, fun ⟨l', he, h⟩ => ⟨l', h, he.symm⟩⟩
    have hall : l ∈ beforePoints (c :: cs) ↔
        (l = [] ∧ c = '.') ∨ ∃ l', l = c :: l' ∧ l' ++ ['.'] <+: cs := by
      rw [← hlonger]
      by_cases hc : c = '.' <;> simp [beforePoints, hc]
    rw [hall]
    cases l with
    | nil => simp [List.cons_prefix_cons, eq_comm]
    | cons a l => simp [List.cons_prefix_cons]

/-- A namespace covers those that are named by it and more. -/
theorem mem_enclosingNames {space dotted : String} :
    space ∈ enclosingNames dotted ↔ coversNamespace space dotted = true := by
  simp only [enclosingNames, List.mem_cons, List.mem_map, List.mem_reverse, mem_beforePoints,
    coversNamespace, Bool.or_eq_true, beq_iff_eq, List.isPrefixOf_iff_prefix]
  constructor
  · rintro (rfl | ⟨l, hl, rfl⟩)
    · exact .inl rfl
    · exact .inr (by simpa using hl)
  · rintro (rfl | h)
    · exact .inl rfl
    · exact .inr ⟨space.toList, h, by simp⟩

/-- What covers a namespace covers what is declared in it. -/
theorem coversNamespace_joinName {space outer : String} (hs : space ≠ "")
    (h : coversNamespace space outer = true) (inner : String) :
    coversNamespace space (joinName outer inner) = true := by
  simp only [coversNamespace, Bool.or_eq_true, beq_iff_eq, List.isPrefixOf_iff_prefix] at h ⊢
  have hne : outer ≠ "" := by
    rintro rfl
    obtain rfl | h := h
    · exact hs rfl
    · simp at h
  right
  rw [joinName, if_neg (by simpa using hne)]
  obtain rfl | ⟨r, hr⟩ := h
  · exact ⟨inner.toList, by simp⟩
  · exact ⟨r ++ '.' :: inner.toList, by simp [← hr]⟩

/-! ### Scopes -/

namespace Scope

variable {scope : Scope} {space : String}

theorem addUsing_namespaces (u : Using) : (scope.addUsing u).namespaces = scope.namespaces := by
  unfold addUsing
  split
  · rfl
  · split <;> rfl

@[simp] theorem addUsings_namespaces (us : List Using) :
    (scope.addUsings us).namespaces = scope.namespaces := by
  induction us generalizing scope with
  | nil => rfl
  | cons u us ih => exact ih.trans (addUsing_namespaces u)

@[simp] theorem current_addUsings (us : List Using) : (scope.addUsings us).current = scope.current := by
  simp [current]

theorem mem_usings_addUsing (u : Using) : space ∈ (scope.addUsing u).usings ↔
    space ∈ scope.usings ∨ (u.importsNamespace && u.name.dotted == space) = true := by
  unfold addUsing Using.importsNamespace
  split
  · simp [‹u.aliasIdent = _›]
  · split
    · simp [‹u.aliasIdent = _›, ‹u.isStatic = true›]
    · simp [‹u.aliasIdent = _›, ‹¬ u.isStatic = true›, eq_comm (a := space)]

/-- The imported namespaces are those that a line imports. -/
theorem mem_usings_addUsings {us : List Using} : space ∈ (scope.addUsings us).usings ↔
    space ∈ scope.usings ∨ imports us space = true := by
  induction us generalizing scope with
  | nil => simp [addUsings, imports]
  | cons u us ih =>
    refine ih.trans ?_
    rw [mem_usings_addUsing, or_assoc]
    simp [imports]

@[simp] theorem usings_enter (name : QualifiedName) : (scope.enter name).usings = scope.usings := rfl

@[simp] theorem current_enter (name : QualifiedName) :
    (scope.enter name).current = joinName scope.current name.dotted := rfl

/-- The enclosing namespaces are those that cover the innermost one. -/
def Nested (scope : Scope) : Prop :=
  ∀ space, space ≠ "" → (space ∈ scope.namespaces ↔ coversNamespace space scope.current = true)

theorem nested_empty : Nested {} := by
  intro space hs
  simp [current, coversNamespace, hs, Ne.symm hs]

theorem nested_enter (scope : Scope) (name : QualifiedName) : (scope.enter name).Nested := by
  intro space hs
  rw [current_enter, ← mem_enclosingNames]
  simp [enter, hs]

theorem Nested.addUsings (h : scope.Nested) (us : List Using) : (scope.addUsings us).Nested := by
  intro space hs
  rw [addUsings_namespaces, current_addUsings, h space hs]

/-- The namespaces that a scope knows. -/
def Knows (scope : Scope) (space : String) : Prop := space ∈ scope.usings ∨ space ∈ scope.namespaces

/-- Inside a namespace one knows what covers it, and what is imported there or was known before. -/
theorem knows_enter (h : scope.Nested) (hs : space ≠ "") (name : QualifiedName) (us : List Using) :
    ((scope.enter name).addUsings us).Knows space ↔ scope.Knows space ∨
      coversNamespace space (joinName scope.current name.dotted) = true ∨ imports us space = true := by
  have hin := nested_enter scope name space hs
  rw [current_enter] at hin
  simp only [Knows, mem_usings_addUsings, addUsings_namespaces, usings_enter, hin, h space hs]
  have hmono (hcovers : coversNamespace space scope.current = true) :=
    coversNamespace_joinName hs hcovers name.dotted
  tauto

end Scope

/-! ### Expressions inside namespaces and types -/

/-- A position at which a token starts that has others before it. -/
def StartsBehind (w : List Token) (position : Nat) : Prop :=
  ∃ a t b, w = a ++ t :: b ∧ a ≠ [] ∧ t.start = position

namespace StartsBehind

variable {w v : List Token} {position : Nat}

theorem append_left (h : StartsBehind w position) (v : List Token) : StartsBehind (v ++ w) position := by
  obtain ⟨a, t, b, rfl, ha, ht⟩ := h
  exact ⟨v ++ a, t, b, by simp, by simp [ha], ht⟩

theorem append_right (h : StartsBehind w position) (v : List Token) : StartsBehind (w ++ v) position := by
  obtain ⟨a, t, b, rfl, ha, ht⟩ := h
  exact ⟨a, t, b ++ v, by simp, ha, ht⟩

/-- The span of the tokens holds the position. -/
theorem touches (h : StartsBehind w position) (ho : Ordered w) {span : Span} (hp : Placed w ⟨0, span⟩) :
    span.start ≤ position ∧ position ≤ span.stop := by
  obtain ⟨a, t, b, rfl, ha, rfl⟩ := h
  obtain ⟨f, hf⟩ : ∃ f, (a ++ t :: b).head? = some f := Option.ne_none_iff_exists'.1 (by simp)
  obtain ⟨l, hl⟩ : ∃ l, (a ++ t :: b).getLast? = some l := Option.ne_none_iff_exists'.1 (by simp)
  have hb := ho.bounds hf hl (t := t) (by simp)
  have := ho.nonempty t (by simp)
  have hstart : span.start = f.start := hp.start f hf
  have hstop : span.stop = l.span.stop := hp.stop l hl
  omega

/-- The tokens before end before the position. -/
theorem lt_of_before (h : StartsBehind w position) (ho : Ordered (v ++ w)) {t : Token} (ht : t ∈ v) :
    t.span.stop < position := by
  obtain ⟨a, u, b, rfl, ha, rfl⟩ := h
  obtain ⟨f, a, rfl⟩ := List.exists_cons_of_ne_nil ha
  obtain ⟨-, how, hbefore⟩ := Ordered.append_iff.1 ho
  have h₁ := hbefore t ht f (by simp)
  have h₂ := how.nonempty f (by simp)
  have h₃ : f.span.stop ≤ u.start := List.rel_of_pairwise_cons how.pairwise (by simp)
  omega

/-- The tokens behind start behind the position. -/
theorem lt_of_behind (h : StartsBehind w position) (ho : Ordered (w ++ v)) {t : Token} (ht : t ∈ v) :
    position < t.start := by
  obtain ⟨a, u, b, rfl, ha, rfl⟩ := h
  obtain ⟨how, -, hbehind⟩ := Ordered.append_iff.1 ho
  have h₁ := hbehind u (by simp) t ht
  have h₂ := how.nonempty u (by simp)
  omega

end StartsBehind

/-- An expression that stands among tokens behind others. -/
theorem Laid.startsBehind {a v : List Token} {ps : List Part} (h : Laid v ps) (ha : a ≠ []) {e : Expr}
    {depth : Nat} (he : (e, depth) ∈ Part.walk ps) : StartsBehind (a ++ v) e.span.start := by
  obtain ⟨o, ho, he⟩ := List.mem_flatMap.1 he
  obtain ⟨u, x, y, rfl, n, hx⟩ := h.mem (Part.mem_exprs.1 ho)
  obtain ⟨u', x', y', n', rfl, hx'⟩ := hx.inner (List.mem_map.2 ⟨_, he, rfl⟩)
  obtain ⟨t, r, rfl⟩ := List.exists_cons_of_ne_nil hx'.ne_nil
  exact ⟨a ++ u ++ u', t, r ++ y' ++ y, by simp, by simp [ha], (hx'.node.start t rfl).symm⟩

/-- A namespace whose tokens all lie on one side of a position does not touch it. -/
theorem Placed.enclosing_eq_nil {w : List Token} {span : Span} (h : Placed w ⟨0, span⟩) (hw : w ≠ [])
    {position : Nat} (hp : (∀ t ∈ w, position < t.start) ∨ ∀ t ∈ w, t.span.stop < position)
    (name : QualifiedName) (fileScoped : Bool) (us : List Using) (ms : List NamespaceMember) :
    (NamespaceMember.namespaceDecl name fileScoped us ms span).enclosing position = [] := by
  obtain ⟨⟨f, hf, hstart⟩, l, hl, hstop⟩ := h.ends hw
  have hout : ¬ (span.start ≤ position ∧ position ≤ span.stop) := by
    dsimp only at hstart hstop
    obtain hp | hp := hp
    · have := hp f hf
      omega
    · have := hp l hl
      omega
  rw [NamespaceMember.enclosing, if_neg (by simpa using hout)]

theorem Twins.enclosingAll_eq_nil {c : Change} {w w' : List Token} {ms ms' : List NamespaceMember}
    (h : Twins c w w' ms ms') {position : Nat}
    (hp : (∀ t ∈ w, position < t.start) ∨ ∀ t ∈ w, t.span.stop < position) :
    NamespaceMember.enclosingAll position ms = [] := by
  induction h with
  | nil => rfl
  | typeDecl _ _ _ _ _ ih =>
    rw [NamespaceMember.enclosingAll, NamespaceMember.enclosing, List.nil_append]
    exact ih (hp.imp (fun h t ht => h t (by simp [ht])) fun h t ht => h t (by simp [ht]))
  | namespaceDecl ha _ _ hplaced _ _ _ _ _ _ _ ih =>
    have hside {w v : List Token} (h : (∀ t ∈ w ++ v, position < t.start) ∨
        ∀ t ∈ w ++ v, t.span.stop < position) :
        (∀ t ∈ w, position < t.start) ∨ ∀ t ∈ w, t.span.stop < position :=
      h.imp (fun h t ht => h t (List.mem_append_left _ ht)) fun h t ht => h t (List.mem_append_left _ ht)
    rw [NamespaceMember.enclosingAll, hplaced.enclosing_eq_nil (by simp [ha]) (hside hp), List.nil_append]
    exact ih (hp.imp (fun h t ht => h t (by simp [ht])) fun h t ht => h t (by simp [ht]))

/-! ### Declared types -/

namespace NamespaceMember

mutual

/-- The types of a namespace, or the one type. -/
def types : NamespaceMember → List TypeDecl
  | .namespaceDecl _ _ _ members _ => typesAll members
  | .typeDecl decl => [decl]

/-- The types of several namespaces and types. -/
def typesAll : List NamespaceMember → List TypeDecl
  | [] => []
  | m :: ms => m.types ++ typesAll ms

end

mutual

/-- The types of a namespace, each with the scope that it sees, or the one type. -/
def typesIn (scope : Scope) : NamespaceMember → List (Scope × TypeDecl)
  | .namespaceDecl name _ usings members _ => typesInAll ((scope.enter name).addUsings usings) members
  | .typeDecl decl => [(scope, decl)]

/-- The types of several namespaces and types, each with the scope that it sees. -/
def typesInAll (scope : Scope) : List NamespaceMember → List (Scope × TypeDecl)
  | [] => []
  | m :: ms => m.typesIn scope ++ typesInAll scope ms

end

mutual

theorem map_snd_typesIn (scope : Scope) : (m : NamespaceMember) → (m.typesIn scope).map Prod.snd = m.types
  | .namespaceDecl _ _ _ members _ => map_snd_typesInAll _ members
  | .typeDecl _ => rfl

theorem map_snd_typesInAll (scope : Scope) :
    (ms : List NamespaceMember) → (typesInAll scope ms).map Prod.snd = typesAll ms
  | [] => rfl
  | m :: ms => by
    rw [typesInAll, List.map_append, map_snd_typesIn scope m, map_snd_typesInAll scope ms, typesAll]

end

end NamespaceMember

namespace Compilation

mutual

theorem declareMember_typesIn (document : Nat) (scope : Scope) (m : NamespaceMember) (c : Compilation) :
    (declareMember document scope m c).1.map (fun d => (d.scope, d.decl)) = m.typesIn scope := by
  cases m with
  | namespaceDecl _ _ _ members => exact declareMembers_typesIn document _ members c
  | typeDecl decl => rfl

theorem declareMembers_typesIn (document : Nat) (scope : Scope) (ms : List NamespaceMember)
    (c : Compilation) : (declareMembers document scope ms c).1.map (fun d => (d.scope, d.decl)) =
      NamespaceMember.typesInAll scope ms := by
  cases ms with
  | nil => rfl
  | cons m ms =>
    rw [NamespaceMember.typesInAll, ← declareMember_typesIn document scope m c,
      ← declareMembers_typesIn document scope ms (declareMember document scope m c).2]
    exact List.map_append

end

/-- The types of a document that stands alone are declared with the scopes that they see. -/
theorem declareTypes_typesIn (unit : CompilationUnit) (c : Compilation) :
    ((declareTypes [unit]).run c).1.map (fun d => (d.scope, d.decl)) =
      NamespaceMember.typesInAll (documentScope [unit] unit) unit.members := by
  refine Eq.trans ?_ (declareMembers_typesIn 0 _ _ c)
  exact congrArg _ (List.append_nil _)

end Compilation

/-! ### Agreement -/

open NamespaceMember in
/-- What the scope of a type knows is what is known outside and what is found by the spans. -/
theorem Twins.knows_iff {c : Change} {w w' : List Token} {ms ms' : List NamespaceMember}
    (h : Twins c w w' ms ms') (ho : Ordered w) {scope : Scope} (hn : scope.Nested) {t : Scope × TypeDecl}
    (ht : t ∈ typesInAll scope ms) {e : Expr} {depth : Nat}
    (he : (e, depth) ∈ t.2.members.flatMap MemberDecl.walk) :
    StartsBehind w e.span.start ∧ ∀ space, space ≠ "" → (t.1.Knows space ↔ scope.Knows space ∨
      enclosingKnows space scope.current (enclosingAll e.span.start ms) = true) := by
  induction h generalizing scope with
  | nil => simp [typesInAll] at ht
  | @typeDecl a v _ x _ decl _ ms _ ha hv _ _ hs ih =>
    rw [enclosingAll, enclosing, List.nil_append]
    obtain rfl | ht := List.mem_cons.1 ht
    · have hstart : StartsBehind (a ++ v) e.span.start :=
        hv.startsBehind ha (by rwa [walk_parts_list MemberDecl.walk_parts])
      rw [hs.enclosingAll_eq_nil (.inl fun t ht => hstart.lt_of_behind ho ht)]
      exact ⟨hstart.append_right x, by simp [enclosingKnows]⟩
    · exact (ih ho.right hn ht).imp_left (·.append_left _)
  | @namespaceDecl a u v b _ _ _ _ x _ name _ fileScoped _ us _ inner _ ms _ span _ ha _ _ hp _ _ _ _ _ hs
      ihv ihs =>
    rw [typesInAll, typesIn] at ht
    obtain ht | ht := List.mem_append.1 ht
    · obtain ⟨hin, hknows⟩ := ihv ho.left.left.right ((Scope.nested_enter scope name).addUsings us) ht
      have hstart : StartsBehind (a ++ u ++ v ++ b) e.span.start := (hin.append_left _).append_right _
      refine ⟨hstart.append_right x, fun space hspace => ?_⟩
      rw [enclosingAll, hs.enclosingAll_eq_nil (.inl fun t ht => hstart.lt_of_behind ho ht),
        List.append_nil, enclosing, if_pos (by simpa using hstart.touches ho.left hp), hknows space hspace,
        Scope.knows_enter hn hspace, Scope.current_addUsings, Scope.current_enter]
      simp [enclosingKnows, or_assoc]
    · obtain ⟨hstart, hknows⟩ := ihs ho.right hn ht
      rw [enclosingAll, hp.enclosing_eq_nil (by simp [ha]) (.inr fun t ht => hstart.lt_of_before ho ht),
        List.nil_append]
      exact ⟨hstart.append_left _, hknows⟩

namespace Compilation

theorem nested_documentScope (units : List CompilationUnit) (unit : CompilationUnit) :
    (documentScope units unit).Nested := (Scope.nested_empty.addUsings _).addUsings _

@[simp] theorem current_documentScope (units : List CompilationUnit) (unit : CompilationUnit) :
    (documentScope units unit).current = "" := by simp [documentScope, Scope.current]

/-- A document that stands alone imports what its own lines do, global or not. -/
theorem knows_documentScope {unit : CompilationUnit} {space : String} (hs : space ≠ "") :
    (documentScope [unit] unit).Knows space ↔ imports unit.usings space = true := by
  have hsplit : imports unit.usings space = true ↔
      imports (unit.usings.filter (·.isGlobal)) space = true ∨
        imports (unit.usings.filter fun u => !u.isGlobal) space = true := by
    simp only [imports, List.any_eq_true, List.mem_filter]
    constructor
    · rintro ⟨u, hu, h⟩
      cases hg : u.isGlobal with
      | true => exact .inl ⟨u, ⟨hu, hg⟩, h⟩
      | false => exact .inr ⟨u, ⟨hu, by simp [hg]⟩, h⟩
    · rintro (⟨u, ⟨hu, -⟩, h⟩ | ⟨u, ⟨hu, -⟩, h⟩) <;> exact ⟨u, hu, h⟩
  rw [hsplit]
  simp [documentScope, Scope.Knows, Scope.mem_usings_addUsings, hs]

end Compilation

/-- The namespaces and types of a document at its tokens. -/
theorem Document.twins (d : Document) : ∃ w w' ms', Ordered w ∧
    Twins (Change.none fun _ _ => True) w w' d.tree.unit.members ms' := by
  obtain ⟨lexed, hl, hu, -⟩ := SourceTree.ofText_eq_ok.1 d.tree_eq
  have ho := (SourceTree.readFrom hl hu).2
  obtain ⟨u, v, u', v', htokens, -, -, -, h⟩ := twins_of_runOn (Change.lawful_none _) hu hu ho
    (Change.fits_none _ _ _) (.of_alike (.refl _) ho)
  exact ⟨v, v', _, (htokens ▸ ho).right, h⟩

/-- Every type of a document that stands alone is declared, and at each expression in it the namespaces
that are found by the spans are those of its scope. -/
theorem isInScope_iff_mem_scope (d : Document) (references : List Reference) :
    let declared := ((Compilation.declareTypes [d.tree.unit]).run (Compilation.ofReferences references)).1
    declared.map (·.decl) = NamespaceMember.typesAll d.tree.unit.members ∧
      ∀ t ∈ declared, ∀ e depth, (e, depth) ∈ t.decl.members.flatMap MemberDecl.walk →
        ∀ space, space ≠ "" → (d.tree.unit.isInScope space e.span.start = true ↔
          space ∈ t.scope.usings ∨ space ∈ t.scope.namespaces) := by
  intro declared
  have hdeclared := Compilation.declareTypes_typesIn d.tree.unit (Compilation.ofReferences references)
  refine ⟨?_, fun t ht e depth he space hs => ?_⟩
  · rw [← NamespaceMember.map_snd_typesInAll, ← hdeclared, List.map_map]
    rfl
  · obtain ⟨w, w', ms', ho, htwins⟩ := d.twins
    have hmem : (t.scope, t.decl) ∈ NamespaceMember.typesInAll _ d.tree.unit.members :=
      hdeclared ▸ List.mem_map_of_mem ht
    obtain ⟨-, hknows⟩ := htwins.knows_iff ho (Compilation.nested_documentScope _ _) hmem he
    rw [CompilationUnit.isInScope, Bool.or_eq_true, ← Compilation.knows_documentScope hs,
      CompilationUnit.enclosing, ← Compilation.current_documentScope [d.tree.unit] d.tree.unit]
    exact (hknows space hs).symm

/-- A field in a namespace that imports another one, between two namespaces that it touches. -/
def neighboursText : String :=
  "namespace A\x7b\x7dnamespace B.C\x7busing D;class E\x7bint f=1;\x7d\x7dnamespace F\x7b\x7d"

theorem isInScope_iff_mem_scope_neighbours : ∃ d : Document, d.text = neighboursText ∧
    ∃ t ∈ ((Compilation.declareTypes [d.tree.unit]).run (Compilation.ofReferences [])).1,
    ∃ e depth, (e, depth) ∈ t.decl.members.flatMap MemberDecl.walk ∧ "D" ≠ "" ∧
      "D" ∈ t.scope.usings ∧ (d.tree.unit.isInScope "D" e.span.start = true ↔
        "D" ∈ t.scope.usings ∨ "D" ∈ t.scope.namespaces) := by
  have found : ((SourceTree.ofText neighboursText).toOption.any fun tree =>
      ((Compilation.declareTypes [tree.unit]).run (Compilation.ofReferences [])).1.any fun t =>
        t.scope.usings.contains "D" && !(t.decl.members.flatMap MemberDecl.walk).isEmpty) = true := by
    decide +kernel
  cases h : SourceTree.ofText neighboursText with
  | error e => simp [h, Except.toOption] at found
  | ok tree =>
    simp only [h, Except.toOption, Option.any_some, List.any_eq_true, Bool.and_eq_true,
      List.contains_iff_mem, Bool.not_eq_true'] at found
    obtain ⟨t, ht, hD, hwalk⟩ := found
    obtain ⟨⟨e, depth⟩, he⟩ := List.exists_mem_of_ne_nil _ (List.isEmpty_eq_false_iff.1 hwalk)
    let d : Document := ⟨"E.cs", neighboursText, tree, 0, h⟩
    exact ⟨d, rfl, t, ht, e, depth, he, by decide, hD,
      (isInScope_iff_mem_scope d []).2 t ht e depth he "D" (by decide)⟩

end CultureLint
