import CultureLint.Proofs.Parser.MirrorStmt

/-! The rules for members, types, namespaces and whole documents mirror a change: it happens in a body,
in an initial value or among the `using` lines, and what declarations are made of besides is steady. -/

namespace CultureLint

open CultureLint.Parser CultureLint.Grammar

theorem steady_initializer : Steady initializer initializer := by
  unfold Grammar.initializer
  refine Steady.eatPunct.bind fun a b hab => ?_
  obtain rfl : a = b := hab
  exact .ite (fun _ => Steady.advance.bind fun _ _ _ => Steady.skipGroup) fun _ => .pure rfl

theorem steady_typeForm : Steady typeForm typeForm := by
  have choice {word : String} {form : TypeForm} {p : Parser TypeForm} (hp : Steady p p) :
      Steady (eatKeyword word >>= fun b => if b = true then pure form else p)
        (eatKeyword word >>= fun b => if b = true then pure form else p) :=
    Steady.eatKeyword.bind fun a b hab => by
      obtain rfl : a = b := hab
      exact .ite (fun _ => .pure rfl) fun _ => hp
  exact choice (choice (choice .fail))

namespace Grammar.Follows

variable {c : Change} {bound b : Nat} {g g' : Grammar} (h : Follows c bound g g')
include h

/-! ### Members -/

theorem defaultValue (hb : b ≤ bound) : Mirrors c b Agree Agree [] [] g.defaultValue g'.defaultValue :=
  .ifPunct h.isLocal (by decide) (h.expr _ (by omega)).discard (.pure rfl rfl rfl)

theorem parameter (hb : b ≤ bound) : Mirrors c b Agree Agree [] [] g.parameter g'.parameter := by
  refine .past h.isLocal .attributes fun _ _ _ => .past h.isLocal (Steady.passing?.many
    (progresses_passing? _) (progresses_passing? _)) fun _ _ _ => ?_
  refine .past h.isLocal .type fun t t' ht => .past h.isLocal .expectIdent fun i i' hi => ?_
  exact .bind h.isLocal (h.defaultValue hb) fun _ _ _ => .pure rfl rfl (congrArg₂ Parameter.mk ht hi)

theorem parameters (hb : b ≤ bound) : Mirrors c b Agree Agree [] [] g.parameters g'.parameters := by
  refine .expect h.isLocal (by decide) <| .ifPunct h.isLocal (by decide) (.pure rfl rfl rfl) ?_
  refine .bind h.isLocal (.commaList h.isLocal (h.parameter (by omega)) (h.parameter (by omega))
    h.forward.parameter h.forward'.parameter) fun ps ps' hps => ?_
  exact .expect h.isLocal (by decide) (.pure rfl rfl hps)

theorem body (hb : b ≤ bound) : Mirrors c b Agree Agree [] [] g.body g'.body := by
  refine .ifPunct h.isLocal (by decide) (.pure rfl rfl rfl) (.ifPunct h.isLocal (by decide) (M := Near) ?_ ?_)
  · refine .bind h.isLocal (h.expr _ (by omega)) fun e e' he => ?_
    exact .expect h.isLocal (by decide) (.pure rfl rfl (congrArg (fun e => some (Body.arrow e)) he))
  · refine .bind h.isLocal .offset fun _ _ _ => .bind h.isLocal (h.block hb).ofNear fun ss ss' hss => ?_
    exact .spanned h.isLocal (fun _ => rfl) (fun _ => rfl) fun _ _ =>
      congrArg (fun ss => some (Body.block ss (Span.empty 0))) hss

theorem accessor? (hb : b ≤ bound) : Mirrors c b Agree Agree [] [] g.accessor? g'.accessor? := by
  refine .ifPunct h.isLocal (by decide) (.pure rfl rfl rfl) ?_
  refine .past h.isLocal .attributes fun _ _ _ => .past h.isLocal .modifiers fun _ _ _ => ?_
  refine .past h.isLocal (.ask fun s t hst => ?_) fun k k' hk => ?_
  · exact congrArg bare (Agree.bind_congr hst.head fun _ => rfl)
  · obtain rfl : k = k' := by cases k <;> cases k' <;> simp_all
    cases k with
    | none => exact .fail
    | some kind =>
      exact .past h.isLocal .advance fun _ _ _ => .bind h.isLocal (h.body hb) fun o o' ho =>
        .pure rfl rfl (congrArg (fun o => some (Accessor.mk kind o)) ho)

theorem accessors (hb : b ≤ bound) : Mirrors c b Agree Agree [] [] g.accessors g'.accessors :=
  .expect h.isLocal (by decide) (.many h.isLocal (h.accessor? (by omega)) h.forward.progresses_accessor?
    h.forward'.progresses_accessor?)

theorem propertyValue? (hb : b ≤ bound) :
    Mirrors c b Agree Agree [] [] g.propertyValue? g'.propertyValue? := by
  refine .ifPunct h.isLocal (by decide) (M := Near) ?_ (.pure rfl rfl rfl)
  exact .bind h.isLocal (h.expr _ (by omega)) fun e e' he =>
    .expect h.isLocal (by decide) (.pure rfl rfl (congrArg some he))

theorem memberRest (hb : b ≤ bound) {start start' : Nat} {attributes attributes' : List Attribute}
    {modifiers modifiers' : List String} {type type' : TypeExpr} {name name' : Ident}
    (ha : bare attributes = bare attributes') (hm : bare modifiers = bare modifiers')
    (ht : bare type = bare type') (hn : bare name = bare name') :
    Mirrors c b Agree Agree [] [] (g.memberRest start attributes modifiers type name)
      (g'.memberRest start' attributes' modifiers' type' name') := by
  obtain rfl : modifiers = modifiers' := by simpa [bare] using hm
  refine .ifAt h.isLocal (fun _ => rfl) (.agree fun _ => rfl) ?_ (.ifPunct h.isLocal (by decide)
    (M := Near) ?_ (.ifAt h.isLocal (fun _ => rfl) (.agree fun _ => rfl) ?_ ?_))
  · refine .inert h.isLocal (h.parameters hb) fun ps ps' hps => .bind h.isLocal (h.body hb)
      fun o o' ho => .spanned h.isLocal (fun _ => rfl) (fun _ => rfl) fun _ _ => ?_
    change MemberDecl.method ⟨bare attributes, modifiers, some (bare type), bare name, bare ps,
      bare (c.apply o), Span.empty 0⟩ = _
    rw [ha, ht, hn, hps, ho]
    rfl
  · refine .bind h.isLocal (h.expr _ (by omega)) fun e e' he => .expect h.isLocal (by decide)
      (M := Agree) (.spanned h.isLocal (fun _ => rfl) (fun _ => rfl) fun _ _ => ?_)
    change MemberDecl.property ⟨bare attributes, modifiers, bare type, bare name,
      .arrow (bare (c.apply e)), none, Span.empty 0⟩ = _
    rw [ha, ht, hn, he]
    rfl
  · refine .bind h.isLocal (h.accessors hb) fun items items' hi => .bind h.isLocal (h.propertyValue? hb)
      fun v v' hv => .spanned h.isLocal (fun _ => rfl) (fun _ => rfl) fun _ _ => ?_
    change MemberDecl.property ⟨bare attributes, modifiers, bare type, bare name,
      .accessors (bare (c.apply items)), bare (c.apply v), Span.empty 0⟩ = _
    rw [ha, ht, hn, hi, hv]
    rfl
  · refine .bind h.isLocal (h.declarators hb hn) fun ds ds' hds => .expect h.isLocal (by decide)
      (M := Agree) (.spanned h.isLocal (fun _ => rfl) (fun _ => rfl) fun _ _ => ?_)
    change MemberDecl.field ⟨bare attributes, modifiers, bare type, bare (c.apply ds), Span.empty 0⟩ = _
    rw [ha, ht, hds]
    rfl

theorem memberDecl (hb : b ≤ bound) (typeName : String) :
    Mirrors c b Agree Agree [] [] (g.memberDecl typeName) (g'.memberDecl typeName) := by
  refine .bind h.isLocal .offset fun _ _ _ => .past h.isLocal .attributes fun as as' ha => ?_
  refine .past h.isLocal .modifiers fun ms ms' hm => .ifAt h.isLocal (fun _ => rfl)
    (.agree fun _ => rfl) .fail ?_
  refine .past h.isLocal (.at2? (fun _ => rfl) (fun _ => rfl) fun t ht => Token.spells_of_isPlain ht _)
    fun a a' haa => ?_
  obtain rfl : a = a' := haa
  refine .ite (fun _ => .past h.isLocal .expectIdent fun i i' hi => ?_) fun _ => ?_
  · obtain rfl : ms = ms' := by simpa [bare] using hm
    refine .inert h.isLocal (h.parameters hb) fun ps ps' hps => .past h.isLocal steady_initializer
      fun _ _ _ => .bind h.isLocal (h.body hb) fun o o' ho => .spanned h.isLocal (fun _ => rfl)
        (fun _ => rfl) fun _ _ => ?_
    change MemberDecl.method ⟨bare as, ms, none, bare i, bare ps, bare (c.apply o), Span.empty 0⟩ = _
    rw [ha, hi, hps, ho]
    rfl
  · exact .past h.isLocal .type fun t t' ht => .past h.isLocal .expectIdent fun i i' hi =>
      h.memberRest hb ha hm ht hi

/-! ### Types and namespaces -/

theorem member? (hb : b ≤ bound) (typeName : String) :
    Mirrors c b Agree Agree [] [] (g.member? typeName) (g'.member? typeName) := by
  refine .ifPunct h.isLocal (by decide) (.pure rfl rfl rfl) ?_
  refine .inert h.isLocal (.atEnd fun _ _ => Agree.isEmpty_eq) fun a a' haa => ?_
  obtain rfl : a = a' := haa
  exact .ite (fun _ => .fail) fun _ =>
    (h.memberDecl hb typeName).map (fun _ => rfl) (fun _ => rfl) fun _ _ => congrArg some

theorem typeDecl (hb : b ≤ bound) : Mirrors c b Agree Agree [] [] g.typeDecl g'.typeDecl := by
  refine .bind h.isLocal .offset fun _ _ _ => .past h.isLocal .attributes fun as as' ha => ?_
  refine .past h.isLocal .modifiers fun ms ms' hm => .past h.isLocal steady_typeForm fun f f' hf => ?_
  refine .past h.isLocal .expectIdent fun i i' hi => .past h.isLocal .bases fun ts ts' hts => ?_
  have hname : i.name = i'.name := show (bare i).name = (bare i').name from congrArg Ident.name hi
  obtain rfl : ms = ms' := by simpa [bare] using hm
  obtain rfl : f = f' := hf
  refine .expect h.isLocal (by decide) (M := Agree) <| .bind h.isLocal (M := Agree) ?_ fun xs xs' hxs =>
    .past h.isLocal .eatPunct fun _ _ _ => .spanned h.isLocal (fun _ => rfl) (fun _ => rfl) fun _ _ => ?_
  · rw [hname]
    exact .many h.isLocal (h.member? (by omega) _) (h.forward.progresses_member? _)
      (h.forward'.progresses_member? _)
  · change TypeDecl.mk f (bare as) ms (bare i) (bare ts) (bare (c.apply xs)) (Span.empty 0) = _
    rw [ha, hi, hts, hxs]
    rfl

omit h in
theorem namespaceOpening (hc : c.Local) :
    Mirrors c b Agree Agree [] [] namespaceOpening namespaceOpening :=
  .ifPunct hc (by decide) (.pure rfl rfl rfl) (.expect hc (by decide) (.pure rfl rfl rfl))

omit h in
/-- The end of a namespace, and the namespace that is made there. -/
theorem namespaceClosing (hc : c.Local) {start start' : Nat} {n n' : QualifiedName} (hn : bare n = bare n')
    (f : Bool) {us us' : List Using} (hus : bare (c.apply us) = bare us') {ms ms' : List NamespaceMember}
    (hms : bare (c.apply ms) = bare ms') :
    Mirrors c b Agree Agree (.usings us :: parts ms) (.usings us' :: parts ms')
      (namespaceEnd f >>= fun _ => spanFrom start >>= fun span =>
        pure (NamespaceMember.namespaceDecl n f us ms span))
      (namespaceEnd f >>= fun _ => spanFrom start' >>= fun span =>
        pure (NamespaceMember.namespaceDecl n' f us' ms' span)) := by
  refine .inert hc (M := Agree) ?_ fun _ _ _ => .spanned hc (fun _ => ?_) (fun _ => ?_) fun _ _ => ?_
  · exact .ite (fun _ => .pure rfl rfl rfl) fun _ => .expectPunct hc (by decide)
  · exact congrArg (Part.usings us :: ·) (NamespaceMember.partsAll_eq ms)
  · exact congrArg (Part.usings us' :: ·) (NamespaceMember.partsAll_eq ms')
  · change NamespaceMember.namespaceDecl (bare n) f (bare (c.apply us))
      (NamespaceMember.bareAll (NamespaceMember.mapPartsAll c.expr c.usings ms)) (Span.empty 0) = _
    rw [NamespaceMember.mapPartsAll_eq, NamespaceMember.bareAll_eq, hn, hus]
    exact congrArg (NamespaceMember.namespaceDecl _ _ _ · _)
      (hms.trans (NamespaceMember.bareAll_eq ms').symm)

theorem namespaceDecl {members members' : Parser (List NamespaceMember)}
    (hm : Mirrors c (b - 1) Agree Agree [] [] members members') :
    Mirrors c b Agree Agree [] [] (namespaceDecl members) (namespaceDecl members') := by
  refine .bind h.isLocal .offset fun _ _ _ => .past h.isLocal .advance fun _ _ _ => ?_
  refine .pastToken h.isLocal .qualifiedName advances_qualifiedName fun n n' hn =>
    .inert h.isLocal (namespaceOpening h.isLocal) fun f f' hf => ?_
  obtain rfl : f = f' := hf
  exact .bind h.isLocal (h.lawful.usings _) fun us us' hus => .bind h.isLocal hm fun ms ms' hms =>
    namespaceClosing h.isLocal hn f hus hms

theorem namespaceMember? (hb : b ≤ bound) {members members' : Parser (List NamespaceMember)}
    (hm : Mirrors c (b - 1) Agree Agree [] [] members members') :
    Mirrors c b Agree Agree [] [] (g.namespaceMember? members) (g'.namespaceMember? members') := by
  refine .inert h.isLocal (.atEnd fun _ _ => Agree.isEmpty_eq) fun a a' haa => ?_
  obtain rfl : a = a' := haa
  refine .past h.isLocal .atPunct fun d d' hd => ?_
  obtain rfl : d = d' := hd
  refine .ite (fun _ => .pure rfl rfl rfl) fun _ => ?_
  refine .ifAt h.isLocal (fun _ => rfl) (.agree fun _ => rfl) ?_ ?_
  · exact (h.namespaceDecl hm).map (fun _ => rfl) (fun _ => rfl) fun _ _ => congrArg some
  · have hdecl : Mirrors c b Agree Agree [] [] (NamespaceMember.typeDecl <$> g.typeDecl)
        (NamespaceMember.typeDecl <$> g'.typeDecl) :=
      (h.typeDecl hb).map (fun _ => rfl) (fun _ => rfl) fun _ _ => congrArg NamespaceMember.typeDecl
    exact hdecl.map (fun _ => rfl) (fun _ => rfl) fun _ _ => congrArg some

end Grammar.Follows

/-! ### Documents -/

/-- The namespaces of a document, where there is room for as many as there are tokens. -/
theorem mirrors_namespaceMembers {c : Change} (hc : c.Lawful) (k depth : Nat) {n depth' : Nat}
    (hd : depth' ≤ n + 1) :
    Mirrors c depth' Agree Agree [] [] ((layered k).namespaceMembers depth)
      ((layered n).namespaceMembers depth') := by
  have h := follows_layered hc k n
  induction depth generalizing depth' with
  | zero => exact .fail
  | succ depth ih =>
    have rule (b : Nat) (hb : b ≤ n + 1) (depth' : Nat) (hm : Mirrors c (b - 1) Agree Agree [] []
        ((layered k).namespaceMembers depth) ((layered n).namespaceMembers depth')) :
        Mirrors c b Agree Agree [] [] ((layered k).namespaceMembers (depth + 1))
          ((layered n).namespaceMembers (depth' + 1)) := by
      refine .many h.isLocal (h.namespaceMember? hb hm) ?_ ?_
      · exact progresses_namespaceMember? h.forward (forward_namespaceMembers h.forward depth)
      · exact progresses_namespaceMember? h.forward' (forward_namespaceMembers h.forward' depth')
    cases depth' with
    | zero => exact (rule 0 (Nat.zero_le _) 0 (ih (Nat.zero_le _))).any_right _
    | succ depth' => exact rule (depth' + 1) hd depth' (ih (by omega))

/-- The end of a document, and what is made of it there. -/
theorem mirrors_unitEnd {c : Change} (hc : c.Local) {n : Nat} {us us' : List Using}
    (hus : bare (c.apply us) = bare us') {ms ms' : List NamespaceMember}
    (hms : bare (c.apply ms) = bare ms') :
    Mirrors c n Agree Agree (.usings us :: parts ms) (.usings us' :: parts ms')
      (atEnd >>= fun atEnd => if atEnd = true then
        ask (·.size) >>= fun size => pure (CompilationUnit.mk us ms (Span.ofLength 0 size))
        else fail .expectedDeclaration)
      (atEnd >>= fun atEnd => if atEnd = true then
        ask (·.size) >>= fun size => pure (CompilationUnit.mk us' ms' (Span.ofLength 0 size))
        else fail .expectedDeclaration) := by
  refine .inert hc (.atEnd fun _ _ => Agree.isEmpty_eq) fun a a' haa => ?_
  obtain rfl : a = a' := haa
  refine .ite (fun _ => .inert hc (.ask (fun _ => rfl) (fun _ => rfl) fun _ _ _ _ => rfl) fun _ _ _ => ?_) fun _ => .fail
  exact .pure rfl rfl (congrFun (congrArg₂ CompilationUnit.mk hus hms) (Span.empty 0))

/-- A document, where there is room for as many tokens as there are. -/
theorem mirrors_compilationUnit {c : Change} (hc : c.Lawful) (k n : Nat) :
    Mirrors c n Agree Agree [] [] (compilationUnit k) (compilationUnit n) :=
  .bind hc.toLocal (hc.usings n) fun _ _ hus =>
    .bind hc.toLocal (mirrors_namespaceMembers hc k k (Nat.le_succ n)) fun _ _ hms =>
      mirrors_unitEnd hc.toLocal hus hms

end CultureLint
