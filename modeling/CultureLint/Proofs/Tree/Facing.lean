import CultureLint.Proofs.Tree.Replace
import Mathlib.Data.List.Flatten
import Mathlib.Data.List.Pairwise

/-! Two expressions that face each other: the same is written in both, but for places and numbers, and but for
some operands of concatenations that are replaced by others. `Faces` lists what faces what in the order of the
walk, so that what is known of the pairs in the list can be used at every place. -/

namespace CultureLint

/-- Two expressions at the same place: one that is kept, or one that is replaced with everything in it. -/
inductive Counterpart
  | kept (e e' : Expr)
  | replaced (e e' : Expr)

namespace Counterpart

/-- The expressions of the old tree at the place. -/
def olds : Counterpart → List Expr
  | .kept e _ => [e]
  | .replaced e _ => e.within

/-- The expressions of the new tree at the place. -/
def news : Counterpart → List Expr
  | .kept _ e' => [e']
  | .replaced _ e' => e'.within

end Counterpart

namespace Expr

/-- The same is written in two expressions, apart from their parts. -/
inductive Like : Expr → Expr → Prop
  | literal {n n' : Node} (kind : LiteralKind) (text : String) : Like (.literal n kind text) (.literal n' kind text)
  | name {n n' : Node} (word : String) : Like (.name n word) (.name n' word)
  | primitive {n n' : Node} (type : Primitive) : Like (.primitive n type) (.primitive n' type)
  | this {n n' : Node} : Like (.this n) (.this n')
  | parenthesized {n n' : Node} (inner inner' : Expr) : Like (.parenthesized n inner) (.parenthesized n' inner')
  | memberAccess {n n' : Node} (receiver receiver' : Expr) {ident ident' : Ident} (h : ident'.name = ident.name) :
    Like (.memberAccess n receiver ident) (.memberAccess n' receiver' ident')
  | invocation {n n' : Node} (callee callee' : Expr) (arguments arguments' : List Expr) :
    Like (.invocation n callee arguments) (.invocation n' callee' arguments')
  | elementAccess {n n' : Node} (receiver receiver' : Expr) (arguments arguments' : List Expr) :
    Like (.elementAccess n receiver arguments) (.elementAccess n' receiver' arguments')
  | objectCreation {n n' : Node} {type type' : TypeExpr} (arguments arguments' : List Expr)
    (h : type'.bare = type.bare) : Like (.objectCreation n type arguments) (.objectCreation n' type' arguments')
  | unary {n n' : Node} (op : UnaryOp) (operand operand' : Expr) : Like (.unary n op operand) (.unary n' op operand')
  | step {n n' : Node} (increment : Bool) (operand operand' : Expr) :
    Like (.step n increment operand) (.step n' increment operand')
  | cast {n n' : Node} {type type' : TypeExpr} (operand operand' : Expr) (h : type'.bare = type.bare) :
    Like (.cast n type operand) (.cast n' type' operand')
  | binary {n n' : Node} (op : BinaryOp) (left left' right right' : Expr) :
    Like (.binary n op left right) (.binary n' op left' right')
  | assignment {n n' : Node} (op : AssignOp) (target target' value value' : Expr) :
    Like (.assignment n op target value) (.assignment n' op target' value')
  | conditional {n n' : Node} (condition condition' whenTrue whenTrue' whenFalse whenFalse' : Expr) :
    Like (.conditional n condition whenTrue whenFalse) (.conditional n' condition' whenTrue' whenFalse')

/-- Expressions that face each other one by one, with the list of what faces what in them. Only operands of
concatenations are replaced, each by one that `P` allows. -/
inductive Faces (P : Expr → Expr → Prop) : List Counterpart → List Expr → List Expr → Prop
  | nil : Faces P [] [] []
  | kept {K H : List Counterpart} {e e' : Expr} {es es' : List Expr} (hlike : Like e e')
    (hjoin : ∀ c ∈ e.children, ∀ c', P c c' → c ∈ e.concatOperands) (hparts : Faces P K e.children e'.children)
    (hrest : Faces P H es es') : Faces P (.kept e e' :: K ++ H) (e :: es) (e' :: es')
  | replaced {H : List Counterpart} {e e' : Expr} {es es' : List Expr} (h : P e e') (hrest : Faces P H es es') :
    Faces P (.replaced e e' :: H) (e :: es) (e' :: es')

namespace Faces

variable {P : Expr → Expr → Prop} {K : List Counterpart} {es es' : List Expr}

/-- Where nothing may be replaced, nothing is. -/
theorem of_none (h : Faces P K es es') (hes : ∀ e ∈ es.flatMap within, ∀ e', ¬ P e e') :
    Faces (fun _ _ => False) K es es' := by
  induction h with
  | nil => exact .nil
  | @kept _ _ e _ _ _ hlike _ _ _ ihparts ihrest =>
    rw [List.flatMap_cons, within_eq] at hes
    exact .kept hlike (fun _ _ _ h => h.elim)
      (ihparts fun c hc => hes c (List.mem_append_left _ (List.mem_cons_of_mem _ hc)))
      (ihrest fun c hc => hes c (List.mem_append_right _ hc))
  | @replaced _ e e' _ _ h =>
    rw [List.flatMap_cons] at hes
    exact absurd h (hes e (List.mem_append_left _ e.mem_within_self) e')

/-- The list holds what is in the expressions, in the order of the walk. -/
theorem flatMap_within (h : Faces P K es es') :
    es.flatMap within = K.flatMap Counterpart.olds ∧ es'.flatMap within = K.flatMap Counterpart.news := by
  induction h with
  | nil => exact ⟨rfl, rfl⟩
  | @kept _ _ e e' _ _ _ _ _ _ ihparts ihrest =>
    constructor
    · rw [List.flatMap_cons, within_eq e, List.flatMap_append, List.flatMap_cons, ihparts.1, ihrest.1]
      rfl
    · rw [List.flatMap_cons, within_eq e', List.flatMap_append, List.flatMap_cons, ihparts.2, ihrest.2]
      rfl
  | replaced _ _ ih =>
    rw [List.flatMap_cons, List.flatMap_cons, List.flatMap_cons, List.flatMap_cons, ih.1, ih.2]
    exact ⟨rfl, rfl⟩

theorem of_mem (h : Faces P K es es') {e e' : Expr} (he : .replaced e e' ∈ K) : P e e' := by
  induction h with
  | nil => cases he
  | kept _ _ _ _ ihparts ihrest => exact (by simpa using he : _ ∨ _).elim ihparts ihrest
  | replaced h _ ih =>
    rw [List.mem_cons, Counterpart.replaced.injEq] at he
    obtain ⟨rfl, rfl⟩ | he := he
    · exact h
    · exact ih he

/-- More may be known of what is replaced. -/
theorem imp {Q : Expr → Expr → Prop} (h : Faces P K es es') (hK : ∀ e e', .replaced e e' ∈ K → Q e e')
    (hQ : ∀ e e', Q e e' → ∃ d, P e d) : Faces Q K es es' := by
  induction h with
  | nil => exact .nil
  | kept hlike hjoin _ _ ihparts ihrest =>
    refine .kept hlike (fun c hc c' hcc => ?_) (ihparts fun e e' he => hK e e' (by simp [he]))
      (ihrest fun e e' he => hK e e' (by simp [he]))
    obtain ⟨d, hd⟩ := hQ c c' hcc
    exact hjoin c hc d hd
  | replaced _ _ ih => exact .replaced (hK _ _ (by simp)) (ih fun e e' he => hK e e' (by simp [he]))

theorem append_inv {as bs as' bs' : List Expr} (h : Faces P K (as ++ bs) (as' ++ bs')) (hl : as'.length = as.length) :
    ∃ K₁ K₂, K = K₁ ++ K₂ ∧ Faces P K₁ as as' ∧ Faces P K₂ bs bs' := by
  induction as generalizing as' K with
  | nil =>
    obtain rfl := List.length_eq_zero_iff.1 hl
    exact ⟨[], K, rfl, .nil, h⟩
  | cons a as ih =>
    obtain ⟨a', as', rfl⟩ := List.exists_cons_of_length_eq_add_one hl
    cases h with
    | @kept L _ _ _ _ _ hlike hjoin hparts hrest =>
      obtain ⟨K₁, K₂, rfl, h₁, h₂⟩ := ih hrest (by simpa using hl)
      exact ⟨.kept a a' :: L ++ K₁, K₂, by simp, .kept hlike hjoin hparts h₁, h₂⟩
    | replaced hp hrest =>
      obtain ⟨K₁, K₂, rfl, h₁, h₂⟩ := ih hrest (by simpa using hl)
      exact ⟨.replaced a a' :: K₁, K₂, rfl, .replaced hp h₁, h₂⟩

/-- What faces each other in several lists does so in each of them. -/
theorem forall₂ {A B : Type} {parts : A → List Expr} {parts' : B → List Expr} {as : List A} {bs : List B}
    (hl : List.Forall₂ (fun a b => (parts' b).length = (parts a).length) as bs)
    (h : Faces P K (as.flatMap parts) (bs.flatMap parts')) :
    List.Forall₂ (fun a b => ∃ H ⊆ K, Faces P H (parts a) (parts' b)) as bs := by
  induction hl generalizing K with
  | nil => exact .nil
  | cons hl _ ih =>
    obtain ⟨K₁, K₂, rfl, h₁, h₂⟩ := append_inv h hl
    refine .cons ⟨K₁, List.subset_append_left _ _, h₁⟩ ((ih h₂).imp ?_)
    rintro a b ⟨H, hsub, h⟩
    exact ⟨H, List.subset_append_of_subset_right _ hsub, h⟩

end Faces

/-! ### What an expression becomes by a change -/

section

variable {target : Node} {f : Expr → Expr}

/-- Above the changed place the same is written as before, and the change goes on in the parts. -/
theorem like_of_bare_changeAt {e e' : Expr} (hne : e.node ≠ target) (h : e'.bare = (changeAt target f e).bare) :
    Like e e' ∧ bareAll e'.children = bareAll (changeAllAt target f e.children) := by
  cases e <;> simp only [node] at hne <;> simp only [changeAt, hne, if_false, bare] at h <;> cases e' <;>
    simp only [bare, reduceCtorEq, literal.injEq, name.injEq, primitive.injEq, parenthesized.injEq,
      memberAccess.injEq, invocation.injEq, elementAccess.injEq, objectCreation.injEq, unary.injEq, step.injEq,
      cast.injEq, binary.injEq, assignment.injEq, conditional.injEq, true_and] at h
  case literal =>
    obtain ⟨rfl, rfl⟩ := h
    exact ⟨.literal _ _, rfl⟩
  case name => exact h ▸ ⟨.name _, rfl⟩
  case primitive => exact h ▸ ⟨.primitive _, rfl⟩
  case this => exact ⟨.this, rfl⟩
  case parenthesized => exact ⟨.parenthesized _ _, by simp only [children, changeAllAt, bareAll, h]⟩
  case memberAccess =>
    have hname (ident : Ident) : (Bare.bare ident).name = ident.name := rfl
    refine ⟨.memberAccess _ _ ?_, by simp only [children, changeAllAt, bareAll, h.1]⟩
    rw [← hname, h.2, hname]
  case invocation => exact ⟨.invocation _ _ _ _, by simp only [children, changeAllAt, bareAll, h.1, h.2]⟩
  case elementAccess => exact ⟨.elementAccess _ _ _ _, by simp only [children, changeAllAt, bareAll, h.1, h.2]⟩
  case objectCreation => exact ⟨.objectCreation _ _ h.1, h.2⟩
  case unary =>
    obtain ⟨rfl, h⟩ := h
    exact ⟨.unary _ _ _, by simp only [children, changeAllAt, bareAll, h]⟩
  case step =>
    obtain ⟨rfl, h⟩ := h
    exact ⟨.step _ _ _, by simp only [children, changeAllAt, bareAll, h]⟩
  case cast => exact ⟨.cast _ _ h.1, by simp only [children, changeAllAt, bareAll, h.2]⟩
  case binary =>
    obtain ⟨rfl, hl, hr⟩ := h
    exact ⟨.binary _ _ _ _ _, by simp only [children, changeAllAt, bareAll, hl, hr]⟩
  case assignment =>
    obtain ⟨rfl, hl, hr⟩ := h
    exact ⟨.assignment _ _ _ _ _, by simp only [children, changeAllAt, bareAll, hl, hr]⟩
  case conditional =>
    exact ⟨.conditional _ _ _ _ _ _, by simp only [children, changeAllAt, bareAll, h.1, h.2.1, h.2.2]⟩

/-- The new expression stands for the one at the changed place. -/
def Replaces (target : Node) (f : Expr → Expr) (e e' : Expr) : Prop := e.node = target ∧ e'.bare = (f e).bare

/-- Expressions before and after a change face each other, if the changed place is an operand of a
concatenation wherever it is a part. -/
theorem exists_faces {es es' : List Expr} (h : bareAll es' = bareAll (changeAllAt target f es))
    (hjoin : ∀ p ∈ es.flatMap within, ∀ c ∈ p.children, c.node = target → c ∈ p.concatOperands) :
    ∃ K, Faces (Replaces target f) K es es' ∧ ∀ e e', .kept e e' ∈ K → e.node ≠ target := by
  match es, es' with
  | [], [] => exact ⟨_, .nil, nofun⟩
  | [], _ :: _ | _ :: _, [] => cases h
  | e :: es, e' :: es' =>
    simp only [changeAllAt, bareAll, List.cons.injEq] at h
    rw [List.flatMap_cons] at hjoin
    obtain ⟨H, hrest, hH⟩ := exists_faces h.2 fun p hp => hjoin p (List.mem_append_right _ hp)
    by_cases hne : e.node = target
    · exact ⟨_, .replaced ⟨hne, by rw [h.1, changeAt_of_node_eq hne]⟩ hrest, fun d d' hd => hH d d' (by simpa using hd)⟩
    · obtain ⟨hlike, hchildren⟩ := like_of_bare_changeAt hne h.1
      obtain ⟨K, hparts, hK⟩ := exists_faces hchildren fun p hp =>
        hjoin p (List.mem_append_left _ (by rw [within_eq]; exact List.mem_cons_of_mem _ hp))
      have hself := hjoin e (List.mem_append_left _ e.mem_within_self)
      refine ⟨_, .kept hlike (fun c hc c' hc' => hself c hc hc'.1) hparts hrest, fun d d' hd => ?_⟩
      rw [List.cons_append, List.mem_cons, List.mem_append, Counterpart.kept.injEq] at hd
      obtain ⟨rfl, -⟩ | hd | hd := hd
      · exact hne
      · exact hK d d' hd
      · exact hH d d' hd
termination_by (es.flatMap within).length
decreasing_by all_goals rw [List.flatMap_cons, within_eq e, List.length_append, List.length_cons]; omega

/-- There are nodes that none of some expressions has. -/
theorem exists_unused (es : List Expr) : ∃ node : Node, ∀ c ∈ es.flatMap within, c.node ≠ node := by
  generalize es.flatMap within = cs
  suffices ∃ fresh, ∀ c ∈ cs, c.id < fresh by
    obtain ⟨fresh, hfresh⟩ := this
    exact ⟨⟨fresh, Span.empty 0⟩, fun c hc hnode => Nat.ne_of_lt (hfresh c hc) (congrArg Node.id hnode)⟩
  induction cs with
  | nil => exact ⟨0, by simp⟩
  | cons c cs ih =>
    obtain ⟨fresh, hfresh⟩ := ih
    refine ⟨max fresh (c.id + 1), List.forall_mem_cons.2 ⟨by omega, fun d hd => ?_⟩⟩
    have := hfresh d hd
    omega

theorem changeAllAt_of_forall_ne {es : List Expr} (h : ∀ c ∈ es.flatMap within, c.node ≠ target) :
    changeAllAt target f es = es := by
  rw [changeAllAt_eq_map]
  refine (List.map_congr_left fun e he => ?_).trans (List.map_id _)
  exact changeAt_of_forall_ne fun c hc => h c (List.mem_flatMap.2 ⟨e, he, hc⟩)

/-- The same is written in expressions that are the same but for places and numbers. -/
theorem like_of_bare {e e' : Expr} (h : e'.bare = e.bare) : Like e e' ∧ bareAll e'.children = bareAll e.children := by
  obtain ⟨node, hnode⟩ := exists_unused [e]
  rw [List.flatMap_singleton, within_eq] at hnode
  obtain ⟨hself, hparts⟩ := List.forall_mem_cons.1 hnode
  have hsame : changeAt node (fun e => e) e = e :=
    changeAt_of_forall_ne fun c hc => hnode c (by rwa [← within_eq])
  obtain ⟨hlike, hchildren⟩ := like_of_bare_changeAt hself (f := fun e => e) (hsame.symm ▸ h)
  rw [changeAllAt_of_forall_ne hparts] at hchildren
  exact ⟨hlike, hchildren⟩

/-- Expressions in which the same is written face each other. -/
theorem exists_faces_of_bare {es es' : List Expr} (h : bareAll es' = bareAll es) :
    ∃ K, Faces (fun _ _ => False) K es es' := by
  obtain ⟨node, hnode⟩ := exists_unused es
  have hsame : bareAll es' = bareAll (changeAllAt node (fun e => e) es) := by rwa [changeAllAt_of_forall_ne hnode]
  obtain ⟨K, hK, -⟩ := exists_faces hsame
    fun p hp c hc hcn => by
      obtain ⟨e, he, hp⟩ := List.mem_flatMap.1 hp
      exact absurd hcn (hnode c (List.mem_flatMap.2 ⟨e, he, mem_within_trans (mem_within_of_mem_children hc) hp⟩))
  exact ⟨K, hK.of_none fun e he e' h => hnode e he h.1⟩

end

end Expr

/-! ### Pairs in the order of the walk -/

theorem forall₂_append_inv {α β : Type} {R : α → β → Prop} {a b : List α} {a' b' : List β}
    (h : List.Forall₂ R (a ++ b) (a' ++ b')) (hl : a.length = a'.length) :
    List.Forall₂ R a a' ∧ List.Forall₂ R b b' := by
  have ha := List.forall₂_take a.length h
  have hb := List.forall₂_drop a.length h
  rw [List.take_left, hl, List.take_left] at ha
  rw [List.drop_left, hl, List.drop_left] at hb
  exact ⟨ha, hb⟩

theorem Counterpart.exists_pairs {K : List Counterpart} (h : ∀ x ∈ K, ∀ e e', x ≠ .replaced e e') :
    ∃ pairs : List (Expr × Expr), K = pairs.map fun p => .kept p.1 p.2 := by
  induction K with
  | nil => exact ⟨[], rfl⟩
  | cons x K ih =>
    obtain ⟨hx, hK⟩ := List.forall_mem_cons.1 h
    obtain ⟨pairs, rfl⟩ := ih hK
    cases x with
    | kept e e' => exact ⟨(e, e') :: pairs, rfl⟩
    | replaced e e' => exact absurd rfl (hx e e')

namespace Expr

variable {target : Node} {f : Expr → Expr} {e e' : Expr}

/-- Where nothing is replaced, the list pairs what is in the expressions. -/
theorem Faces.exists_pairs {K : List Counterpart} {es es' : List Expr} (h : Faces (fun _ _ => False) K es es') :
    ∃ pairs : List (Expr × Expr), (K = pairs.map fun p => .kept p.1 p.2) ∧
      es.flatMap within = pairs.map Prod.fst ∧ es'.flatMap within = pairs.map Prod.snd := by
  obtain ⟨hes, hes'⟩ := h.flatMap_within
  obtain ⟨pairs, rfl⟩ := Counterpart.exists_pairs fun x hx d d' hd => h.of_mem (hd ▸ hx)
  have hone (g : Expr × Expr → Expr) : pairs.flatMap (fun p => [g p]) = pairs.map g :=
    (List.map_eq_flatMap ..).symm
  refine ⟨pairs, rfl, ?_, ?_⟩
  · rw [hes, List.flatMap_map]
    exact hone Prod.fst
  · rw [hes', List.flatMap_map]
    exact hone Prod.snd

theorem length_within_of_bare (h : e'.bare = e.bare) : e.within.length = e'.within.length := by
  have hbare : bareAll [e'] = bareAll [e] := by simp only [bareAll, h]
  obtain ⟨K, hK⟩ := exists_faces_of_bare hbare
  obtain ⟨pairs, -, he, he'⟩ := hK.exists_pairs
  rw [List.flatMap_singleton] at he he'
  rw [he, he', List.length_map, List.length_map]

/-- Above the changed place the change goes on in the parts. -/
theorem parts_changeAt (hne : e.node ≠ target) : (changeAt target f e).node = e.node ∧
    (changeAt target f e).children = changeAllAt target f e.children := by
  cases e <;> simp only [node] at hne <;> simp [changeAt, hne, children, changeAllAt, node]

theorem within_changeAt (hne : e.node ≠ target) : (changeAt target f e).within =
    changeAt target f e :: (changeAllAt target f e.children).flatMap within := by
  rw [within_eq, (parts_changeAt hne).2]

namespace Faces

variable {K : List Counterpart} {es es' : List Expr}

theorem length_changeAllAt (h : Faces (Replaces target f) K es es') (hK : ∀ d d', .kept d d' ∈ K → d.node ≠ target) :
    ((changeAllAt target f es).flatMap within).length = (es'.flatMap within).length := by
  induction h with
  | nil => rfl
  | @kept _ _ e e' _ _ _ _ _ _ ihparts ihrest =>
    rw [changeAllAt, List.flatMap_cons, List.flatMap_cons, within_changeAt (hK e e' (by simp)), within_eq e',
      List.length_append, List.length_append,
      List.length_cons, List.length_cons, ihparts fun d d' hd => hK d d' (by simp [hd]),
      ihrest fun d d' hd => hK d d' (by simp [hd])]
  | replaced hreplaces _ ih =>
    rw [changeAllAt, List.flatMap_cons, List.flatMap_cons, changeAt_of_node_eq hreplaces.1, List.length_append,
      List.length_append, length_within_of_bare hreplaces.2, ih fun d d' hd => hK d d' (by simp [hd])]

/-- What is known one by one of the changed expressions and others is known of what faces each other. -/
theorem forall₂_of_mem {R : Node → Node → Prop} (h : Faces (Replaces target f) K es es')
    (hK : ∀ d d', .kept d d' ∈ K → d.node ≠ target)
    (hR : List.Forall₂ (fun d d' : Expr => R d.node d'.node) ((changeAllAt target f es).flatMap within)
      (es'.flatMap within)) : (∀ d d', .kept d d' ∈ K → R d.node d'.node) ∧
      ∀ d d', .replaced d d' ∈ K → List.Forall₂ (fun d d' : Expr => R d.node d'.node) (f d).within d'.within := by
  induction h with
  | nil => exact ⟨nofun, nofun⟩
  | @kept K H e e' es es' hlike hjoin hparts hrest ihparts ihrest =>
    have hne := hK e e' (by simp)
    have hK₁ (d d' : Expr) (hd : .kept d d' ∈ K) : d.node ≠ target := hK d d' (by simp [hd])
    have hK₂ (d d' : Expr) (hd : .kept d d' ∈ H) : d.node ≠ target := hK d d' (by simp [hd])
    rw [changeAllAt, List.flatMap_cons, List.flatMap_cons, within_changeAt hne, within_eq e', List.cons_append,
      List.cons_append,
      List.forall₂_cons] at hR
    obtain ⟨hself, hR⟩ := hR
    obtain ⟨hR₁, hR₂⟩ := forall₂_append_inv hR (hparts.length_changeAllAt hK₁)
    obtain ⟨hkept₁, hreplaced₁⟩ := ihparts hK₁ hR₁
    obtain ⟨hkept₂, hreplaced₂⟩ := ihrest hK₂ hR₂
    refine ⟨fun c c' hc => ?_, fun c c' hc => ?_⟩
    · rw [List.cons_append, List.mem_cons, List.mem_append, Counterpart.kept.injEq] at hc
      obtain ⟨rfl, rfl⟩ | hc | hc := hc
      · exact (parts_changeAt hne).1 ▸ hself
      · exact hkept₁ c c' hc
      · exact hkept₂ c c' hc
    · exact (by simpa using hc : _ ∨ _).elim (hreplaced₁ c c') (hreplaced₂ c c')
  | @replaced H e e' es es' hreplaces hrest ih =>
    have hK' (d d' : Expr) (hd : .kept d d' ∈ H) : d.node ≠ target := hK d d' (by simp [hd])
    rw [changeAllAt, List.flatMap_cons, List.flatMap_cons, changeAt_of_node_eq hreplaces.1] at hR
    obtain ⟨hR₁, hR₂⟩ := forall₂_append_inv hR (length_within_of_bare hreplaces.2)
    obtain ⟨hkept, hreplaced⟩ := ih hK' hR₂
    refine ⟨fun c c' hc => hkept c c' (by simpa using hc), fun c c' hc => ?_⟩
    rw [List.mem_cons, Counterpart.replaced.injEq] at hc
    obtain ⟨rfl, rfl⟩ | hc := hc
    · exact hR₁
    · exact hreplaced c c' hc

end Faces

end Expr

/-! ### Parts of one expression only -/

/-- What is in some expressions is one of them, or a part of something in them. -/
theorem Expr.perm_flatMap_children (es : List Expr) :
    (es.flatMap within).Perm (es ++ (es.flatMap within).flatMap children) := by
  cases es with
  | nil => exact .nil
  | cons e es =>
    have hparts := perm_flatMap_children e.children
    have hrest := perm_flatMap_children es
    rw [List.flatMap_cons, within_eq, List.flatMap_append, List.flatMap_cons, List.cons_append, List.cons_append]
    refine .cons e ((hparts.append hrest).trans ?_)
    have hswap (as bs cs ds : List Expr) : (as ++ bs ++ (cs ++ ds)).Perm (cs ++ (as ++ bs ++ ds)) := by
      simpa only [List.append_assoc] using (List.perm_append_comm_assoc (as ++ bs) cs ds)
    exact hswap ..
termination_by (es.flatMap within).length
decreasing_by all_goals rw [List.flatMap_cons, within_eq e, List.length_append, List.length_cons]; omega

theorem Expr.within_sublist_flatMap {e : Expr} {es : List Expr} (h : e ∈ es) :
    e.within.Sublist (es.flatMap within) := by
  have hone := (List.singleton_sublist.2 h).flatMap within
  rwa [List.flatMap_singleton] at hone

/-- What is in something in an expression is in the expression, in the same order. -/
theorem Expr.within_sublist {c e : Expr} (h : c ∈ e.within) : c.within.Sublist e.within := by
  induction e using induction_on_parts with
  | h e ih =>
    obtain rfl | ⟨d, hd, hc⟩ := mem_within_iff.1 h
    · exact .refl _
    · rw [within_eq e]
      exact .cons e ((ih d hd hc).trans (within_sublist_flatMap hd))

namespace Numbered

variable {lo hi : Nat} {es : List Expr} {c p q : Expr}

theorem of_mem (h : Numbered lo hi es) (hc : c ∈ es.flatMap Expr.within) : Numbered lo hi [c] := by
  obtain ⟨e, he, hce⟩ := List.mem_flatMap.1 hc
  have hsub := (Expr.within_sublist hce).trans (Expr.within_sublist_flatMap he)
  refine ⟨?_, fun d hd => h.range d (hsub.subset ?_)⟩
  · rw [List.flatMap_singleton]
    exact (hsub.map Expr.id).nodup h.nodup
  · rwa [List.flatMap_singleton] at hd

theorem nodup_children (h : Numbered lo hi es) : (es ++ (es.flatMap Expr.within).flatMap Expr.children).Nodup :=
  (Expr.perm_flatMap_children es).nodup_iff.1 h.nodup.of_map

/-- What stands outermost is no part of anything. -/
theorem notMem_children (h : Numbered lo hi es) (hc : c ∈ es) (hp : p ∈ es.flatMap Expr.within) : c ∉ p.children :=
  fun hmem => (List.nodup_append.1 h.nodup_children).2.2 c hc c (List.mem_flatMap.2 ⟨p, hp, hmem⟩) rfl

/-- Nothing is a part of two expressions. -/
theorem eq_of_mem_children (h : Numbered lo hi es) (hp : p ∈ es.flatMap Expr.within)
    (hq : q ∈ es.flatMap Expr.within) (hcp : c ∈ p.children) (hcq : c ∈ q.children) : p = q := by
  have hdisjoint := (List.nodup_flatMap.1 (List.nodup_append.1 h.nodup_children).2.1).2
  have : Std.Symm (Function.onFun List.Disjoint Expr.children) := ⟨fun _ _ h _ hb ha => h ha hb⟩
  by_contra hne
  exact hdisjoint.forall hp hq hne hcp hcq

end Numbered

end CultureLint
