import CultureLint.Proofs.Binding.ReplacingCall
import CultureLint.Proofs.Fix.Substitution

/-! The call that formats an operand is bound in its place: the operand in it is bound as before, and the operator
around it takes the call as it took the operand. -/

namespace CultureLint

namespace Expr

theorem IsDotted.of_bare {e e' : Expr} {words : List String} (h : e.IsDotted words) (hb : e'.bare = e.bare) :
    e'.IsDotted words := by
  induction h generalizing e' with
  | name node word =>
    cases e' <;> simp only [bare, reduceCtorEq, name.injEq, true_and] at hb
    exact hb ▸ .name _ _
  | memberAccess node _ ident ih =>
    cases e' <;> simp only [bare, reduceCtorEq, memberAccess.injEq, true_and] at hb
    rename_i node' receiver' ident'
    have hname : ident'.name = ident.name := (congrArg Ident.name hb.2 :)
    exact hname ▸ .memberAccess node' (ih hb.1) ident'

theorem isDotted_dotted {e : Expr} {words : List String} (h : e.IsDotted words) (names : List String) :
    (e.dotted names).IsDotted (words ++ names) := by
  induction names generalizing e words with
  | nil => exact (List.append_nil words).symm ▸ h
  | cons name names ih =>
    have hnext : (words ++ [name]) ++ names = words ++ name :: names := by simp
    exact hnext ▸ ih (.memberAccess anyNode h (anyIdent name))

theorem isDotted_cultureExpr (full : Bool) :
    (cultureExpr full).IsDotted ((cultureNames full).1 :: (cultureNames full).2) :=
  isDotted_dotted (.name anyNode _) _

theorem within_call (node access : Node) (receiver : Expr) (ident : Ident) (arguments : List Expr) :
    (invocation node (.memberAccess access receiver ident) arguments).within =
      .invocation node (.memberAccess access receiver ident) arguments :: .memberAccess access receiver ident ::
        (receiver.within ++ arguments.flatMap within) := by
  rw [within_eq, children, List.flatMap_cons, within_eq (.memberAccess access receiver ident), children,
    List.flatMap_singleton, List.cons_append]

/-- What the call is made of, and where the operand stands in it. -/
theorem exists_of_bare_formatted {e e' : Expr} {full : Bool} (h : e'.bare = (e.formatted full).bare)
    {R : Expr → Expr → Prop} (hR : List.Forall₂ R (e.formatted full).within e'.within) :
    ∃ (node access : Node) (receiver : Expr) (ident : Ident) (argument copy : Expr),
      e' = .invocation node (.memberAccess access receiver ident) [argument] ∧ ident.name = "ToString" ∧
      argument.bare = (cultureExpr full).bare ∧ copy.bare = e.bare ∧ receiver.plan.bound = copy.plan.bound ∧
      List.Forall₂ R e.within copy.within := by
  unfold formatted at h hR
  cases e' <;> simp only [bare, reduceCtorEq, invocation.injEq, true_and] at h
  rename_i node callee arguments
  obtain ⟨hcallee, harguments⟩ := h
  cases callee <;> simp only [bare, reduceCtorEq, memberAccess.injEq, true_and] at hcallee
  rename_i access receiver ident
  obtain ⟨hreceiver, hident⟩ := hcallee
  have hname : ident.name = "ToString" := (congrArg Ident.name hident :)
  -- the receiver comes first in the access, which comes first in the call
  rw [within_call, within_call, List.forall₂_cons, List.forall₂_cons] at hR
  have hreceivers := (forall₂_append_inv hR.2.2 (length_within_of_bare hreceiver)).1
  obtain ⟨argument, rfl, hargument⟩ : ∃ argument, arguments = [argument] ∧ argument.bare = (cultureExpr full).bare := by
    cases arguments with
    | nil => cases harguments
    | cons argument rest =>
      simp only [bareAll, List.cons.injEq] at harguments
      cases rest with
      | nil => exact ⟨argument, rfl, harguments.1⟩
      | cons => cases harguments.2
  cases hprimary : e.isPrimary with
  | true =>
    rw [hprimary, if_pos rfl] at hreceiver hreceivers
    exact ⟨node, access, receiver, ident, argument, receiver, rfl, hname, hargument, hreceiver, rfl, hreceivers⟩
  | false =>
    rw [hprimary, if_neg (by simp)] at hreceiver hreceivers
    cases receiver <;> simp only [bare, reduceCtorEq, parenthesized.injEq, true_and] at hreceiver
    rename_i paren copy
    rw [within_eq, within_eq (.parenthesized paren copy), children, children, List.flatMap_singleton,
      List.flatMap_singleton, List.forall₂_cons] at hreceivers
    exact ⟨node, access, _, ident, argument, copy, rfl, hname, hargument, hreceiver, rfl, hreceivers.2⟩

end Expr

namespace Comparison

variable {C : Comparison} {e e' copy : Expr} {full : Bool}

variable (C) in
/-- The places of two expressions count alike. -/
def CountsLike (c c' : Expr) : Prop := C.shows' c'.node.span.start = C.sought.shows c.node.span.start

/-- An expression in which the same is written is bound alike. -/
theorem tracksExpr_of_bare (h : copy.bare = e.bare) (htidy : e.Tidy)
    (hshows : List.Forall₂ C.CountsLike e.within copy.within)
    (hwords : ∀ c ∈ e.within, ∀ word ∈ c.ownWords, C.knows word)
    (hne : ∀ c ∈ e.within, ∀ d ∈ c.children, d.id ≠ C.hole.id) : C.TracksExpr e copy := by
  have hbare : Expr.bareAll [copy] = Expr.bareAll [e] := by simp only [Expr.bareAll, h]
  obtain ⟨K, hK⟩ := Expr.exists_faces_of_bare hbare
  obtain ⟨pairs, hpairs, hold, hnew⟩ := hK.exists_pairs
  rw [List.flatMap_singleton] at hold hnew
  have hkept {c c' : Expr} (hc : .kept c c' ∈ K) : (c, c') ∈ pairs := by
    obtain ⟨p, hp, heq⟩ := List.mem_map.1 (hpairs ▸ hc)
    cases heq
    exact hp
  have hmem {c c' : Expr} (hc : .kept c c' ∈ K) : c ∈ e.within := hold ▸ List.mem_map_of_mem (hkept hc)
  rw [hold, hnew, List.forall₂_map_left_iff, List.forall₂_map_right_iff, List.forall₂_same] at hshows
  have hkeeps : C.Keeps K := ⟨fun c c' hc => ⟨hshows _ (hkept hc), (htidy c (hmem hc)).nonempty⟩,
    fun c c' hc => hwords c (hmem hc), fun c c' hc d hd _ _ => hne c (hmem hc) d hd⟩
  have htracks := tracks_of_faces hK hkeeps (by simpa using htidy)
    fun _ _ _ _ _ _ _ hex => hex.elim fun _ h => h.2.elim fun _ h => h.elim
  obtain h | h := (List.forall₂_cons.1 htracks).1
  · exact h.elim
  · exact h.2

/-- The call in the place of the operand, if calls of the method give nothing that can be formatted. -/
theorem Finding.replaced_formatted (hF : C.Finding) (hnode : e.node = C.hole) (h : e'.bare = (e.formatted full).bare)
    (htidy : e.Tidy)
    (hshows : List.Forall₂ (fun c c' => c ∈ e.within → C.CountsLike c c') (e.formatted full).within e'.within)
    (hwords : ∀ c ∈ e.within, ∀ word ∈ c.ownWords, C.knows word)
    (hne : ∀ c ∈ e.within, ∀ d ∈ c.children, d.id ≠ C.hole.id)
    (hplain : ∀ c, c.Coherent → C.base.Grows c → ∀ T, C.sought.formats T = true → ∀ arg ref method,
      Bind.overload? c T "ToString" [arg] = some (ref, method) → method.returns.any C.sought.formats = false) :
    C.Replaced e e' := by
  obtain ⟨node, access, receiver, ident, argument, copy, rfl, hname, hargument, hcopy, hreceiver, hlike⟩ :=
    Expr.exists_of_bare_formatted h hshows
  have hcounts : List.Forall₂ C.CountsLike e.within copy.within :=
    List.forall₂_iff_zip.2 ⟨hlike.length_eq, fun hc => List.forall₂_zip hlike hc (List.of_mem_zip hc).1⟩
  have htracks := tracksExpr_of_bare hcopy htidy hcounts hwords hne
  exact hF.replaced_call hnode htracks hreceiver ((Expr.isDotted_cultureExpr full).of_bare hargument)
    (by rwa [hname])

end Comparison

end CultureLint
