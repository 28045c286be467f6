import CultureLint.Proofs.Binding.Overload
import CultureLint.Proofs.Rule.Findings
import CultureLint.Proofs.Symbol.Hierarchy

/-! Types whose methods make text of their values once and for all. A call of such a method gives nothing that the
rule would find again. Arrays and nullable types have no methods of that kind, so it does not matter which of them
come up while members are bound. -/

namespace CultureLint

namespace Compilation

variable {c d e : Compilation} {types : WellKnownTypes} {T owner : TypeId} {method : MethodSymbol}

/-- A method that makes text of a value that can be formatted, by one thing that is handed to it, gives nothing that
can be formatted again. -/
def FormatsOnce (c : Compilation) (types : WellKnownTypes) : Prop :=
  ∀ T, c.Formattable types T → ∀ owner ∈ c.baseChain T, ∀ method : MethodSymbol,
    .method method ∈ (c.symbol owner).members → method.name = "ToString" → method.parameters.length = 1 →
      ∀ U, method.returns = some U → ¬ c.Formattable types U

/-- A member is no method that makes text of its value by one thing that is handed to it, or gives a string. -/
def givesString (types : WellKnownTypes) (m : Member) : Bool :=
  m.method?.all fun method =>
    method.name != "ToString" || method.parameters.length != 1 || method.returns == some types.string

/-- Where all such methods give strings, values are formatted once and for all. -/
theorem formatsOnce_of_givesString (h : c.types.all fun symbol => symbol.members.all (givesString types)) :
    c.FormatsOnce types := by
  intro T _ owner _ method hm hname hlength U hU hf
  have hhas : owner.index < c.types.size := has_of_mem_members hm
  have hmembers := Array.all_eq_true.1 h owner.index hhas
  rw [symbol, Array.getElem?_eq_getElem hhas] at hm
  have hgives := List.all_eq_true.1 hmembers _ hm
  simp only [givesString, Member.method?, Option.all_some, hname, hlength, hU, bne_self_eq_false, Bool.false_or,
    beq_iff_eq, Option.some.injEq] at hgives
  exact hf.ne_string hgives

/-! ### Arrays and nullable types -/

/-- What a type comes from that is built from another one is a root. -/
theorem Coherent.simple_of_reaches (h : Coherent c) (hT : (c.symbol T).kind.isConstructed = true ∨ c.IsRoot T)
    (ho : Relation.ReflTransGen c.HasBase T owner) :
    (c.symbol owner).kind.isConstructed = true ∨ c.IsRoot owner := by
  induction ho with
  | refl => exact hT
  | tail _ hlink ih => exact .inr ((h.simple _ ih).base _ hlink)

/-- Neither an array nor a nullable type has a method that makes text by anything that is handed to it. -/
theorem Coherent.parameters_eq_nil (h : Coherent c) (hT : (c.symbol T).kind.isConstructed = true)
    (ho : owner ∈ c.baseChain T) (hm : .method method ∈ (c.symbol owner).members) (hname : method.name = "ToString") :
    method.parameters = [] :=
  (h.simple owner (h.simple_of_reaches (.inl hT) (reachable_of_mem_baseChainUpTo ho))).members method hm hname

/-! ### More types -/

/-- What a type comes from is a type of the compilation. -/
theorem Coherent.has_of_mem_baseChain (h : Coherent c) (hT : c.Has T) (ho : owner ∈ c.baseChain T) : c.Has owner := by
  induction reachable_of_mem_baseChainUpTo ho with
  | refl => exact hT
  | tail _ hlink _ => exact (h.closed _).base _ hlink

/-- Where values are formatted once and for all by the methods of one compilation, no call with one argument in
another that comes from the same types gives a value that can be formatted again. -/
theorem FormatsOnce.of_overload? (h : d.FormatsOnce types) (hc : Coherent c) (g : Grows c d) (g' : Grows c e)
    (he : Coherent e) (hT : d.Formattable types T) {arg : Bind.ArgumentType} {ref : MemberRef}
    (hoverload : Bind.overload? e T "ToString" [arg] = some (ref, method)) {U : TypeId}
    (hU : method.returns = some U) : ¬ d.Formattable types U := by
  obtain ⟨before, after, hsplit, htakes, -⟩ := Bind.overload?_eq_some_iff.1 hoverload
  have hmem : (ref, Member.method method) ∈ e.membersNamed T "ToString" := hsplit ▸ by simp
  obtain ⟨owner, howner, -, hm, hname⟩ := mem_membersNamed_iff.1 hmem
  replace hm := List.mem_of_getElem? hm
  have hlength : method.parameters.length = 1 := htakes.length_eq
  by_cases hhas : c.Has T
  · rw [g'.baseChain_eq hc hhas, ← g.baseChain_eq hc hhas] at howner
    have howner' := howner
    rw [g.baseChain_eq hc hhas] at howner'
    have hhas' := hc.has_of_mem_baseChain hhas howner'
    rw [g'.symbol_eq owner hhas', ← g.symbol_eq owner hhas'] at hm
    exact h T hT owner howner method hm hname hlength U hU
  · -- the type came up while members were bound, so that no such method is one of it
    exfalso
    by_cases hnew : e.Has T
    · rw [he.parameters_eq_nil (g'.constructed T hhas hnew) howner hm hname] at hlength
      cases hlength
    · rw [baseChain, baseChain_of_not_has hnew (Nat.succ_pos _), List.mem_singleton] at howner
      exact hnew (howner ▸ has_of_mem_members hm)

end Compilation

end CultureLint
