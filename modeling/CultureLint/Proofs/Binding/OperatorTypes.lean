import CultureLint.Proofs.Binding.Program

/-! The operators of every document of a program, once it is bound, are well typed: what they are given was
made to fit, also where the code that was written has no meaning. -/

namespace CultureLint

variable {operand : Expr → Prop} {c : Compilation} {unit : BoundUnit} {free : List OperationId}

/-- What joins strings is a string or an object, whatever it was before it was converted. -/
theorem Joined.isText {id : OperationId} {string : TypeId} (h : Joined operand c unit id)
    (hc : c.Coherent) (hs : c.special? .string = some string) : c.IsText (unit.typeOf id) := by
  obtain ⟨object, ho⟩ := Option.isSome_iff_exists.1 (hc.hasObject (by rw [hs]; rfl))
  cases h with
  | asIs hwritten htype =>
    obtain htype | htype := htype string object hs ho
    · exact htype ▸ Compilation.isText_special? hc (.inl rfl) hs
    · exact htype ▸ Compilation.isText_special? hc (.inr rfl) ho
  | converted e x conversion op he hop hkind himplicit horigin hwritten hby =>
    rw [show unit.typeOf id = op.type by simp [BoundUnit.typeOf, hop]]
    cases hby with
    | untyped _ htext => exact htext
    | toObject source object _ hobject htype =>
      exact htype ▸ Compilation.isText_special? hc (.inr rfl) hobject

/-- The types of an operator that calculates: it gives a string, a number or a truth value, by what it is.
A string is joined from strings and objects, and everything else is calculated in its own type. -/
structure BinaryTyped (c : Compilation) (unit : BoundUnit) (sign : BinaryOp) (l r : OperationId)
    (T : TypeId) : Prop where
  result : sign = .add ∧ c.isSpecial T .string = true ∨ c.isNumeric T = true ∨
    sign.isBitwise = true ∧ c.isSpecial T .boolean = true
  joined : c.isSpecial T .string = true → c.IsText (unit.typeOf l) ∧ c.IsText (unit.typeOf r)
  calculated : c.isSpecial T .string = false → unit.Suits T l ∧ unit.Suits T r

/-- All operators that calculate, and all that add to a string, have operands of the right types. -/
structure BoundUnit.WellTyped (c : Compilation) (unit : BoundUnit) : Prop where
  binary : ∀ id op sign l r T, unit.get? id = some op → op.kind = .binary sign l r →
    sign.calculates = true → op.type = some T → BinaryTyped c unit sign l r T
  append : ∀ id op target value string, unit.get? id = some op →
    op.kind = .compoundAssignment .add target value → unit.typeOf target = some string →
    c.isSpecial string .string = true → c.IsText (unit.typeOf value)

/-- Numbers and truth values are no strings. -/
theorem Calculated.isSpecial_string_eq_false {sign : BinaryOp} {l r : OperationId} {T : TypeId}
    (h : Calculated c unit sign l r T) : c.isSpecial T .string = false := by
  rw [Compilation.isSpecial, decide_eq_false_iff_not]
  intro hs
  obtain hn | ⟨-, hb⟩ := h.result
  · simp [Compilation.isNumeric, hs, SpecialType.isNumeric] at hn
  · simp [Compilation.isSpecial, hs] at hb

theorem UnitInv.wellTyped (h : UnitInv operand c unit free) : unit.WellTyped c where
  binary id op sign l r T hop hkind hsign hT := by
    have legal := h.legal id op hop
    obtain ⟨rfl, hs⟩ | hcalc := legal.calculated sign l r hkind hsign T hT
    · refine ⟨.inl ⟨rfl, hs⟩, fun _ => ?_, fun hno => by simp [hs] at hno⟩
      have hstring := h.coherent.special?_of_isSpecial hs
      obtain ⟨hl, hr⟩ := legal.sum l r hkind T hstring hT
      exact ⟨hl.isText h.coherent hstring, hr.isText h.coherent hstring⟩
    · have hno := hcalc.isSpecial_string_eq_false
      exact ⟨.inr hcalc.result, fun hs => by simp [hs] at hno, fun _ => ⟨hcalc.left, hcalc.right⟩⟩
  append id op target value string hop hkind htarget hs := by
    obtain ⟨-, htype, hjoined⟩ := (h.legal id op hop).append target value hkind
    have hstring := h.coherent.special?_of_isSpecial hs
    exact (hjoined string hstring (htype.symm.trans htarget)).isText h.coherent hstring

/-- In every program, the operators of each document are well typed. -/
theorem Project.wellTyped_of_mem_units (p : Project) {unit : BoundUnit} (h : unit ∈ p.bind.units) :
    unit.WellTyped p.bind.compilation := by
  obtain ⟨i, hi⟩ := Array.mem_iff_getElem?.1 h
  exact ((BoundProgram.bound_ofUnits _ _).unit i unit hi).wellTyped

/-- A class that adds two numbers of different types and adds what has no meaning to a string. -/
def addingText : String := "class C\x7bdouble M(string s,int n,double d)\x7bs+=m;return n+d;\x7d\x7d"

theorem Project.wellTyped_of_mem_units_adding : ∃ (p : Project) (unit : BoundUnit) (l r : OperationId),
    unit ∈ p.bind.units ∧ unit.isConversion l = true ∧
    unit.operations.toList.any (fun op => op.kind = .binary .add l r && op.type.isSome) = true ∧
    unit.operations.toList.any (fun op => op.kind matches .compoundAssignment .add _ _) = true ∧
    unit.WellTyped p.bind.compilation := by
  have found : ((Document.parse "C.cs" addingText).toOption.any fun d =>
      (Project.mk [.core, .globalization] [d]).bind.units.toList.any fun unit =>
        unit.isConversion ⟨7⟩ && unit.operations.toList.any (fun op =>
          op.kind = .binary .add ⟨7⟩ ⟨6⟩ && op.type.isSome) &&
        unit.operations.toList.any fun op => op.kind matches .compoundAssignment .add _ _) = true := by
    decide +kernel
  obtain ⟨d, -, found⟩ := Option.any_eq_true _ _ |>.1 found
  obtain ⟨unit, hunit, found⟩ := List.any_eq_true.1 found
  simp only [Bool.and_eq_true] at found
  have hunit := Array.mem_toList_iff.1 hunit
  exact ⟨_, unit, ⟨7⟩, ⟨6⟩, hunit, found.1.1, found.1.2, found.2, Project.wellTyped_of_mem_units _ hunit⟩

end CultureLint
