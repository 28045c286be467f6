import CultureLint.Binding.Operator
import CultureLint.Proofs.Binding.Forest
import CultureLint.Proofs.Symbol.Growth

/-! The types of what an operator calculates with, and of what it gives: the type in which two numbers are
calculated with is one that each of them widens to, so that the conversions put on them exist. -/

namespace CultureLint

namespace BinaryOp

/-- The operators that give a value of the type in which they calculate. -/
def calculates : BinaryOp → Bool
  | .add | .sub | .mul | .div | .rem | .bitAnd | .bitOr | .bitXor => true
  | .shl | .eq | .ne | .lt | .gt | .le | .ge | .and | .or | .coalesce => false

/-- The operators that work on truth values as well as on numbers. -/
def isBitwise : BinaryOp → Bool
  | .bitAnd | .bitOr | .bitXor => true
  | _ => false

end BinaryOp

/-! ### Promotion -/

namespace SpecialType

/-- The numeric types. -/
def numbers : List SpecialType :=
  [.char, .sbyte, .byte, .int16, .uint16, .int32, .uint32, .int64, .uint64, .single, .double, .decimal]

theorem mem_numbers_of_isNumeric {a : SpecialType} (h : a.isNumeric = true) : a ∈ numbers := by
  cases a with
  | object | valueType | array | void | string | boolean | dateTime => cases h
  | _ => decide

theorem promoteWith_comm (a b : SpecialType) : a.promoteWith b = b.promoteWith a := by
  simp only [promoteWith, Bool.or_comm]

/-- Numbers are calculated with in a numeric type that they have, or widen to. -/
theorem widensTo_of_promoteWith {a b p : SpecialType} (ha : a.isNumeric = true) (hb : b.isNumeric = true)
    (h : a.promoteWith b = some p) : p.isNumeric = true ∧ (a = p ∨ p ∈ a.widensTo) := by
  have table : ∀ a ∈ numbers, ∀ b ∈ numbers, ∀ p ∈ a.promoteWith b,
      p.isNumeric = true ∧ (a = p ∨ p ∈ a.widensTo) := by decide
  exact table a (mem_numbers_of_isNumeric ha) b (mem_numbers_of_isNumeric hb) p h

end SpecialType

namespace Compilation

variable {c d : Compilation}

theorem isNumeric_iff {id : TypeId} : c.isNumeric id = true ↔
    ∃ s, (c.symbol id).special = some s ∧ s.isNumeric = true := by
  rw [isNumeric, Option.any_eq_true]

theorem Coherent.special?_of_isSpecial (h : c.Coherent) {s : SpecialType} {T : TypeId}
    (hT : c.isSpecial T s = true) : c.special? s = some T :=
  (h.special?_iff s T).2 (by simpa [isSpecial] using hT)

theorem Coherent.isSpecial_of_special? (h : c.Coherent) {s : SpecialType} {T : TypeId}
    (hT : c.special? s = some T) : c.isSpecial T s = true := by
  simpa [isSpecial] using (h.special?_iff s T).1 hT

/-- The values of a type of numbers become those of each type that the numbers widen to. -/
theorem isConversion_of_widensTo (h : c.Coherent) {a p : SpecialType} {source target : TypeId}
    (hsource : (c.symbol source).special = some a) (htarget : c.special? p = some target)
    (hwidens : a = p ∨ p ∈ a.widensTo) : (c.convertType source target).isConversion = true := by
  rw [convertType, convertTypeUpTo]
  by_cases hid : source = target
  · simp [hid, Conversion.isConversion]
  have hp : p ∈ a.widensTo := by
    refine hwidens.resolve_left fun hap => hid (Option.some.inj ?_)
    rw [← htarget, ← hap, (h.special?_iff a source).2 hsource]
  have hw : c.widens source target = true := by
    simpa [widens, hsource, (h.special?_iff p target).1 htarget] using hp
  simp [hid, hw, Conversion.isConversion]

/-- There is a type, and it is the string or the object. -/
def IsText (c : Compilation) (type : Option TypeId) : Prop :=
  ∃ T, type = some T ∧ (c.isSpecial T .string = true ∨ c.isSpecial T .object = true)

theorem isText_special? (h : c.Coherent) {s : SpecialType} (hs : s = .string ∨ s = .object) {T : TypeId}
    (hT : c.special? s = some T) : c.IsText (some T) := by
  have := h.isSpecial_of_special? hT
  obtain rfl | rfl := hs
  · exact ⟨T, rfl, .inl this⟩
  · exact ⟨T, rfl, .inr this⟩

namespace Grows

theorem isSpecial_of (g : Grows c d) {T : TypeId} {s : SpecialType} (h : c.isSpecial T s = true) :
    d.isSpecial T s = true := by
  have hs : (c.symbol T).special = some s := by simpa [isSpecial] using h
  rwa [isSpecial, g.symbol_eq T (has_of_special hs)]

theorem isNumeric_of (g : Grows c d) {T : TypeId} (h : c.isNumeric T = true) : d.isNumeric T = true := by
  obtain ⟨s, hs, -⟩ := isNumeric_iff.1 h
  rwa [isNumeric, g.symbol_eq T (has_of_special hs)]

theorem isText (g : Grows c d) {type : Option TypeId} (h : c.IsText type) : d.IsText type := by
  obtain ⟨T, htype, hT⟩ := h
  exact ⟨T, htype, hT.imp g.isSpecial_of g.isSpecial_of⟩

end Grows

end Compilation

/-! ### Operands -/

namespace BoundUnit

variable {unit later : BoundUnit} {id : OperationId} {T : TypeId}

theorem mem_ids_of_typeOf (h : unit.typeOf id = some T) : id ∈ unit.ids := by
  obtain ⟨op, hop, -⟩ := Option.bind_eq_some_iff.1 h
  exact mem_ids_of_get? hop

/-- An operand has the very type, and if it is a conversion that nobody wrote, there is such a
conversion. -/
structure Suits (unit : BoundUnit) (T : TypeId) (id : OperationId) : Prop where
  type : unit.typeOf id = some T
  exists_conversion : ∀ op x conversion, unit.get? id = some op → op.isImplicit = true →
    op.kind = .conversion x conversion → conversion.isConversion = true

theorem Suits.mono (h : unit.Suits T id) (ext : unit.Extends later) : later.Suits T id where
  type := (ext.typeOf_eq (mem_ids_of_typeOf h.type)).trans h.type
  exists_conversion op x conversion hop := by
    obtain ⟨old, hold, -⟩ := Option.bind_eq_some_iff.1 h.type
    obtain ⟨parent, hlater⟩ := ext id old hold
    obtain rfl : { old with parent } = op := Option.some.inj (hlater.symm.trans hop)
    exact h.exists_conversion old x conversion hold

end BoundUnit

/-- The operands of an operator and its result have one type, that of numbers or, for some operators, of
truth values. -/
structure Calculated (c : Compilation) (unit : BoundUnit) (sign : BinaryOp) (l r : OperationId)
    (T : TypeId) : Prop where
  result : c.isNumeric T = true ∨ sign.isBitwise = true ∧ c.isSpecial T .boolean = true
  left : unit.Suits T l
  right : unit.Suits T r

theorem Calculated.mono {c d : Compilation} {unit later : BoundUnit} {sign : BinaryOp}
    {l r : OperationId} {T : TypeId} (h : Calculated c unit sign l r T) (grows : c.Grows d)
    (ext : unit.Extends later) : Calculated d later sign l r T where
  result := h.result.imp grows.isNumeric_of fun ⟨hsign, hT⟩ => ⟨hsign, grows.isSpecial_of hT⟩
  left := h.left.mono ext
  right := h.right.mono ext

end CultureLint
