import CultureLint.Proofs.Parser.Complete
import CultureLint.Proofs.Token.Words
import CultureLint.Parser.Document

/-! The grammar of operators, on expressions without calls, indices, creations, casts and type words.
Such an expression is well formed where no operator needs parentheses around its operands. The tokens of
a well-formed expression with spaces between them are read as that expression, and an expression that is
read is well formed and has the tokens that the text begins with. -/

namespace CultureLint

open CultureLint.Parser CultureLint.Grammar

/-! ### Tokens of operators and literals -/

/-- How a table writes a value. -/
def spellingIn {α : Type} [DecidableEq α] (table : List (String × α)) (a : α) : String :=
  ((table.find? (·.2 = a)).map Prod.fst).getD ""

def BinaryOp.spelling (op : BinaryOp) : String := spellingIn spellings op

def UnaryOp.spelling (op : UnaryOp) : String := spellingIn spellings op

def AssignOp.spelling (op : AssignOp) : String := spellingIn spellings op

/-- Whether the operator can be written: not every operator between operands is joined with `=`. -/
def AssignOp.isWritten (op : AssignOp) : Bool := spellings.any (·.2 = op)

namespace LiteralKind

/-- The class of the tokens that are literals of the kind. -/
def tokenKind : LiteralKind → TokenKind
  | .string | .interpolatedString => .string
  | .char => .char
  | .integer => .integer
  | .real => .real
  | .true | .false | .null => .keyword

/-- Whether the text of a token of that class makes it a literal of the kind. -/
def fits (text : String) : LiteralKind → Bool
  | .string => !("$".isPrefixOf text || "@$".isPrefixOf text)
  | .interpolatedString => "$".isPrefixOf text || "@$".isPrefixOf text
  | .true => text == "true"
  | .false => text == "false"
  | .null => text == "null"
  | .char | .integer | .real => Bool.true

/-- The token of a literal. -/
def token (kind : LiteralKind) (text : String) : Token := ⟨0, kind.tokenKind, text, 0⟩

end LiteralKind

namespace Expr

/-! ### Expressions of operators -/

/-- The tokens of an expression without calls, indices, creations, casts and type words. -/
def words : Expr → List Token
  | .literal _ kind text => [kind.token text]
  | .name _ word => [.ofName word]
  | .this _ => [⟨0, .keyword, "this", 0⟩]
  | .parenthesized _ inner => .mark "(" :: (inner.words ++ [.mark ")"])
  | .memberAccess _ receiver ident => receiver.words ++ [.mark ".", .ofName ident.name]
  | .step _ increment operand => operand.words ++ [.mark (if increment then "++" else "--")]
  | .unary _ op operand => .mark op.spelling :: operand.words
  | .binary _ op left right => left.words ++ .mark op.spelling :: right.words
  | .conditional _ condition whenTrue whenFalse =>
    condition.words ++ .mark "?" :: (whenTrue.words ++ .mark ":" :: whenFalse.words)
  | .assignment _ op target value => target.words ++ .mark op.spelling :: value.words
  | .primitive .. | .invocation .. | .elementAccess .. | .objectCreation .. | .cast .. => []

/-- Every expression inside an expression has the property. -/
def All (p : Expr → Prop) (e : Expr) : Prop := ∀ x ∈ e.within, p x

instance (p : Expr → Prop) [DecidablePred p] (e : Expr) : Decidable (e.All p) :=
  inferInstanceAs (Decidable (∀ x ∈ e.within, p x))

theorem all_iff {p : Expr → Prop} {e : Expr} : e.All p ↔ p e ∧ ∀ c ∈ e.children, c.All p := by
  refine ⟨fun h => ⟨h e e.mem_within_self, fun c hc x hx => ?_⟩, fun h x hx => ?_⟩
  · exact h x (mem_within_iff.2 (.inr ⟨c, hc, hx⟩))
  · obtain rfl | ⟨c, hc, hx⟩ := mem_within_iff.1 hx
    · exact h.1
    · exact h.2 c hc x hx

theorem All.child {p : Expr → Prop} {c e : Expr} (h : e.All p) (hc : c ∈ e.children) : c.All p :=
  (all_iff.1 h).2 c hc

/-- Whether the expression is a literal, a name, `this`, a member, or made of parentheses or operators. -/
def isOperation : Expr → Bool
  | .literal .. | .name .. | .this .. | .parenthesized .. | .memberAccess .. | .step .. | .unary ..
  | .binary .. | .conditional .. | .assignment .. => true
  | .primitive .. | .invocation .. | .elementAccess .. | .objectCreation .. | .cast .. => false

/-- The literals, names and operators at the root of an expression have tokens. -/
def HasToken : Expr → Prop
  | .literal _ kind text => kind.fits text = true ∧ (kind.token text).StandsAlone
  | .name _ word => IsName word
  | .memberAccess _ _ ident => IsName ident.name
  | .assignment _ op _ _ => op.isWritten = true
  | _ => True

instance : DecidablePred HasToken
  | .literal _ kind text =>
    inferInstanceAs (Decidable (kind.fits text = true ∧ (kind.token text).StandsAlone))
  | .name _ word => inferInstanceAs (Decidable (IsName word))
  | .memberAccess _ _ ident => inferInstanceAs (Decidable (IsName ident.name))
  | .assignment _ op _ _ => inferInstanceAs (Decidable (op.isWritten = true))
  | .primitive .. | .this .. | .parenthesized .. | .invocation .. | .elementAccess .. | .objectCreation ..
  | .unary .. | .step .. | .cast .. | .binary .. | .conditional .. => inferInstanceAs (Decidable True)

/-! ### Operands -/

/-- Whether the expression is an assignment or a conditional. -/
def isLoose : Expr → Bool
  | .assignment .. | .conditional .. => true
  | _ => false

/-- The operator of an expression that is made of an operator between two operands. -/
def binary? : Expr → Option BinaryOp
  | .binary _ op _ _ => some op
  | _ => none

/-- Whether the expression is made of an operator before its operand, or is primary. -/
def isOperand : Expr → Bool
  | .unary .. => true
  | e => e.isPrimary

/-- The expression may stand on the left of the operator: no operator in it binds less tightly, and `??`
is not repeated there. -/
def IsLeftOf (op : BinaryOp) (e : Expr) : Prop :=
  e.isLoose = false ∧ ∀ inner ∈ e.binary?,
    if op = .coalesce then inner ≠ .coalesce else op.precedence ≤ inner.precedence

/-- The expression may stand on the right of the operator: all operators in it bind more tightly, but on
the right of `??` any may be. -/
def IsRightOf (op : BinaryOp) (e : Expr) : Prop :=
  e.isLoose = false ∧ ∀ inner ∈ e.binary?, op = .coalesce ∨ op.precedence < inner.precedence

instance (op : BinaryOp) (e : Expr) : Decidable (e.IsLeftOf op) := inferInstanceAs (Decidable (_ ∧ _))

instance (op : BinaryOp) (e : Expr) : Decidable (e.IsRightOf op) := inferInstanceAs (Decidable (_ ∧ _))

/-- The operands at the root of an expression need no parentheses. -/
def IsGrouped : Expr → Prop
  | .binary _ op left right => left.IsLeftOf op ∧ right.IsRightOf op
  | .unary _ _ operand => operand.isOperand = true
  | .step _ _ operand => operand.isPrimary = true
  | .memberAccess _ receiver _ => receiver.isPrimary = true
  | .conditional _ condition _ _ => condition.isLoose = false
  | .assignment _ _ target _ => target.isLoose = false
  | _ => True

instance : DecidablePred IsGrouped
  | .binary _ op left right => inferInstanceAs (Decidable (left.IsLeftOf op ∧ right.IsRightOf op))
  | .unary _ _ operand => inferInstanceAs (Decidable (operand.isOperand = true))
  | .step _ _ operand => inferInstanceAs (Decidable (operand.isPrimary = true))
  | .memberAccess _ receiver _ => inferInstanceAs (Decidable (receiver.isPrimary = true))
  | .conditional _ condition _ _ => inferInstanceAs (Decidable (condition.isLoose = false))
  | .assignment _ _ target _ => inferInstanceAs (Decidable (target.isLoose = false))
  | .literal .. | .name .. | .primitive .. | .this .. | .parenthesized .. | .invocation ..
  | .elementAccess .. | .objectCreation .. | .cast .. => inferInstanceAs (Decidable True)

/-- The expression is made of nothing but literals, names, `this`, members, parentheses and operators. -/
abbrev OfOperators : Expr → Prop := All (·.isOperation = true)

/-- All literals, names and operators of the expression have tokens. -/
abbrev HasTokens : Expr → Prop := All HasToken

/-- No operand in the expression needs parentheses that it does not have. -/
abbrev WellFormed : Expr → Prop := All IsGrouped

/-! ### Operands and levels -/

theorem isLoose_iff {e : Expr} : e.isLoose = false ↔ 0 < e.level := by
  cases e with
  | binary _ op => simp only [isLoose, level]; cases op <;> decide
  | assignment | conditional => simp [isLoose, level]
  | _ => simp [isLoose, level, operandLevel]

theorem precedence_coalesce : BinaryOp.coalesce.precedence = 1 := rfl

/-- Only `??` binds as little as it does. -/
theorem one_lt_precedence {op : BinaryOp} (h : op ≠ .coalesce) : 1 < op.precedence := by
  cases op <;> first | decide | exact absurd rfl h

theorem isLeftOf_iff {op : BinaryOp} {e : Expr} : e.IsLeftOf op ↔ op.precedence < e.reach := by
  cases e with
  | binary _ inner =>
    simp only [IsLeftOf, isLoose, binary?, reach, BinaryOp.rightPrecedence, Option.mem_some_iff,
      forall_eq', true_and]
    by_cases hop : op = .coalesce <;> by_cases hinner : inner = .coalesce
    · simp [hop, hinner]
    · have := one_lt_precedence hinner
      simp only [hop, hinner, if_true, if_false, ne_eq, not_false_eq_true, true_iff]
      exact Nat.lt_succ_of_lt this
    · have := one_lt_precedence hop
      simp only [hop, hinner, if_true, if_false, precedence_coalesce]
      omega
    · simp only [hop, hinner, if_false]
      exact Nat.lt_succ_iff.symm
  | assignment | conditional => simp [IsLeftOf, isLoose, reach]
  | _ => simp [IsLeftOf, isLoose, binary?, reach, op.precedence_lt_operandLevel]

theorem isRightOf_iff {op : BinaryOp} {e : Expr} : e.IsRightOf op ↔ op.rightPrecedence ≤ e.level := by
  cases e with
  | binary _ inner =>
    simp only [IsRightOf, isLoose, binary?, level, BinaryOp.rightPrecedence, Option.mem_some_iff,
      forall_eq', true_and]
    by_cases hop : op = .coalesce
    · have : 1 ≤ inner.precedence := by cases inner <;> decide
      simpa [hop, precedence_coalesce] using this
    · simp only [hop, if_false, false_or]
      exact Nat.lt_iff_add_one_le
  | assignment | conditional =>
    have := op.rightPrecedence_pos
    simp only [IsRightOf, isLoose, level, Bool.true_eq_false, false_and, false_iff]
    omega
  | _ => simp [IsRightOf, isLoose, binary?, level, op.rightPrecedence_le_operandLevel]

theorem isOperand_iff {e : Expr} (h : e.isOperation = true) :
    e.isOperand = true ↔ e.level = operandLevel := by
  cases e with
  | binary _ op =>
    have := op.precedence_lt_operandLevel
    simp only [isOperand, isPrimary, level, Bool.false_eq_true, false_iff]
    omega
  | assignment | conditional => simp [isOperand, isPrimary, level, operandLevel]
  | primitive | invocation | elementAccess | objectCreation | cast => simp [isOperation] at h
  | _ => simp [isOperand, isPrimary, level]

/-! ### Places make no difference -/

theorem level_congr {a b : Expr} (h : Bare.bare a = Bare.bare b) : a.level = b.level := by
  have level_bare (e : Expr) : e.bare.level = e.level := by cases e <;> rfl
  rw [← level_bare a, ← level_bare b]
  exact congrArg level h

theorem reach_congr {a b : Expr} (h : Bare.bare a = Bare.bare b) : a.reach = b.reach := by
  have reach_bare (e : Expr) : e.bare.reach = e.reach := by cases e <;> rfl
  rw [← reach_bare a, ← reach_bare b]
  exact congrArg reach h

theorem isPrimary_congr {a b : Expr} (h : Bare.bare a = Bare.bare b) : a.isPrimary = b.isPrimary := by
  have isPrimary_bare (e : Expr) : e.bare.isPrimary = e.isPrimary := by cases e <;> rfl
  rw [← isPrimary_bare a, ← isPrimary_bare b]
  exact congrArg isPrimary h

end Expr

/-! ### What the tokens of operators are -/

section Spelling

variable {α : Type} [DecidableEq α] {table : List (String × α)} {a : α}

theorem mem_spellingIn (h : table.any (·.2 = a) = true) : (spellingIn table a, a) ∈ table := by
  obtain ⟨p, hp⟩ := Option.isSome_iff_exists.1 (List.find?_isSome.2 (List.any_eq_true.1 h))
  have hvalue : p.2 = a := by simpa using List.find?_some hp
  have hspelling : spellingIn table a = p.1 := by simp [spellingIn, hp]
  rw [hspelling, ← hvalue]
  exact List.mem_of_find?_eq_some hp

theorem spellingIn_of_lookup (htable : ∀ p ∈ table, spellingIn table p.2 = p.1) {text : String}
    (h : table.lookup text = some a) : spellingIn table a = text := by
  obtain ⟨l, r, rfl, -⟩ := List.lookup_eq_some_iff.1 h
  exact htable (text, a) (by simp)

/-- A token that spells an operator is written as the table writes the operator. -/
theorem word_of_spelled? (table : List (String × α)) (htable : ∀ p ∈ table, spellingIn table p.2 = p.1) {t : Token}
    (h : spelled? (fun text => table.lookup text) t = some a) : t.word = .mark (spellingIn table a) := by
  have hspelling := spellingIn_of_lookup htable (ofSpelling?_of_spelled? h)
  simp [Token.word, Token.isIdentifier, Token.mark, bare, kind_of_spelled? h, hspelling]

end Spelling

theorem BinaryOp.mem_spellings (op : BinaryOp) : (op.spelling, op) ∈ spellings :=
  mem_spellingIn (by cases op <;> rfl)

theorem UnaryOp.mem_spellings (op : UnaryOp) : (op.spelling, op) ∈ spellings :=
  mem_spellingIn (by cases op <;> rfl)

theorem AssignOp.mem_spellings {op : AssignOp} (h : op.isWritten = true) : (op.spelling, op) ∈ spellings :=
  mem_spellingIn h

/-- The token of an operator between operands: it is read as that operator, and makes no cast of what
stands before it. -/
theorem BinaryOp.spec (op : BinaryOp) : binaryOp? (.mark op.spelling) = some op ∧
    followsCast (.mark op.spelling) = false ∧ (Token.mark op.spelling).StandsAlone := by
  have all : ∀ p ∈ spellings, binaryOp? (.mark p.1) = some p.2 ∧ followsCast (.mark p.1) = false ∧
      p.1 ∈ Token.operators := by decide
  obtain ⟨hop, hcast, hmem⟩ := all _ op.mem_spellings
  exact ⟨hop, hcast, Token.standsAlone_mark hmem⟩

theorem AssignOp.spec {op : AssignOp} (h : op.isWritten = true) :
    assignOp? (.mark op.spelling) = some op ∧ followsCast (.mark op.spelling) = false ∧
      (Token.mark op.spelling).StandsAlone := by
  have all : ∀ p ∈ spellings, assignOp? (.mark p.1) = some p.2 ∧ followsCast (.mark p.1) = false ∧
      p.1 ∈ Token.operators := by decide
  obtain ⟨hop, hcast, hmem⟩ := all _ (mem_spellings h)
  exact ⟨hop, hcast, Token.standsAlone_mark hmem⟩

theorem UnaryOp.spec (op : UnaryOp) :
    unaryOp? (.mark op.spelling) = some op ∧ (Token.mark op.spelling).StandsAlone := by
  have all : ∀ p ∈ spellings, unaryOp? (.mark p.1) = some p.2 ∧ p.1 ∈ Token.operators := by decide
  obtain ⟨hop, hmem⟩ := all _ op.mem_spellings
  exact ⟨hop, Token.standsAlone_mark hmem⟩

theorem atom?_literal {kind : LiteralKind} {text : String} (h : kind.fits text = true) :
    atom? (kind.token text) = some (.literal · kind text) := by
  cases kind with
  | string =>
    simp only [LiteralKind.fits, Bool.not_eq_true'] at h
    simp [atom?, LiteralKind.token, LiteralKind.tokenKind, h]
  | interpolatedString =>
    simp only [LiteralKind.fits] at h
    simp [atom?, LiteralKind.token, LiteralKind.tokenKind, h]
  | true | false | null =>
    obtain rfl := eq_of_beq h
    rfl
  | _ => rfl

/-! ### The type of a cast -/

/-- Whether the token is a word that names a type. -/
def Token.isTypeWord (t : Token) : Bool := t.kind == .keyword && (Primitive.ofWord? t.text).isSome

theorem isPrimitiveBased_of_typeSuffix {start : Nat} {type type' : TypeExpr} {s s' : Cursor}
    (h : typeSuffix start type s = .ok (some type', s')) :
    type'.isPrimitiveBased = type.isPrimitiveBased := by
  simp only [typeSuffix, bind_eq_ok] at h
  obtain ⟨c, -, h⟩ := h
  split at h
  · simp only [advance_bind, spanFrom_bind, pure_eq_ok, Prod.mk.injEq, Option.some.injEq] at h
    rw [h.1]
    rfl
  · obtain ⟨d, -, h⟩ := bind_eq_ok.1 h
    split at h
    · simp only [spanFrom_bind, pure_eq_ok, Prod.mk.injEq, Option.some.injEq] at h
      rw [h.1]
      rfl
    · simp at h

theorem isPrimitiveBased_of_steps {start : Nat} {type type' : TypeExpr} {s s' : Cursor}
    (h : Steps (typeSuffix start) type s type' s') :
    type'.isPrimitiveBased = type.isPrimitiveBased := by
  induction h with
  | refl => rfl
  | head hstep _ ih => rw [ih, isPrimitiveBased_of_typeSuffix hstep]

theorem isTypeWord_of_simpleType {type : TypeExpr} {s s' : Cursor}
    (h : simpleType s = .ok (type, s')) (hp : type.isPrimitiveBased = true) :
    s.first?.any Token.isTypeWord = true := by
  simp only [simpleType, ask_bind] at h
  cases ht : s.first? with
  | none => simp [ht] at h
  | some t =>
    simp only [ht] at h
    cases hk : t.kind with
    | keyword =>
      cases hw : Primitive.ofWord? t.text with
      | none => simp [hk, hw] at h
      | some _ => simp [Token.isTypeWord, hk, hw]
    | identifier =>
      simp only [hk, map_eq_ok, Prod.mk.injEq] at h
      obtain ⟨_, -, rfl, -⟩ := h
      simp [TypeExpr.isPrimitiveBased] at hp
    | _ => simp [hk] at h

/-- A type that is built from a type word begins with it. -/
theorem isTypeWord_of_type {type : TypeExpr} {s s' : Cursor} (h : Parser.type s = .ok (type, s'))
    (hp : type.isPrimitiveBased = true) : s.first?.any Token.isTypeWord = true := by
  simp only [Parser.type, offset_bind, bind_eq_ok (p := simpleType), Prod.exists] at h
  obtain ⟨simple, m, hsimple, h⟩ := h
  obtain ⟨_, _, -, -, h⟩ | ⟨-, h⟩ := ifAtPunct_eq_ok.1 h
  · simp at h
  · obtain ⟨m', hsteps, -⟩ := (grow_eq_ok (progresses_typeSuffix s.offset)).1 h
    exact isTypeWord_of_simpleType hsimple (isPrimitiveBased_of_steps hsteps ▸ hp)

/-- Tokens that do not begin with a type word are the type of a cast only before an operand. -/
theorem NotCast.of_head {w : List Token} {n : Option Token} (hne : w ≠ [])
    (hw : ∀ t ∈ w, t.isTypeWord = false) (hn : n.any followsCast = false) : NotCast w n := by
  rintro c type - ⟨s, s', htype, htook, -⟩
  refine ⟨Bool.eq_false_iff.2 fun hp => ?_, hn⟩
  obtain ⟨t, v, rfl⟩ := List.exists_cons_of_ne_nil hne
  have := isTypeWord_of_type htype hp
  simp [Cursor.first?, htook.rest, hw t] at this

/-! ### Well-formed expressions are spelled by the grammar -/

namespace Expr

/-- The tokens of an expression can be written apart, and none of them is a type word. -/
theorem words_spec {e : Expr} (h : e.HasTokens) :
    ∀ t ∈ e.words, t.StandsAlone ∧ t.isTypeWord = false := by
  have mark {text : String} (htext : text ∈ Token.operators) :
      (Token.mark text).StandsAlone ∧ (Token.mark text).isTypeWord = false :=
    ⟨Token.standsAlone_mark htext, rfl⟩
  induction e using induction_on_parts with
  | h e ih =>
    have htoken := (all_iff.1 h).1
    have part {c : Expr} (hc : c ∈ e.children) := ih c hc (h.child hc)
    cases e with
    | literal _ kind text =>
      refine List.forall_mem_singleton.2 ⟨htoken.2, ?_⟩
      obtain ⟨hfits, -⟩ := htoken
      cases kind with
      | true | false | null => obtain rfl := eq_of_beq hfits; rfl
      | _ => rfl
    | name _ word => exact List.forall_mem_singleton.2 ⟨Token.standsAlone_ofName htoken, rfl⟩
    | this => exact List.forall_mem_singleton.2 (by decide)
    | parenthesized _ inner =>
      simp only [words, List.forall_mem_cons, List.forall_mem_append]
      exact ⟨mark (by decide), part (by simp [children]), mark (by decide), by simp⟩
    | memberAccess _ receiver ident =>
      simp only [words, List.forall_mem_cons, List.forall_mem_append]
      exact ⟨part (by simp [children]), mark (by decide), ⟨Token.standsAlone_ofName htoken, rfl⟩, by simp⟩
    | step _ increment operand =>
      simp only [words, List.forall_mem_cons, List.forall_mem_append]
      exact ⟨part (by simp [children]), mark (by cases increment <;> decide), by simp⟩
    | unary _ op operand =>
      simp only [words, List.forall_mem_cons]
      exact ⟨⟨op.spec.2, rfl⟩, part (by simp [children])⟩
    | binary _ op left right =>
      simp only [words, List.forall_mem_cons, List.forall_mem_append]
      exact ⟨part (by simp [children]), ⟨op.spec.2.2, rfl⟩, part (by simp [children])⟩
    | conditional _ condition whenTrue whenFalse =>
      simp only [words, List.forall_mem_cons, List.forall_mem_append]
      exact ⟨part (by simp [children]), mark (by decide), part (by simp [children]), mark (by decide),
        part (by simp [children])⟩
    | assignment _ op target value =>
      simp only [words, List.forall_mem_cons, List.forall_mem_append]
      exact ⟨part (by simp [children]), ⟨(AssignOp.spec htoken).2.2, rfl⟩, part (by simp [children])⟩
    | primitive | invocation | elementAccess | objectCreation | cast => simp [words]

/-- The tokens of a well-formed expression are that expression, before any token that makes no cast of a
name in parentheses. -/
theorem exists_spelled {e : Expr} (ho : e.OfOperators) (ht : e.HasTokens) (hw : e.WellFormed)
    (n : Option Token) (hn : n.any followsCast = false) :
    ∃ e', Bare.bare e = Bare.bare e' ∧ Spelled (fun _ _ => True) e.words n (.expr e') := by
  induction e using induction_on_parts generalizing n with
  | h e ih =>
    have part (c : Expr) (hc : c ∈ e.children) (n : Option Token) (hn : n.any followsCast = false) :=
      ih c hc (ho.child hc) (ht.child hc) (hw.child hc) n hn
    have htoken := (all_iff.1 ht).1
    have hgroup := (all_iff.1 hw).1
    cases e with
    | literal node kind text =>
      exact ⟨.literal node kind text, rfl, Spelled.atom (atom?_literal htoken.1) trivial⟩
    | name node word =>
      have hatom : atom? (.ofName word) = some (.name · word) :=
        congrArg (fun word => some (Expr.name · word)) (Token.name_ofName htoken)
      exact ⟨.name node word, rfl, Spelled.atom hatom trivial⟩
    | this node =>
      have hatom : atom? ⟨0, .keyword, "this", 0⟩ = some .this := rfl
      exact ⟨.this node, rfl, Spelled.atom hatom trivial⟩
    | parenthesized node inner =>
      obtain ⟨inner', hb, hs⟩ := part inner (by simp [children]) (some (.mark ")")) rfl
      have hnot : NotCast inner.words n :=
        .of_head hs.ne_nil (fun t h => (words_spec (ht.child (by simp [children])) t h).2) hn
      exact ⟨.parenthesized node inner', congrArg (Expr.parenthesized _) hb, .paren rfl rfl hs hnot trivial⟩
    | memberAccess node receiver ident =>
      obtain ⟨receiver', hb, hs⟩ := part receiver (by simp [children]) (some (.mark ".")) rfl
      refine ⟨.memberAccess node receiver' ⟨(Token.ofName ident.name).name, (Token.ofName ident.name).span⟩,
        ?_, .member hs (isPrimary_congr hb ▸ hgroup) rfl rfl trivial⟩
      rw [Token.name_ofName htoken]
      exact congrArg (Expr.memberAccess _ · _) hb
    | step node increment operand =>
      obtain ⟨operand', hb, hs⟩ := part operand (by simp [children])
        (some (.mark (if increment then "++" else "--"))) (by cases increment <;> rfl)
      exact ⟨.step node increment operand', congrArg (Expr.step _ _) hb,
        .step hs (isPrimary_congr hb ▸ hgroup) (by cases increment <;> rfl) trivial⟩
    | unary node op operand =>
      obtain ⟨operand', hb, hs⟩ := part operand (by simp [children]) n hn
      have hlevel := (isOperand_iff (all_iff.1 (ho.child (c := operand) (by simp [children]))).1).1 hgroup
      exact ⟨.unary node op operand', congrArg (Expr.unary _ _) hb,
        .unary op.spec.1 hs (level_congr hb ▸ hlevel) trivial⟩
    | binary node op left right =>
      obtain ⟨left', hbl, hl⟩ := part left (by simp [children]) (some (.mark op.spelling)) op.spec.2.1
      obtain ⟨right', hbr, hr⟩ := part right (by simp [children]) n hn
      exact ⟨.binary node op left' right', congrArg₂ (Expr.binary _ _) hbl hbr,
        .binary op.spec.1 hl hr (reach_congr hbl ▸ isLeftOf_iff.1 hgroup.1)
          (level_congr hbr ▸ isRightOf_iff.1 hgroup.2) trivial⟩
    | conditional node condition whenTrue whenFalse =>
      obtain ⟨condition', hbc, hc⟩ := part condition (by simp [children]) (some (.mark "?")) rfl
      obtain ⟨whenTrue', hbt, ht⟩ := part whenTrue (by simp [children]) (some (.mark ":")) rfl
      obtain ⟨whenFalse', hbf, hf⟩ := part whenFalse (by simp [children]) n hn
      refine ⟨.conditional node condition' whenTrue' whenFalse', ?_,
        .conditional hc (level_congr hbc ▸ isLoose_iff.1 hgroup) rfl ht rfl hf trivial⟩
      simp only [bare_def, Expr.bare] at hbc hbt hbf ⊢
      rw [hbc, hbt, hbf]
    | assignment node op target value =>
      have hop := AssignOp.spec htoken
      obtain ⟨target', hbt, ht⟩ := part target (by simp [children]) (some (.mark op.spelling)) hop.2.1
      obtain ⟨value', hbv, hv⟩ := part value (by simp [children]) n hn
      exact ⟨.assignment node op target' value', congrArg₂ (Expr.assignment _ _) hbt hbv,
        .assignment hop.1 ht (level_congr hbt ▸ isLoose_iff.1 hgroup) hv trivial⟩
    | primitive | invocation | elementAccess | objectCreation | cast =>
      exact absurd (all_iff.1 ho).1 (by simp [isOperation])

end Expr

/-! ### What the grammar spells is well formed -/

theorem Token.word_eq_mark {t : Token} {c : String} (h : t.isPunct c = true) : t.word = .mark c := by
  have hkind := kind_of_isPunct h
  simp only [Token.isPunct, Bool.and_eq_true, beq_iff_eq] at h
  simp [word, isIdentifier, mark, bare, hkind, h.2]

theorem BinaryOp.word_of_binaryOp? {t : Token} {op : BinaryOp} (h : binaryOp? t = some op) :
    t.word = .mark op.spelling := word_of_spelled? spellings (by decide) h

theorem UnaryOp.word_of_unaryOp? {t : Token} {op : UnaryOp} (h : unaryOp? t = some op) :
    t.word = .mark op.spelling := word_of_spelled? spellings (by decide) h

theorem AssignOp.of_assignOp? {t : Token} {op : AssignOp} (h : assignOp? t = some op) :
    op.isWritten = true ∧ t.word = .mark op.spelling := by
  refine ⟨?_, word_of_spelled? spellings (by decide) h⟩
  obtain ⟨l, r, htable, -⟩ := List.lookup_eq_some_iff.1 (ofSpelling?_of_spelled? h)
  simp [isWritten, htable]

theorem Token.word_eq_ofName {t : Token} (h : t.isIdentifier = true) : t.word = .ofName t.name := by
  simp [word, h]

/-- An atom that is no type word is written as its token. -/
theorem atom_spec {t : Token} {make : Node → Expr} {node : Node} (h : atom? t = some make)
    (ho : (make node).isOperation = true) (halone : t.StandsAlone) :
    (make node).IsGrouped ∧ (make node).HasToken ∧ [t.word] = (make node).words := by
  have literal {kind : LiteralKind} (hk : t.kind = kind.tokenKind) (hfits : kind.fits t.text = true)
      (hi : kind.tokenKind ≠ .identifier) :
      (Expr.literal node kind t.text).IsGrouped ∧ (Expr.literal node kind t.text).HasToken ∧
        [t.word] = (Expr.literal node kind t.text).words := by
    refine ⟨trivial, ⟨hfits, ?_⟩, ?_⟩
    · rw [Token.StandsAlone, hk] at halone
      exact halone
    · have hne : t.isIdentifier = false := by simpa [Token.isIdentifier, hk] using hi
      simp [Token.word, hne, bare, Expr.words, LiteralKind.token, hk]
  unfold atom? at h
  split at h
  case h_1 | h_2 | h_3 =>
    cases h
    exact literal ‹_› rfl (by decide)
  case h_4 =>
    split at h
    · cases h
      exact literal ‹_› ‹_› (by decide)
    · cases h
      rename_i hfits
      exact literal ‹_› (by simp [LiteralKind.fits, Bool.eq_false_iff.2 hfits]) (by decide)
  case h_5 hk =>
    cases h
    have hi : t.isIdentifier = true := by simp [Token.isIdentifier, hk]
    exact ⟨trivial, halone.isName hi, by rw [Token.word_eq_ofName hi]; rfl⟩
  case h_6 hk =>
    split at h
    · cases h
      exact literal hk ‹_› (by decide)
    split at h
    · cases h
      exact literal hk ‹_› (by decide)
    split at h
    · cases h
      exact literal hk ‹_› (by decide)
    split at h
    · cases h
      rename_i htext
      simp only [beq_iff_eq] at htext
      exact ⟨trivial, trivial, by simp [Token.word, Token.isIdentifier, bare, Expr.words, hk, htext]⟩
    · obtain ⟨type, -, rfl⟩ := Option.map_eq_some_iff.1 h
      simp [Expr.isOperation] at ho
  case h_7 => cases h

/-- The tokens are those of the expression, which is well formed. -/
structure Expr.WrittenAs (e : Expr) (w : List Token) : Prop where
  wellFormed : e.WellFormed
  hasTokens : e.HasTokens
  words : w.map Token.word = e.words

theorem Expr.WrittenAs.of_parts {e : Expr} {w : List Token} (hgroup : e.IsGrouped) (htoken : e.HasToken)
    (hparts : ∀ c ∈ e.children, ∃ v, c.WrittenAs v) (hwords : w.map Token.word = e.words) :
    e.WrittenAs w where
  wellFormed := all_iff.2 ⟨hgroup, fun c hc => (hparts c hc).elim fun _ h => h.wellFormed⟩
  hasTokens := all_iff.2 ⟨htoken, fun c hc => (hparts c hc).elim fun _ h => h.hasTokens⟩
  words := hwords

/-- What the grammar spells with tokens that stand alone is written as these. -/
theorem Spelled.writtenAs {P : List Token → Node → Prop} {w : List Token} {n : Option Token}
    {ph : Phrase} (h : Spelled P w n ph) {e : Expr} (he : ph = .expr e) (ho : e.OfOperators)
    (hw : ∀ t ∈ w, t.StandsAlone) : e.WrittenAs w := by
  induction h generalizing e with
  | @atom t _ make node ht hp =>
    obtain rfl := Phrase.expr.inj he
    obtain ⟨hgroup, htoken, hword⟩ := atom_spec ht (Expr.all_iff.1 ho).1 (hw t (by simp))
    have hnone : (make node).children = [] := (isAtom_of_atom? ht).children node
    exact .of_parts hgroup htoken (by simp [hnone]) hword
  | paren hopen hclose _ _ _ ih =>
    obtain rfl := Phrase.expr.inj he
    have hin := ih rfl (ho.child (by simp [Expr.children])) fun t ht => hw t (by simp [ht])
    refine .of_parts trivial trivial (by simpa [Expr.children] using ⟨_, hin⟩) ?_
    simp [Expr.words, hin.words, Token.word_eq_mark hopen, Token.word_eq_mark hclose]
  | member _ hpr hd hi _ ih =>
    obtain rfl := Phrase.expr.inj he
    have hin := ih rfl (ho.child (by simp [Expr.children])) fun t ht => hw t (by simp [ht])
    refine .of_parts hpr ((hw _ (by simp)).isName hi) (by simpa [Expr.children] using ⟨_, hin⟩) ?_
    simp [Expr.words, hin.words, Token.word_eq_mark hd, Token.word_eq_ofName hi]
  | step _ hpr ht _ ih =>
    obtain rfl := Phrase.expr.inj he
    have hin := ih rfl (ho.child (by simp [Expr.children])) fun t ht => hw t (by simp [ht])
    refine .of_parts hpr trivial (by simpa [Expr.children] using ⟨_, hin⟩) ?_
    simp [Expr.words, hin.words, Token.word_eq_mark ht]
  | @unary _ _ _ _ operand _ ht _ hl _ ih =>
    obtain rfl := Phrase.expr.inj he
    have hoperand := ho.child (c := operand) (by simp [Expr.children])
    have hin := ih rfl hoperand fun t ht => hw t (by simp [ht])
    refine .of_parts ((Expr.isOperand_iff (Expr.all_iff.1 hoperand).1).2 hl) trivial
      (by simpa [Expr.children] using ⟨_, hin⟩) ?_
    simp [Expr.words, hin.words, UnaryOp.word_of_unaryOp? ht]
  | binary ht _ _ hll hrl _ ihl ihr =>
    obtain rfl := Phrase.expr.inj he
    have hl := ihl rfl (ho.child (by simp [Expr.children])) fun t ht => hw t (by simp [ht])
    have hr := ihr rfl (ho.child (by simp [Expr.children])) fun t ht => hw t (by simp [ht])
    refine .of_parts ⟨Expr.isLeftOf_iff.2 hll, Expr.isRightOf_iff.2 hrl⟩ trivial
      (by simpa [Expr.children] using ⟨⟨_, hl⟩, _, hr⟩) ?_
    simp [Expr.words, hl.words, hr.words, BinaryOp.word_of_binaryOp? ht]
  | conditional _ hl hq _ hc _ _ ih iha ihb =>
    obtain rfl := Phrase.expr.inj he
    have hin := ih rfl (ho.child (by simp [Expr.children])) fun t ht => hw t (by simp [ht])
    have hwhen := iha rfl (ho.child (by simp [Expr.children])) fun t ht => hw t (by simp [ht])
    have helse := ihb rfl (ho.child (by simp [Expr.children])) fun t ht => hw t (by simp [ht])
    refine .of_parts (Expr.isLoose_iff.2 hl) trivial
      (by simpa [Expr.children] using ⟨⟨_, hin⟩, ⟨_, hwhen⟩, _, helse⟩) ?_
    simp [Expr.words, hin.words, hwhen.words, helse.words, Token.word_eq_mark hq, Token.word_eq_mark hc]
  | assignment ht _ hl _ _ iht ihv =>
    obtain rfl := Phrase.expr.inj he
    have htarget := iht rfl (ho.child (by simp [Expr.children])) fun t ht => hw t (by simp [ht])
    have hvalue := ihv rfl (ho.child (by simp [Expr.children])) fun t ht => hw t (by simp [ht])
    obtain ⟨hwritten, hword⟩ := AssignOp.of_assignOp? ht
    refine .of_parts (Expr.isLoose_iff.2 hl) hwritten
      (by simpa [Expr.children] using ⟨⟨_, htarget⟩, _, hvalue⟩) ?_
    simp [Expr.words, htarget.words, hvalue.words, hword]
  | create | call | index | cast =>
    obtain rfl := Phrase.expr.inj he
    exact absurd (Expr.all_iff.1 ho).1 (by simp [Expr.isOperation])
  | noArgs | lastArg | moreArgs => cases he

/-! ### Reading a text -/

namespace Expr

theorem ofText_eq_ok {text : String} {e : Expr} : Expr.ofText text = .ok e ↔
    ∃ lexed s', Lexed.ofText text = .ok lexed ∧ (layered (lexed.tokens.length + 1)).expr
      (Cursor.ofTokens lexed.tokens text.utf8ByteSize) = .ok (e, s') := by
  simp only [Expr.ofText, Lexeme.exceptBind_eq_ok, runOn]
  constructor
  · rintro ⟨lexed, hlexed, h⟩
    cases hrun : (layered (lexed.tokens.length + 1)).expr
        (Cursor.ofTokens lexed.tokens text.utf8ByteSize) with
    | error e => simp [hrun] at h
    | ok r =>
      rw [hrun] at h
      obtain rfl := Except.ok.inj h
      exact ⟨lexed, r.2, hlexed, hrun⟩
  · rintro ⟨lexed, s', hlexed, hrun⟩
    exact ⟨lexed, hlexed, by rw [hrun]; rfl⟩

/-- A well-formed expression is read from its tokens. -/
theorem exists_ofText_spaced {e : Expr} (ho : e.OfOperators) (ht : e.HasTokens) (hw : e.WellFormed) :
    ∃ e', Expr.ofText (Token.spaced e.words) = .ok e' ∧ Bare.bare e' = Bare.bare e := by
  obtain ⟨lexed, hlexed, halike⟩ := Token.ofText_spaced fun t h => (words_spec ht t h).1
  obtain ⟨y, hb, hs⟩ := exists_spelled ho ht hw none rfl
  have hends : Ends none := ⟨⟨rfl, rfl, by simp⟩, rfl, rfl⟩
  have hlength : e.words.length ≤ lexed.tokens.length + 1 := by
    rw [halike.length_eq]
    exact Nat.le_succ _
  obtain ⟨z, s', hrun, -, hz⟩ := hs.complete hends hlength
    (Cursor.ofTokens lexed.tokens (Token.spaced e.words).utf8ByteSize) lexed.tokens []
    ⟨by simp [Cursor.ofTokens], halike, rfl⟩
  exact ⟨z, ofText_eq_ok.2 ⟨lexed, s', hlexed, hrun⟩, (hb.trans hz).symm⟩

/-- An expression that is read has the tokens that the text begins with. -/
theorem writtenAs_of_ofText {text : String} {e : Expr} (h : Expr.ofText text = .ok e)
    (ho : e.OfOperators) :
    ∃ lexed w, Lexed.ofText text = .ok lexed ∧ w <+: lexed.tokens ∧ e.WrittenAs w := by
  obtain ⟨lexed, s', hlexed, hrun⟩ := ofText_eq_ok.1 h
  obtain ⟨lexemes, hscans, rfl⟩ := Lexed.ofText_eq_ok.1 hlexed
  have hordered : Ordered (Lexed.tokensFrom 0 0 lexemes) := Lexed.ordered_tokensFrom hscans.text_ne_nil
  obtain ⟨-, w, hgot⟩ := (sound_layered _).expr _ _ _ hordered hrun
  have hrest : (Lexed.ofLexemes lexemes).tokens = w ++ s'.rest := hgot.took.rest
  have halone : ∀ t ∈ w, t.StandsAlone := fun t ht =>
    Token.standsAlone_of_ofText hlexed t (by simp [hrest, ht])
  exact ⟨_, w, hlexed, ⟨s'.rest, hrest.symm⟩, hgot.spelled.writtenAs rfl ho halone⟩

/-- Of the expressions that are made of literals, names, `this`, members, parentheses and operators, just
the well-formed ones are read: each of them is what its tokens with spaces between them are read as, but
for numbers and places, and each that is read from a text has the tokens that the text begins with. -/
theorem ofText_operators :
    (∀ e : Expr, e.OfOperators → e.HasTokens → e.WellFormed →
      ∃ e', Expr.ofText (Token.spaced e.words) = .ok e' ∧ Bare.bare e' = Bare.bare e) ∧
    ∀ (text : String) (e : Expr), Expr.ofText text = .ok e → e.OfOperators →
      e.WellFormed ∧ e.HasTokens ∧
        ∃ lexed, Lexed.ofText text = .ok lexed ∧ e.words <+: lexed.tokens.map Token.word := by
  refine ⟨fun e => exists_ofText_spaced, fun text e h ho => ?_⟩
  obtain ⟨lexed, w, hlexed, hw, hwritten⟩ := writtenAs_of_ofText h ho
  exact ⟨hwritten.wellFormed, hwritten.hasTokens, lexed, hlexed, hwritten.words ▸ hw.map _⟩

/-- The expression `a ??= ( b ) - - this - 1 ? c . @if ++ : d ?? e ?? f`. -/
def mixed : Expr :=
  let node : Node := ⟨0, Span.empty 0⟩
  let difference := Expr.binary node .sub (.binary node .sub (.parenthesized node (.name node "b"))
    (.unary node .minus (.this node))) (.literal node .integer "1")
  let stepped := Expr.step node true (.memberAccess node (.name node "c") ⟨"if", Span.empty 0⟩)
  let choice := Expr.binary node .coalesce (.name node "d")
    (.binary node .coalesce (.name node "e") (.name node "f"))
  .assignment node (.compound .coalesce) (.name node "a") (.conditional node difference stepped choice)

theorem ofText_operators_mixed :
    (∃ e', Expr.ofText (Token.spaced mixed.words) = .ok e' ∧ Bare.bare e' = Bare.bare mixed) ∧
    ∃ e, Expr.ofText "a-b*-c ?? d" = .ok e ∧ e.OfOperators ∧ e.WellFormed ∧ e.HasTokens ∧
      ∃ lexed, Lexed.ofText "a-b*-c ?? d" = .ok lexed ∧ e.words <+: lexed.tokens.map Token.word := by
  refine ⟨ofText_operators.1 mixed (by decide) (by decide +kernel) (by decide), ?_⟩
  have found : (Expr.ofText "a-b*-c ?? d").toOption.any (fun e => e.OfOperators) = true := by
    decide +kernel
  obtain ⟨e, he, ho⟩ := Option.any_eq_true _ _ |>.1 found
  have hread : Expr.ofText "a-b*-c ?? d" = .ok e := by
    cases h : Expr.ofText "a-b*-c ?? d" with
    | error e => simp [h, Except.toOption] at he
    | ok e' => simpa [h, Except.toOption] using he
  have hoperators : e.OfOperators := of_decide_eq_true ho
  exact ⟨e, hread, hoperators, ofText_operators.2 _ e hread hoperators⟩

end Expr

end CultureLint
