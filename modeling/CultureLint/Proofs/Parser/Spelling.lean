import CultureLint.Proofs.Parser.Headers

/-! The grammar of expressions, without a parser. `Spelled` says that some tokens, before a given next
one, are an expression with its operators grouped as their precedences ask. The next token decides two
questions only: whether a type in parentheses is a cast of what follows, and whether braces follow the
creation of an object. -/

namespace CultureLint

open CultureLint.Parser CultureLint.Grammar

/-! ### How tightly expressions hold together -/

/-- The level of an expression that stands before or behind any operator as it is. -/
def operandLevel : Nat := 12

namespace Expr

/-- The least precedence among the operators outside the parentheses of an expression. -/
def level : Expr → Nat
  | .binary _ op _ _ => op.precedence
  | .assignment .. | .conditional .. => 0
  | _ => operandLevel

/-- The precedence that an operator behind an expression must stay below to take all of it. -/
def reach : Expr → Nat
  | .binary _ op _ _ => op.rightPrecedence
  | .assignment .. | .conditional .. => 0
  | _ => operandLevel

theorem level_of_isPrimary {e : Expr} (h : e.isPrimary = true) : e.level = operandLevel := by
  cases e <;> simp_all [level, isPrimary]

theorem level_le_reach (e : Expr) : e.level ≤ e.reach := by
  cases e with
  | binary _ op _ _ =>
    simp only [level, reach]
    cases op <;> decide
  | _ => exact Nat.le_refl _

theorem reach_of_level {e : Expr} (h : e.level = operandLevel) : e.reach = operandLevel := by
  cases e with
  | binary _ op _ _ =>
    simp only [level] at h
    cases op <;> exact absurd h (by decide)
  | assignment | conditional => simp [level, operandLevel] at h
  | _ => rfl

/-- An operator that takes all of an expression on its left is no tighter than those inside. -/
theorem precedence_le_level {op : BinaryOp} {e : Expr} (h : op.precedence < e.reach) :
    op.precedence ≤ e.level := by
  cases e with
  | binary _ op' _ _ =>
    simp only [reach, level] at *
    revert h
    cases op <;> cases op' <;> decide
  | assignment => exact absurd h (Nat.not_lt_zero _)
  | conditional => exact absurd h (Nat.not_lt_zero _)
  | _ => exact Nat.le_of_lt h

end Expr

theorem BinaryOp.precedence_lt_operandLevel (op : BinaryOp) : op.precedence < operandLevel := by
  cases op <;> decide

theorem BinaryOp.rightPrecedence_le_operandLevel (op : BinaryOp) :
    op.rightPrecedence ≤ operandLevel := by
  cases op <;> decide

theorem Expr.level_le_operandLevel (e : Expr) : e.level ≤ operandLevel := by
  cases e with
  | binary _ op => exact Nat.le_of_lt op.precedence_lt_operandLevel
  | assignment | conditional => exact Nat.zero_le _
  | _ => exact Nat.le_refl _

theorem Expr.reach_le_operandLevel (e : Expr) : e.reach ≤ operandLevel := by
  cases e with
  | binary _ op => exact op.rightPrecedence_le_operandLevel
  | assignment | conditional => exact Nat.zero_le _
  | _ => exact Nat.le_refl _

theorem BinaryOp.rightPrecedence_pos (op : BinaryOp) : 0 < op.rightPrecedence := by
  cases op <;> decide

/-! ### Types inside expressions -/

/-- The tokens are a type where the given token comes behind them. -/
def TypeBefore (w : List Token) (c : Token) (type : TypeExpr) : Prop :=
  ∃ s s', Parser.type s = .ok (type, s') ∧ Took s w s' ∧ s'.rest.head? = some c

/-- The tokens between two parentheses are not the type of a cast of what begins with the next token. -/
def NotCast (w : List Token) (n : Option Token) : Prop :=
  ∀ c type, c.isPunct ")" = true → TypeBefore w c type →
    type.isPrimitiveBased = false ∧ n.any followsCast = false

/-! ### Arguments -/

/-- The words that say how an argument is passed. -/
def passingWords : List String := ["ref", "out", "in"]

/-- The marks before an argument: its name and a colon, and words that say how it is passed. -/
def ArgumentMarks (w : List Token) : Prop :=
  ∃ name words, w = name ++ words ∧ (∀ t ∈ words, passingWords.any t.isKeyword = true) ∧
    (name = [] ∨ ∃ i c, name = [i, c] ∧ i.isIdentifier = true ∧ c.isPunct ":" = true)

/-! ### Expressions -/

/-- What tokens inside an expression can be. -/
inductive Phrase
  | expr (e : Expr)
  | args (es : List Expr)

/-- The tokens, before the next one, are the phrase; each expression in it has its node at its tokens,
in the sense of `P`. -/
inductive Spelled (P : List Token → Node → Prop) : List Token → Option Token → Phrase → Prop
  | atom {t : Token} {n : Option Token} {make : Node → Expr} {node : Node}
      (ht : atom? t = some make) (hp : P [t] node) : Spelled P [t] n (.expr (make node))
  | paren {o c : Token} {w : List Token} {n : Option Token} {e : Expr} {node : Node}
      (ho : o.isPunct "(" = true) (hc : c.isPunct ")" = true) (he : Spelled P w (some c) (.expr e))
      (hn : NotCast w n) (hp : P (o :: (w ++ [c])) node) :
      Spelled P (o :: (w ++ [c])) n (.expr (.parenthesized node e))
  | create {k o c : Token} {wt w : List Token} {n : Option Token} {type : TypeExpr} {es : List Expr}
      {node : Node} (hk : k.isKeyword "new" = true) (ht : TypeBefore wt o type)
      (ho : o.isPunct "(" = true) (hc : c.isPunct ")" = true) (hes : Spelled P w (some c) (.args es))
      (hn : n.any (·.isPunct "\x7b") = false) (hp : P (k :: (wt ++ o :: (w ++ [c]))) node) :
      Spelled P (k :: (wt ++ o :: (w ++ [c]))) n (.expr (.objectCreation node type es))
  | member {d i : Token} {w : List Token} {n : Option Token} {e : Expr} {node : Node}
      (he : Spelled P w (some d) (.expr e)) (hpr : e.isPrimary = true) (hd : d.isPunct "." = true)
      (hi : i.isIdentifier = true) (hp : P (w ++ [d, i]) node) :
      Spelled P (w ++ [d, i]) n (.expr (.memberAccess node e ⟨i.name, i.span⟩))
  | call {o c : Token} {w wa : List Token} {n : Option Token} {e : Expr} {es : List Expr} {node : Node}
      (he : Spelled P w (some o) (.expr e)) (hpr : e.isPrimary = true) (ho : o.isPunct "(" = true)
      (hc : c.isPunct ")" = true) (hes : Spelled P wa (some c) (.args es))
      (hp : P (w ++ o :: (wa ++ [c])) node) :
      Spelled P (w ++ o :: (wa ++ [c])) n (.expr (.invocation node e es))
  | index {o c : Token} {w wa : List Token} {n : Option Token} {e : Expr} {es : List Expr}
      {node : Node} (he : Spelled P w (some o) (.expr e)) (hpr : e.isPrimary = true)
      (ho : o.isPunct "[" = true) (hc : c.isPunct "]" = true)
      (hes : Spelled P wa (some c) (.args es)) (hp : P (w ++ o :: (wa ++ [c])) node) :
      Spelled P (w ++ o :: (wa ++ [c])) n (.expr (.elementAccess node e es))
  | step {t : Token} {w : List Token} {n : Option Token} {increment : Bool} {e : Expr} {node : Node}
      (he : Spelled P w (some t) (.expr e)) (hpr : e.isPrimary = true)
      (ht : t.isPunct (if increment then "++" else "--") = true) (hp : P (w ++ [t]) node) :
      Spelled P (w ++ [t]) n (.expr (.step node increment e))
  | unary {t : Token} {w : List Token} {n : Option Token} {op : UnaryOp} {e : Expr} {node : Node}
      (ht : unaryOp? t = some op) (he : Spelled P w n (.expr e)) (hl : e.level = operandLevel)
      (hp : P (t :: w) node) : Spelled P (t :: w) n (.expr (.unary node op e))
  | cast {o c : Token} {wt w : List Token} {n : Option Token} {type : TypeExpr} {e : Expr} {node : Node}
      (ho : o.isPunct "(" = true) (ht : TypeBefore wt c type) (hc : c.isPunct ")" = true)
      (hf : type.isPrimitiveBased = true ∨ w.head?.any followsCast = true)
      (he : Spelled P w n (.expr e)) (hl : e.level = operandLevel)
      (hp : P (o :: (wt ++ c :: w)) node) :
      Spelled P (o :: (wt ++ c :: w)) n (.expr (.cast node type e))
  | binary {t : Token} {wl wr : List Token} {n : Option Token} {op : BinaryOp} {l r : Expr} {node : Node}
      (ht : binaryOp? t = some op) (hl : Spelled P wl (some t) (.expr l))
      (hr : Spelled P wr n (.expr r)) (hll : op.precedence < l.reach)
      (hrl : op.rightPrecedence ≤ r.level) (hp : P (wl ++ t :: wr) node) :
      Spelled P (wl ++ t :: wr) n (.expr (.binary node op l r))
  | conditional {q c : Token} {wc wt wf : List Token} {n : Option Token} {condition a b : Expr}
      {node : Node} (hcond : Spelled P wc (some q) (.expr condition)) (hl : 0 < condition.level)
      (hq : q.isPunct "?" = true) (ha : Spelled P wt (some c) (.expr a)) (hc : c.isPunct ":" = true)
      (hb : Spelled P wf n (.expr b)) (hp : P (wc ++ q :: (wt ++ c :: wf)) node) :
      Spelled P (wc ++ q :: (wt ++ c :: wf)) n (.expr (.conditional node condition a b))
  | assignment {t : Token} {wt wv : List Token} {n : Option Token} {op : AssignOp} {target value : Expr}
      {node : Node} (ht : assignOp? t = some op) (htarget : Spelled P wt (some t) (.expr target))
      (hl : 0 < target.level) (hv : Spelled P wv n (.expr value)) (hp : P (wt ++ t :: wv) node) :
      Spelled P (wt ++ t :: wv) n (.expr (.assignment node op target value))
  | noArgs {n : Option Token} : Spelled P [] n (.args [])
  | lastArg {m w : List Token} {n : Option Token} {e : Expr} (hm : ArgumentMarks m)
      (he : Spelled P w n (.expr e)) : Spelled P (m ++ w) n (.args [e])
  | moreArgs {c : Token} {m w wa : List Token} {n : Option Token} {e : Expr} {es : List Expr}
      (hm : ArgumentMarks m) (he : Spelled P w (some c) (.expr e)) (hc : c.isPunct "," = true)
      (hes : Spelled P wa n (.args es)) (hne : es ≠ []) :
      Spelled P (m ++ w ++ c :: wa) n (.args (e :: es))

/-! ### Words of operators -/

theorem kind_of_isPunct {t : Token} {c : String} (h : t.isPunct c = true) :
    t.kind = .punctuation := by
  simp only [Token.isPunct, Bool.and_eq_true, beq_iff_eq] at h
  exact h.1

theorem isPunct_unique {t : Token} {c d : String} (h : t.isPunct c = true) :
    t.isPunct d = (c == d) := by
  simp only [Token.isPunct, Bool.and_eq_true, beq_iff_eq] at h
  simp [Token.isPunct, h.1, h.2]

theorem atom?_of_isPunct {t : Token} {c : String} (h : t.isPunct c = true) : atom? t = none := by
  simp [atom?, kind_of_isPunct h]

section

variable {α : Type} {f : String → Option α} {t : Token} {a : α} {c : String}

theorem spelled?_of_isPunct (h : t.isPunct c = true) : spelled? f t = f c := by
  simp only [Token.isPunct, Bool.and_eq_true, beq_iff_eq] at h
  simp [spelled?, h.1, h.2]

theorem kind_of_spelled? (h : spelled? f t = some a) : t.kind = .punctuation := by
  unfold spelled? at h
  split at h
  · assumption
  · simp at h

theorem ofSpelling?_of_spelled? (h : spelled? f t = some a) : f t.text = some a := by
  rwa [spelled?, if_pos (kind_of_spelled? h)] at h

/-- What spells an operator is no other mark. -/
theorem isPunct_of_spelled? (h : spelled? f t = some a) (hc : f c = none) : t.isPunct c = false := by
  refine Bool.eq_false_iff.2 fun hp => ?_
  simp [spelled?_of_isPunct hp, hc] at h

end

/-! ### Parentheses -/

theorem isPunct_of_atom? {t : Token} {make : Node → Expr} (h : atom? t = some make) (c : String) :
    t.isPunct c = false := by
  refine Bool.eq_false_iff.2 fun hc => ?_
  simp [atom?_of_isPunct hc] at h

theorem isPunct_of_isKeyword {t : Token} {k c : String} (h : t.isKeyword k = true) :
    t.isPunct c = false := by
  simp only [Token.isKeyword, Bool.and_eq_true, beq_iff_eq] at h
  simp [Token.isPunct, h.1]

theorem isPunct_of_isIdentifier {t : Token} {c : String} (h : t.isIdentifier = true) :
    t.isPunct c = false := by
  simp only [Token.isIdentifier, beq_iff_eq] at h
  simp [Token.isPunct, h]

/-- A mark that is none of those of types stands in no type. -/
theorem inType_eq_false {t : Token} (hk : t.kind = .punctuation)
    (ht : ∀ c ∈ typeMarks, t.isPunct c = false) : inType t = false := by
  simp only [inType, Token.isIdentifier, hk, Bool.or_eq_false_iff, List.any_eq_false]
  exact ⟨⟨rfl, rfl⟩, fun c hc => by simp [ht c hc]⟩

theorem inType_of_not_mark {t : Token} {c : String} (h : t.isPunct c = true) (hc : c ∉ typeMarks) :
    inType t = false := by
  refine inType_eq_false (kind_of_isPunct h) fun d hd => (isPunct_unique h).trans ?_
  simp only [beq_eq_false_iff_ne]
  rintro rfl
  exact hc hd

theorem inType_of_spelled? {α : Type} {f : String → Option α} {t : Token} {a : α}
    (h : spelled? f t = some a) (hf : ∀ c ∈ typeMarks, f c = none) : inType t = false :=
  inType_eq_false (kind_of_spelled? h) fun c hc => isPunct_of_spelled? h (hf c hc)

/-- What there is to know about atoms: they hold only a word and the node they are given. -/
structure IsAtom (make : Node → Expr) : Prop where
  isPrimary : ∀ node, (make node).isPrimary = true
  node : ∀ node, (make node).node = node
  children : ∀ node, (make node).children = []
  bare : ∀ node node', bare (make node) = bare (make node')

theorem isAtom_of_atom? {t : Token} {make : Node → Expr} (h : atom? t = some make) : IsAtom make := by
  have literal (kind : LiteralKind) (text : String) : IsAtom (.literal · kind text) :=
    ⟨fun _ => rfl, fun _ => rfl, fun _ => rfl, fun _ _ => rfl⟩
  unfold atom? at h
  split at h
  case h_4 => split at h <;> cases h <;> exact literal _ _
  case h_6 =>
    repeat' split at h
    · cases h; exact literal _ _
    · cases h; exact literal _ _
    · cases h; exact literal _ _
    · cases h; exact ⟨fun _ => rfl, fun _ => rfl, fun _ => rfl, fun _ _ => rfl⟩
    · obtain ⟨type, -, rfl⟩ := Option.map_eq_some_iff.1 h
      exact ⟨fun _ => rfl, fun _ => rfl, fun _ => rfl, fun _ _ => rfl⟩
  all_goals cases h
  all_goals exact ⟨fun _ => rfl, fun _ => rfl, fun _ => rfl, fun _ _ => rfl⟩

/-- How many parentheses are open behind some tokens, if none closes that was not open. -/
def openAfter : Nat → List Token → Option Nat
  | depth, [] => some depth
  | depth, t :: w =>
    if t.isPunct "(" then openAfter (depth + 1) w
    else if t.isPunct ")" then
      match depth with
      | 0 => none
      | depth + 1 => openAfter depth w
    else openAfter depth w

theorem openAfter_append (depth : Nat) (w v : List Token) :
    openAfter depth (w ++ v) = (openAfter depth w).bind (openAfter · v) := by
  induction w generalizing depth with
  | nil => rfl
  | cons t w ih =>
    simp only [List.cons_append, openAfter]
    split
    · exact ih _
    · split
      · cases depth with
        | zero => rfl
        | succ depth => exact ih _
      · exact ih _

/-- Every parenthesis that opens in the tokens closes in them, and the other way round. -/
def Balanced (w : List Token) : Prop := ∀ depth, openAfter depth w = some depth

theorem Balanced.nil : Balanced [] := fun _ => rfl

theorem Balanced.append {w v : List Token} (hw : Balanced w) (hv : Balanced v) :
    Balanced (w ++ v) := fun depth => by simp [openAfter_append, hw depth, hv depth]

theorem Balanced.of_forall {w : List Token}
    (h : ∀ t ∈ w, t.isPunct "(" = false ∧ t.isPunct ")" = false) : Balanced w := by
  intro depth
  induction w with
  | nil => rfl
  | cons t w ih =>
    have ht := h t (List.mem_cons_self ..)
    simp only [openAfter, ht.1, ht.2, Bool.false_eq_true, if_false]
    exact ih fun u hu => h u (List.mem_cons_of_mem _ hu)

theorem Balanced.cons {t : Token} {w : List Token} (ho : t.isPunct "(" = false)
    (hc : t.isPunct ")" = false) (hw : Balanced w) : Balanced (t :: w) :=
  append (of_forall (w := [t]) (by simp [ho, hc])) hw

theorem Balanced.group {o c : Token} {w : List Token} (ho : o.isPunct "(" = true)
    (hc : c.isPunct ")" = true) (hw : Balanced w) : Balanced (o :: (w ++ [c])) := by
  intro depth
  have hco : c.isPunct "(" = false := isPunct_unique hc
  simp [openAfter, ho, openAfter_append, hw (depth + 1), hc, hco]

/-- The closing parenthesis of a group is the first one that closes more than was opened. -/
theorem Balanced.eq_of_append {w u r r' : List Token} {c c' : Token} (hw : Balanced w)
    (hu : Balanced u) (hc : c.isPunct ")" = true) (hc' : c'.isPunct ")" = true)
    (h : w ++ c :: r = u ++ c' :: r') : w = u := by
  have close {d : Token} (hd : d.isPunct ")" = true) (v : List Token) :
      openAfter 0 (d :: v) = none := by
    have hdo : d.isPunct "(" = false := isPunct_unique hd
    simp [openAfter, hd, hdo]
  obtain ⟨a, ha, ha'⟩ | ⟨a, ha, ha'⟩ := List.append_eq_append_iff.1 h
  · cases a with
    | nil => simpa using ha.symm
    | cons b a =>
      simp only [List.cons_append, List.cons.injEq] at ha'
      have := hu 0
      rw [ha, openAfter_append, hw 0, Option.bind_some, ← ha'.1, close hc] at this
      simp at this
  · cases a with
    | nil => simpa using ha
    | cons b a =>
      simp only [List.cons_append, List.cons.injEq] at ha'
      have := hw 0
      rw [ha, openAfter_append, hu 0, Option.bind_some, ← ha'.1, close hc'] at this
      simp at this

theorem bare_eq_of_isPunct {a b : Token} {c : String} (ha : a.isPunct c = true)
    (hb : b.isPunct c = true) : bare a = bare b := by
  simp only [Token.isPunct, Bool.and_eq_true, beq_iff_eq] at ha hb
  simp [bare, ha, hb]

theorem isPlain_of_isPunct {t : Token} {c : String} (h : t.isPunct c = true)
    (hc : c ∉ [".", "?", "[", "partial", "async"]) : t.isPlain = true := by
  have hn (d : String) : t.isPunct d = (c == d) := isPunct_unique h
  simp only [Token.isPunct, Bool.and_eq_true, beq_iff_eq] at h
  simp only [List.mem_cons, List.not_mem_nil, or_false, not_or] at hc
  simp [Token.isPlain_iff, hn, hc, Token.isIdentifier, h, contextualModifiers]

theorem isPlain_of_isKeyword {t : Token} {c : String} (h : t.isKeyword c = true)
    (hc : c ∉ contextualModifiers) : t.isPlain = true := by
  simp only [Token.isKeyword, Bool.and_eq_true, beq_iff_eq] at h
  simp [Token.isPlain_iff, Token.isIdentifier, Token.isPunct, h, hc]

theorem readCastType_eq_some {s s' : Cursor} {type : TypeExpr} :
    readCastType s = .ok (some type, s') ↔ ∃ o m c r, s.rest = o :: s.advance.rest ∧
      o.isPunct "(" = true ∧ Parser.type s.advance = .ok (type, m) ∧ m.rest = c :: r ∧
        c.isPunct ")" = true ∧ s' = m.advance ∧
          (type.isPrimitiveBased = true ∨ r.head?.any followsCast = true) := by
  simp only [readCastType, bind_eq_ok, expectPunct_eq_ok, at?_eq_ok, exists_eq_left, Prod.exists,
    Prod.mk.injEq, first?_any]
  constructor
  · rintro ⟨_, _, ⟨⟨o, r, hr, ho⟩, -, rfl⟩, type', m, hm, _, _, ⟨⟨c, r', hr', hc⟩, -, rfl⟩, h⟩
    split at h
    · rename_i hf
      simp only [pure_eq_ok, Prod.mk.injEq, Option.some.injEq] at h
      obtain ⟨rfl, rfl⟩ := h
      refine ⟨o, m, c, r', by simp [hr], ho, hm, hr', hc, rfl, ?_⟩
      simpa [Cursor.first?, hr'] using hf
    · simp at h
  · rintro ⟨o, m, c, r, hr, ho, hm, hr', hc, rfl, hf⟩
    refine ⟨(), _, ⟨⟨o, _, hr, ho⟩, trivial, rfl⟩, type, m, hm, (), _, ⟨⟨c, r, hr', hc⟩, trivial, rfl⟩, ?_⟩
    rw [if_pos (by simpa [Cursor.first?, hr'] using hf)]
    simp

/-- The type is read wherever its words stand before such a token. -/
theorem TypeBefore.run {w : List Token} {c : Token} {type : TypeExpr} (h : TypeBefore w c type)
    (hc : c.isPlain = true) {t : Cursor} {v r : List Token} {c' : Token} (hr : t.rest = v ++ c' :: r)
    (hv : Alike w v) (hc' : bare c = bare c') :
    ∃ type' t', Parser.type t = .ok (type', t') ∧ t'.rest = c' :: r ∧ bare type = bare type' := by
  obtain ⟨s, s', hs, hw, hn⟩ := h
  obtain ⟨u, hu, hrun⟩ := Steady.type s type s' hs
  obtain ⟨q, hq⟩ := List.head?_eq_some_iff.1 hn
  exact hrun t v (c' :: r) hr (hu.unique hw ▸ hv) (hq ▸ .plain hc' hc)

theorem TypeBefore.inType {w : List Token} {c : Token} {type : TypeExpr} (h : TypeBefore w c type) :
    ∀ t ∈ w, inType t = true := by
  obtain ⟨s, s', hs, hw, -⟩ := h
  obtain ⟨v, hv, hf⟩ := takes_type s type s' hs
  exact hw.unique hv ▸ hf

theorem TypeBefore.balanced {w : List Token} {c : Token} {type : TypeExpr}
    (h : TypeBefore w c type) : Balanced w := by
  refine .of_forall fun t ht => ?_
  have hin := h.inType t ht
  constructor <;> refine Bool.eq_false_iff.2 fun hc => ?_
  all_goals simp [inType_of_not_mark hc (by decide)] at hin

theorem ArgumentMarks.balanced {w : List Token} (h : ArgumentMarks w) : Balanced w := by
  obtain ⟨name, words, rfl, hw, hn⟩ := h
  refine .append ?_ (.of_forall fun t ht => ?_)
  · obtain rfl | ⟨i, c, rfl, hi, hc⟩ := hn
    · exact .nil
    · refine .of_forall ?_
      simp [isPunct_of_isIdentifier hi, isPunct_unique hc]
  · obtain ⟨k, -, hk⟩ := List.any_eq_true.1 (hw t ht)
    exact ⟨isPunct_of_isKeyword hk, isPunct_of_isKeyword hk⟩

namespace Spelled

variable {P Q : List Token → Node → Prop} {w : List Token} {n : Option Token} {e : Expr}

/-! ### The beginning of an expression -/

/-- Whether an expression can begin with the token. -/
def opens (t : Token) : Bool :=
  (atom? t).isSome || t.isPunct "(" || t.isKeyword "new" || (unaryOp? t).isSome

theorem isPunct_of_opens {t : Token} {c : String} (h : opens t = true)
    (hc : opens ⟨0, .punctuation, c, 0⟩ = false) : t.isPunct c = false := by
  refine Bool.eq_false_iff.2 fun hp => ?_
  simp only [Token.isPunct, Bool.and_eq_true, beq_iff_eq] at hp
  have : opens (bare t) = opens t := rfl
  simp [bare, hp, hc, h] at this

theorem isKeyword_of_opens {t : Token} {c : String} (h : opens t = true)
    (hc : opens ⟨0, .keyword, c, 0⟩ = false) : t.isKeyword c = false := by
  refine Bool.eq_false_iff.2 fun hp => ?_
  simp only [Token.isKeyword, Bool.and_eq_true, beq_iff_eq] at hp
  have : opens (bare t) = opens t := rfl
  simp [bare, hp, hc, h] at this

theorem head {ph : Phrase} (h : Spelled P w n ph) (he : ph = .expr e) :
    ∃ t v, w = t :: v ∧ opens t = true := by
  induction h generalizing e with
  | atom ht => exact ⟨_, _, rfl, by simp [opens, ht]⟩
  | paren ho => exact ⟨_, _, rfl, by simp [opens, ho]⟩
  | create hk => exact ⟨_, _, rfl, by simp [opens, hk]⟩
  | unary ht => exact ⟨_, _, rfl, by simp [opens, ht]⟩
  | cast ho => exact ⟨_, _, rfl, by simp [opens, ho]⟩
  | member _ _ _ _ _ ih | call _ _ _ _ _ _ ih | index _ _ _ _ _ _ ih | step _ _ _ _ ih
  | binary _ _ _ _ _ _ ih | conditional _ _ _ _ _ _ _ ih | assignment _ _ _ _ _ ih =>
    obtain ⟨t, v, rfl, ht⟩ := ih rfl
    exact ⟨t, _, List.cons_append, ht⟩
  | noArgs | lastArg | moreArgs => simp at he

theorem ne_nil (h : Spelled P w n (.expr e)) : w ≠ [] := by
  obtain ⟨t, v, rfl, -⟩ := h.head rfl
  simp

/-- The tokens do not begin as an argument with a name does. -/
def Unnamed (w : List Token) : Prop :=
  ∀ i c v, w = i :: c :: v → i.isIdentifier = true → c.isPunct ":" = false

theorem Unnamed.cons {t : Token} (ht : t.isIdentifier = false) (v : List Token) :
    Unnamed (t :: v) := by
  rintro i c v h hi
  simp only [List.cons.injEq] at h
  simp [← h.1, ht] at hi

theorem Unnamed.append {w : List Token} {t : Token} (h : Unnamed w) (hw : w ≠ [])
    (ht : t.isPunct ":" = false) (v : List Token) : Unnamed (w ++ t :: v) := by
  rintro i c u hu hi
  match w, hw with
  | [a], _ =>
    simp only [List.cons_append, List.nil_append, List.cons.injEq] at hu
    exact hu.2.1 ▸ ht
  | a :: b :: w, _ =>
    simp only [List.cons_append, List.cons.injEq] at hu
    exact h i c w (by rw [hu.1, hu.2.1]) hi

theorem isIdentifier_of_kind {t : Token} (h : t.kind = .punctuation) : t.isIdentifier = false := by
  simp [Token.isIdentifier, h]

theorem isIdentifier_of_isKeyword {t : Token} {c : String} (h : t.isKeyword c = true) :
    t.isIdentifier = false := by
  simp only [Token.isKeyword, Bool.and_eq_true, beq_iff_eq] at h
  simp [Token.isIdentifier, h.1]

theorem unnamed {ph : Phrase} (h : Spelled P w n ph) (he : ph = .expr e) : Unnamed w := by
  induction h generalizing e with
  | atom => rintro i c v h; simp at h
  | paren ho | cast ho => exact .cons (isIdentifier_of_kind (kind_of_isPunct ho)) _
  | unary ht => exact .cons (isIdentifier_of_kind (kind_of_spelled? ht)) _
  | create hk => exact .cons (isIdentifier_of_isKeyword hk) _
  | member hr _ ht _ _ ih | call hr _ ht _ _ _ ih | index hr _ ht _ _ _ ih =>
    exact (ih rfl).append hr.ne_nil (isPunct_unique ht) _
  | step hr _ ht _ ih =>
    refine (ih rfl).append hr.ne_nil ((isPunct_unique ht).trans ?_) _
    split <;> rfl
  | conditional hr _ hq _ _ _ _ ih => exact (ih rfl).append hr.ne_nil (isPunct_unique hq) _
  | binary ht hr _ _ _ _ ih | assignment ht hr _ _ _ ih =>
    exact (ih rfl).append hr.ne_nil (isPunct_of_spelled? ht rfl) _
  | noArgs | lastArg | moreArgs => simp at he

/-- The node of an expression is at the tokens of the expression. -/
theorem node (h : Spelled P w n (.expr e)) : P w e.node := by
  cases h with
  | atom ht hp => rwa [(isAtom_of_atom? ht).node]
  | _ => assumption

/-! ### What holds all through an expression -/

/-- What places are asked of the nodes does not matter for the words. -/
theorem mono {ph : Phrase} (hPQ : ∀ w node, P w node → Q w node) (h : Spelled P w n ph) :
    Spelled Q w n ph := by
  induction h with
  | atom ht hp => exact .atom ht (hPQ _ _ hp)
  | paren ho hc _ hn hp ih => exact .paren ho hc ih hn (hPQ _ _ hp)
  | create hk ht ho hc _ hn hp ih => exact .create hk ht ho hc ih hn (hPQ _ _ hp)
  | member _ hpr hd hi hp ih => exact .member ih hpr hd hi (hPQ _ _ hp)
  | call _ hpr ho hc _ hp ih iha => exact .call ih hpr ho hc iha (hPQ _ _ hp)
  | index _ hpr ho hc _ hp ih iha => exact .index ih hpr ho hc iha (hPQ _ _ hp)
  | step _ hpr ht hp ih => exact .step ih hpr ht (hPQ _ _ hp)
  | unary ht _ hl hp ih => exact .unary ht ih hl (hPQ _ _ hp)
  | cast ho ht hc hf _ hl hp ih => exact .cast ho ht hc hf ih hl (hPQ _ _ hp)
  | binary ht _ _ hll hrl hp ihl ihr => exact .binary ht ihl ihr hll hrl (hPQ _ _ hp)
  | conditional _ hl hq _ hc _ hp ih iha ihb => exact .conditional ih hl hq iha hc ihb (hPQ _ _ hp)
  | assignment ht _ hl _ hp iht ihv => exact .assignment ht iht hl ihv (hPQ _ _ hp)
  | noArgs => exact .noArgs
  | lastArg hm _ ih => exact .lastArg hm ih
  | moreArgs hm _ hc _ hne ih iha => exact .moreArgs hm ih hc iha hne

/-- Any token may come next that neither makes a cast of a name in parentheses nor opens braces. -/
theorem next {ph : Phrase} (h : Spelled P w n ph) {n' : Option Token}
    (hf : n'.any followsCast = false) (hb : n'.any (·.isPunct "\x7b") = false) :
    Spelled P w n' ph := by
  induction h with
  | atom ht hp => exact .atom ht hp
  | paren ho hc he hn hp => exact .paren ho hc he (fun c type hc ht => ⟨(hn c type hc ht).1, hf⟩) hp
  | create hk ht ho hc hes _ hp => exact .create hk ht ho hc hes hb hp
  | member he hpr hd hi hp => exact .member he hpr hd hi hp
  | call he hpr ho hc hes hp => exact .call he hpr ho hc hes hp
  | index he hpr ho hc hes hp => exact .index he hpr ho hc hes hp
  | step he hpr ht hp => exact .step he hpr ht hp
  | unary ht _ hl hp ih => exact .unary ht ih hl hp
  | cast ho ht hc hfc _ hl hp ih => exact .cast ho ht hc hfc ih hl hp
  | binary ht hl _ hll hrl hp _ ihr => exact .binary ht hl ihr hll hrl hp
  | conditional hcond hl hq ha hc _ hp _ _ ihb =>
    exact .conditional hcond hl hq ha hc ihb hp
  | assignment ht htarget hl _ hp _ ihv => exact .assignment ht htarget hl ihv hp
  | noArgs => exact .noArgs
  | lastArg hm _ ih => exact .lastArg hm ih
  | moreArgs hm he hc _ hne _ iha => exact .moreArgs hm he hc iha hne

theorem balanced {ph : Phrase} (h : Spelled P w n ph) : Balanced w := by
  have mark {t : Token} {c : String} (ht : t.isPunct c = true) (hc : c ≠ "(" ∧ c ≠ ")")
      {v : List Token} (hv : Balanced v) : Balanced (t :: v) :=
    .cons ((isPunct_unique ht).trans (by simp [hc.1])) ((isPunct_unique ht).trans (by simp [hc.2])) hv
  induction h with
  | atom ht => exact .of_forall (by simp [isPunct_of_atom? ht])
  | paren ho hc _ _ _ ih => exact .group ho hc ih
  | create hk ht ho hc _ _ _ ih =>
    exact .cons (isPunct_of_isKeyword hk) (isPunct_of_isKeyword hk) (ht.balanced.append (.group ho hc ih))
  | member _ _ hd hi _ ih =>
    refine ih.append (mark hd (by decide) (.of_forall ?_))
    simp [isPunct_of_isIdentifier hi]
  | call _ _ ho hc _ _ ih iha => exact ih.append (.group ho hc iha)
  | index _ _ ho hc _ _ ih iha =>
    exact ih.append (mark ho (by decide) (iha.append (mark hc (by decide) .nil)))
  | @step _ _ _ increment _ _ _ _ ht _ ih =>
    exact ih.append (mark ht (by cases increment <;> decide) .nil)
  | unary ht _ _ _ ih => exact .cons (isPunct_of_spelled? ht rfl) (isPunct_of_spelled? ht rfl) ih
  | @cast o c wt w _ _ _ _ ho ht hc _ _ _ _ ih =>
    have := (Balanced.group ho hc ht.balanced).append ih
    simpa using this
  | binary ht _ _ _ _ _ ihl ihr | assignment ht _ _ _ _ ihl ihr =>
    exact ihl.append (.cons (isPunct_of_spelled? ht rfl) (isPunct_of_spelled? ht rfl) ihr)
  | conditional _ _ hq _ hc _ _ ih iha ihb =>
    exact ih.append (mark hq (by decide) (iha.append (mark hc (by decide) ihb)))
  | noArgs => exact .nil
  | lastArg hm _ ih => exact hm.balanced.append ih
  | moreArgs hm _ hc _ _ ih iha => exact (hm.balanced.append ih).append (mark hc (by decide) iha)

/-- Tokens of a type that are an expression need no parentheses before a point. -/
theorem isPrimary_of_inType (h : Spelled P w n (.expr e)) (hw : ∀ t ∈ w, inType t = true) :
    e.isPrimary = true := by
  have out {p : Prop} {t : Token} (hn : inType t = false) (ht : t ∈ w) : p := by
    simp [hw t ht] at hn
  cases h with
  | atom ht => exact (isAtom_of_atom? ht).isPrimary _
  | paren | create | member | call | index | step => rfl
  | unary ht => exact out (inType_of_spelled? ht (by decide)) (by simp)
  | cast ho => exact out (inType_of_not_mark ho (by decide)) (by simp)
  | binary ht => exact out (inType_of_spelled? ht (by decide)) (by simp)
  | conditional _ _ _ _ hc => exact out (inType_of_not_mark hc (by decide)) (by simp)
  | assignment ht => exact out (inType_of_spelled? ht (by decide)) (by simp)

end Spelled

end CultureLint
