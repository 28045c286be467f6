import CultureLint.Proofs.Parser.Forward

/-! The loops of the parser. Each of them is bounded by the number of tokens left, but ends before its bound is
used up: whatever a loop would do beyond the bound, it does not come to it, since every round takes a token. -/

namespace CultureLint

open CultureLint.Parser

namespace Parser

variable {α : Type}

/-- A repetition that goes on in any way when its bound is used up. -/
def manyPast (past : Parser (List α)) (p : Parser (Option α)) : Nat → Parser (List α)
  | 0 => past
  | bound + 1 => do
    match ← p with
    | none => return []
    | some a => return a :: (← manyPast past p bound)

/-- The growth of a value that goes on in any way when its bound is used up. -/
def growPast (past : α → Parser α) (step : α → Parser (Option α)) : Nat → α → Parser α
  | 0, a => past a
  | bound + 1, a => do
    match ← step a with
    | none => return a
    | some a => growPast past step bound a

/-- With more rounds than tokens left, a repetition of the parser ends by itself. -/
def Ends (p : Parser (Option α)) : Prop :=
  ∀ past bound s, s.rest.length < bound → manyPast past p bound s = many p s

/-- With more rounds than tokens left, the growth of a value ends by itself. -/
def GrowthEnds (step : α → Parser (Option α)) : Prop :=
  ∀ past bound a s, s.rest.length < bound → growPast past step bound a s = grow step a s

theorem Progresses.ends {p : Parser (Option α)} (hp : Progresses p) : Ends p := by
  intro past bound s hs
  -- the bounds of the two sides differ, and both are large enough
  have upTo (limit : Nat) (hl : s.rest.length < limit) : manyPast past p bound s = manyUpTo p limit s := by
    induction bound generalizing s limit with
    | zero => omega
    | succ bound ih =>
      cases limit with
      | zero => omega
      | succ limit =>
      change Except.bind (p s) _ = Except.bind (p s) _
      cases hr : p s with
      | error e => rfl
      | ok r =>
        obtain ⟨a, m⟩ := r
        cases a with
        | none => rfl
        | some a =>
          have := hp s a m hr
          change Except.bind (manyPast past p bound m) _ = Except.bind (manyUpTo p limit m) _
          rw [ih m (by omega) limit (by omega)]
  exact upTo _ (Nat.lt_succ_self _)

theorem growthEnds {step : α → Parser (Option α)} (hp : ∀ a, Progresses (step a)) : GrowthEnds step := by
  intro past bound a s hs
  have upTo (limit : Nat) (hl : s.rest.length < limit) :
      growPast past step bound a s = growUpTo step limit a s := by
    induction bound generalizing a s limit with
    | zero => omega
    | succ bound ih =>
      cases limit with
      | zero => omega
      | succ limit =>
      change Except.bind (step a s) _ = Except.bind (step a s) _
      cases hr : step a s with
      | error e => rfl
      | ok r =>
        obtain ⟨b, m⟩ := r
        cases b with
        | none => rfl
        | some b =>
          have := hp a s b m hr
          exact ih b m (by omega) limit (by omega)
  exact upTo _ (Nat.lt_succ_self _)

end Parser

namespace Grammar

/-- Every loop of the parser ends by itself. -/
structure LoopsEnd (g : Grammar) : Prop where
  nameParts : Ends namePart?
  suffixes : ∀ start, GrowthEnds (typeSuffix start)
  passing : ∀ words, Ends (passing? words)
  usings : Ends using?
  attributeLists : Ends attributeList?
  attributesOfList : Ends (afterComma oneAttribute)
  modifiers : Ends modifier?
  bases : Ends (afterComma Parser.type)
  arguments : Ends (afterComma g.argument)
  attachments : ∀ start, GrowthEnds (g.attachment start)
  links : ∀ least, GrowthEnds (g.link least)
  declarators : Ends (afterComma (expectIdent >>= fun name => g.declarator name))
  statements : Ends g.stmt?
  iterators : Ends g.iterator?
  parameters : Ends (afterComma g.parameter)
  accessors : Ends g.accessor?
  members : ∀ typeName, Ends (g.member? typeName)
  namespaceMembers : ∀ depth, Ends (g.namespaceMember? (g.namespaceMembers depth))

theorem GoesForward.loopsEnd {g : Grammar} (h : g.GoesForward) : g.LoopsEnd where
  nameParts := progresses_namePart?.ends
  suffixes start := growthEnds (progresses_typeSuffix start)
  passing words := (progresses_passing? words).ends
  usings := progresses_using?.ends
  attributeLists := progresses_attributeList?.ends
  attributesOfList := (progresses_afterComma forward_oneAttribute).ends
  modifiers := progresses_modifier?.ends
  bases := (progresses_afterComma takes_type.forward).ends
  arguments := h.progresses_argument.ends
  attachments start := growthEnds (h.progresses_attachment start)
  links least := growthEnds (h.progresses_link least)
  declarators := h.progresses_declarator.ends
  statements := h.progresses_stmt?.ends
  iterators := h.progresses_iterator?.ends
  parameters := (progresses_afterComma h.parameter).ends
  accessors := h.progresses_accessor?.ends
  members typeName := (h.progresses_member? typeName).ends
  namespaceMembers depth := (progresses_namespaceMember? h (forward_namespaceMembers h depth)).ends

end Grammar

end CultureLint
