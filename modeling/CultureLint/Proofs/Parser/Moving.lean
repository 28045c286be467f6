import CultureLint.Parser.Document
import CultureLint.Proofs.Tree.Move

/-! Parsers do not care where their tokens stand. If the offsets of a text are moved so that every token
keeps its length, a parser takes the moved tokens just as it takes the others, and gives the moved tree, or
the moved error. `Moves` says so of a parser and of the one that is handed the moved offsets; it is closed
under the combinators. -/

namespace CultureLint

/-- The token keeps its length when it is moved. -/
def Token.Rigid (f : Shift) (t : Token) : Prop := (move f t).span = move f t.span

namespace Cursor

variable (f : Shift) (s : Cursor)

/-- The cursor at the same token of the moved ones. -/
def move : Cursor := ⟨Movable.move f s.rest, f s.previousEnd, f s.size, s.nextId⟩

/-- The tokens still to read keep their lengths. -/
def Rigid : Prop := ∀ t ∈ s.rest, t.Rigid f

theorem first?_move : (s.move f).first? = Movable.move f s.first? := List.head?_map

theorem second?_move : (s.move f).second? = Movable.move f s.second? := by
  unfold second?
  cases h : s.rest with
  | nil => simp [move, h]
  | cons t rest => cases rest <;> simp [move, h]

theorem offset_move : (s.move f).offset = f s.offset := by
  unfold offset
  rw [first?_move]
  cases s.first? <;> rfl

variable {f s}

theorem Rigid.of_first? (h : s.Rigid f) {t : Token} (ht : s.first? = some t) : t.Rigid f :=
  h t (List.mem_of_mem_head? ht)

theorem Rigid.advance (h : s.Rigid f) : s.advance.Rigid f := by
  unfold Rigid Cursor.advance
  cases hr : s.rest with
  | nil => simp [hr]
  | cons t rest =>
    intro u hu
    exact h u (by simp_all)

theorem advance_move (h : s.Rigid f) : (s.move f).advance = s.advance.move f := by
  cases hr : s.rest with
  | nil => simp [Cursor.advance, move, hr]
  | cons t rest =>
    have ht : (Movable.move f t).span = Movable.move f t.span := h t (by simp [hr])
    simp [Cursor.advance, move, hr, ht]

end Cursor

/-- The error at the moved place. -/
def SyntaxError.move (f : Shift) (e : SyntaxError) : SyntaxError := { e with offset := f e.offset }

theorem Cursor.refuse_move (f : Shift) (s : Cursor) (complaint : Complaint) :
    (s.move f).refuse complaint = (s.refuse complaint).move f := by
  unfold refuse SyntaxError.move
  rw [offset_move, first?_move]
  cases s.first? <;> rfl

namespace Parser

variable {α β : Type} [Movable α] [Movable β] {f : Shift}

/-- What is moved in the result of a parser. -/
def moveResult (f : Shift) : Except SyntaxError (α × Cursor) → Except SyntaxError (α × Cursor)
  | .ok (a, s) => .ok (move f a, s.move f)
  | .error e => .error (e.move f)

/-- The second parser does with moved tokens what the first one does with the tokens as they were. -/
structure Moves (f : Shift) (p q : Parser α) : Prop where
  run : ∀ s, s.Rigid f → q (s.move f) = moveResult f (p s)
  rigid : ∀ {s a s'}, s.Rigid f → p s = .ok (a, s') → s'.Rigid f

namespace Moves

variable {p q : Parser α}

/-! ### Plain combinators -/

theorem pure {a b : α} (h : b = move f a) : Moves f (pure a : Parser α) (pure b) where
  run s _ := by rw [h]; rfl
  rigid hs h := by cases h; exact hs

theorem fail {c : Complaint} : Moves f (fail c : Parser α) (fail c) where
  run s _ := congrArg _ (s.refuse_move f c)
  rigid _ h := by cases h

theorem ask {g h : Cursor → α} (H : ∀ s, s.Rigid f → h (s.move f) = move f (g s)) :
    Moves f (ask g) (ask h) where
  run s hs := by rw [Parser.ask, H s hs]; rfl
  rigid hs h := by cases h; exact hs

theorem bind {k l : α → Parser β} (hp : Moves f p q) (hk : ∀ a, Moves f (k a) (l (move f a))) :
    Moves f (p >>= k) (q >>= l) where
  run s hs := by
    change Except.bind (q (s.move f)) _ = moveResult f (Except.bind (p s) _)
    rw [hp.run s hs]
    cases h : p s with
    | error e => rfl
    | ok r => exact (hk r.1).run r.2 (hp.rigid hs h)
  rigid {s b s'} hs hb := by
    change Except.bind (p s) _ = _ at hb
    cases h : p s with
    | error e => simp [h, Except.bind] at hb
    | ok r =>
      rw [h] at hb
      exact (hk r.1).rigid (hp.rigid hs h) hb

theorem map {g h : α → β} (hp : Moves f p q) (H : ∀ a, h (move f a) = move f (g a)) :
    Moves f (g <$> p) (h <$> q) := by
  rw [← bind_pure_comp, ← bind_pure_comp]
  exact hp.bind fun a => .pure (H a)

theorem just (hp : Moves f p q) : Moves f (some <$> p) (some <$> q) := hp.map fun _ => rfl

theorem ite {c : Prop} [Decidable c] {p' q' : Parser α} (hp : Moves f p q) (hq : Moves f p' q') :
    Moves f (if c then p else p') (if c then q else q') := by
  split
  · exact hp
  · exact hq

/-! ### One token -/

theorem advance : Moves f advance advance where
  run s hs := congrArg (fun s => Except.ok ((), s)) (s.advance_move hs)
  rigid hs h := by cases h; exact hs.advance

theorem offset : Moves f offset offset := ask fun s _ => s.offset_move f

theorem first : Moves f (Parser.ask Cursor.first?) (Parser.ask Cursor.first?) :=
  ask fun s _ => s.first?_move f

theorem any_move {g : Token → Bool} (hg : ∀ t, g (move f t) = g t) (t : Option Token) :
    (move f t).any g = t.any g := by
  cases t with
  | none => rfl
  | some t => exact hg t

theorem at? {g : Token → Bool} (hg : ∀ t, g (move f t) = g t) : Moves f (at? g) (at? g) :=
  ask fun s _ => by rw [s.first?_move f, any_move hg]; rfl

theorem at2? {g h : Token → Bool} (hg : ∀ t, g (move f t) = g t) (hh : ∀ t, h (move f t) = h t) :
    Moves f (at2? g h) (at2? g h) :=
  ask fun s _ => by rw [s.first?_move f, s.second?_move f, any_move hg, any_move hh]; rfl

/-- What the next token spells, which is nothing that could be moved. -/
theorem spelled {g : Token → Option α} (hg : ∀ t, g (move f t) = g t) (ha : ∀ a : α, move f a = a) :
    Moves f (Parser.ask (·.first?.bind g)) (Parser.ask (·.first?.bind g)) := by
  refine ask fun s _ => ?_
  have hmove : Option.map (move f) (s.first?.bind g) = s.first?.bind g := by
    cases s.first?.bind g with
    | none => rfl
    | some a => exact congrArg some (ha a)
  refine Eq.trans ?_ hmove.symm
  rw [s.first?_move f]
  cases s.first? with
  | none => rfl
  | some t => exact hg t

theorem eat {g : Token → Bool} (hg : ∀ t, g (move f t) = g t) : Moves f (eat g) (eat g) :=
  (at? hg).bind fun _ => .ite (advance.bind fun _ => .pure rfl) (.pure rfl)

theorem eat2 {g h : Token → Bool} (hg : ∀ t, g (move f t) = g t) (hh : ∀ t, h (move f t) = h t) :
    Moves f (eat2 g h) (eat2 g h) :=
  (at2? hg hh).bind fun _ =>
    .ite (advance.bind fun _ => advance.bind fun _ => .pure rfl) (.pure rfl)

theorem atPunct (c : String) : Moves f (atPunct c) (atPunct c) := at? fun _ => rfl

theorem atKeyword (c : String) : Moves f (atKeyword c) (atKeyword c) := at? fun _ => rfl

theorem atKeywords (words : List String) : Moves f (atKeywords words) (atKeywords words) :=
  at? fun _ => rfl

theorem eatPunct (c : String) : Moves f (eatPunct c) (eatPunct c) := eat fun _ => rfl

theorem eatKeyword (c : String) : Moves f (eatKeyword c) (eatKeyword c) := eat fun _ => rfl

theorem atEnd : Moves f atEnd atEnd := ask fun s _ => by cases h : s.rest <;> simp [Cursor.move, h]

theorem expectPunct (c : String) : Moves f (expectPunct c) (expectPunct c) :=
  (eatPunct c).bind fun _ => .ite (.pure rfl) .fail

theorem spanFrom (start : Nat) : Moves f (spanFrom start) (spanFrom (f start)) :=
  ask fun s _ => (move_upTo f start s.previousEnd).symm

theorem newNode (span : Span) : Moves f (newNode span) (newNode (move f span)) where
  run _ _ := rfl
  rigid hs h := by cases h; exact hs

theorem newNodeFrom (start : Nat) : Moves f (newNodeFrom start) (newNodeFrom (f start)) :=
  (spanFrom start).bind newNode

/-- A result made with a new node. -/
theorem node {start : Nat} {g h : Node → α} (H : ∀ n, h (move f n) = move f (g n)) :
    Moves f (Parser.newNodeFrom start >>= fun n => Pure.pure (g n))
      (Parser.newNodeFrom (f start) >>= fun n => Pure.pure (h n)) :=
  (newNodeFrom start).bind fun n => .pure (H n)

/-- A result made with the span of what was read. -/
theorem span {start : Nat} {g h : Span → α} (H : ∀ s, h (move f s) = move f (g s)) :
    Moves f (Parser.spanFrom start >>= fun s => Pure.pure (g s))
      (Parser.spanFrom (f start) >>= fun s => Pure.pure (h s)) :=
  (spanFrom start).bind fun s => .pure (H s)

/-- What depends on the next token, which keeps its length. -/
theorem withFirst {k l : Option Token → Parser α} (hnone : Moves f (k none) (l none))
    (hsome : ∀ t, t.Rigid f → Moves f (k (some t)) (l (some (move f t)))) :
    Moves f (Parser.ask Cursor.first? >>= k) (Parser.ask Cursor.first? >>= l) := by
  have hk (s : Cursor) (hs : s.Rigid f) : Moves f (k s.first?) (l (s.move f).first?) := by
    rw [s.first?_move f]
    cases ht : s.first? with
    | none => exact hnone
    | some t => exact hsome t (hs.of_first? ht)
  exact ⟨fun s hs => (hk s hs).run s hs, fun hs h => (hk _ hs).rigid hs h⟩

theorem expectIdent : Moves f expectIdent expectIdent :=
  withFirst .fail fun t ht => .ite (advance.bind fun _ => .pure (congrArg (Ident.mk t.name) ht)) .fail

/-! ### Many tokens -/

theorem manyUpTo {p q : Parser (Option α)} (hp : Moves f p q) (bound : Nat) :
    Moves f (manyUpTo p bound) (manyUpTo q bound) := by
  induction bound with
  | zero => exact .pure rfl
  | succ bound ih =>
    refine hp.bind fun a => ?_
    cases a with
    | none => exact .pure rfl
    | some a => exact ih.bind fun as => .pure rfl

theorem length_move (s : Cursor) : (s.move f).rest.length = s.rest.length := List.length_map _

theorem many {p q : Parser (Option α)} (hp : Moves f p q) : Moves f (many p) (many q) where
  run s hs := by
    change Parser.manyUpTo q ((s.move f).rest.length + 1) (s.move f) = _
    rw [length_move]
    exact (hp.manyUpTo _).run s hs
  rigid hs h := (hp.manyUpTo _).rigid hs h

theorem growUpTo {g h : α → Parser (Option α)} (H : ∀ a, Moves f (g a) (h (move f a))) (bound : Nat)
    (a : α) : Moves f (growUpTo g bound a) (growUpTo h bound (move f a)) := by
  induction bound generalizing a with
  | zero => exact .pure rfl
  | succ bound ih =>
    refine (H a).bind fun b => ?_
    cases b with
    | none => exact .pure rfl
    | some b => exact ih b

theorem grow {g h : α → Parser (Option α)} (H : ∀ a, Moves f (g a) (h (move f a))) (a : α) :
    Moves f (grow g a) (grow h (move f a)) where
  run s hs := by
    change Parser.growUpTo h ((s.move f).rest.length + 1) (move f a) (s.move f) = _
    rw [length_move]
    exact (growUpTo H _ a).run s hs
  rigid hs h := (growUpTo H _ a).rigid hs h

theorem afterComma (hp : Moves f p q) : Moves f (afterComma p) (afterComma q) :=
  (eatPunct _).bind fun _ => .ite hp.just (.pure rfl)

theorem commaList (hp : Moves f p q) : Moves f (commaList p) (commaList q) :=
  hp.bind fun _ => hp.afterComma.many.bind fun _ => .pure rfl

theorem speculate {p q : Parser (Option α)} (hp : Moves f p q) :
    Moves f (speculate p) (speculate q) where
  run s hs := by
    unfold Parser.speculate
    rw [hp.run s hs]
    cases p s with
    | error e => rfl
    | ok r =>
      obtain ⟨a, s'⟩ := r
      cases a <;> rfl
  rigid {s a s'} hs h := by
    unfold Parser.speculate at h
    split at h
    · cases h
      exact hp.rigid hs ‹_›
    · cases h
      exact hs

theorem closeGroup?_move (opening closing : String) (depth : Int) (w : List Token) :
    closeGroup? opening closing depth (move f w) =
      (closeGroup? opening closing depth w).map (Prod.map (move f) (move f)) := by
  induction w generalizing depth with
  | nil => rfl
  | cons t w ih =>
    rw [move_cons, closeGroup?, closeGroup?]
    change (if t.isPunct opening then _ else if t.isPunct closing then _ else _) = _
    split
    · exact ih _
    split
    · split
      · rfl
      · exact ih _
    · exact ih _

theorem mem_of_closeGroup? {opening closing : String} {depth : Int} {w r : List Token} {t : Token}
    (h : closeGroup? opening closing depth w = some (t, r)) : t ∈ w ∧ ∀ u ∈ r, u ∈ w := by
  induction w generalizing depth with
  | nil => cases h
  | cons u w ih =>
    have weaken (h : t ∈ w ∧ ∀ v ∈ r, v ∈ w) : t ∈ u :: w ∧ ∀ v ∈ r, v ∈ u :: w :=
      ⟨List.mem_cons_of_mem _ h.1, fun v hv => List.mem_cons_of_mem _ (h.2 v hv)⟩
    rw [closeGroup?] at h
    split at h
    · exact weaken (ih h)
    split at h
    · split at h
      · cases h
        exact ⟨List.mem_cons_self, fun v hv => List.mem_cons_of_mem _ hv⟩
      · exact weaken (ih h)
    · exact weaken (ih h)

theorem skipGroup (opening closing : String) :
    Moves f (skipGroup opening closing) (skipGroup opening closing) where
  run s hs := by
    have hclose : closeGroup? opening closing 0 (s.move f).rest = _ :=
      closeGroup?_move opening closing 0 s.rest
    unfold Parser.skipGroup
    rw [hclose]
    cases h : closeGroup? opening closing 0 s.rest with
    | none => rfl
    | some r =>
      have ht : (move f r.1).span = move f r.1.span := hs r.1 (mem_of_closeGroup? h).1
      simp [moveResult, Cursor.move, ht]
  rigid {s a s'} hs h := by
    unfold Parser.skipGroup at h
    cases hc : closeGroup? opening closing 0 s.rest with
    | none => simp [hc] at h
    | some r =>
      rw [hc] at h
      cases h
      exact fun t ht => hs t ((mem_of_closeGroup? hc).2 t ht)

end Moves

end Parser

end CultureLint
