import CultureLint.Proofs.Binding.MovingProgram
import CultureLint.Proofs.Document.Reread
import CultureLint.Proofs.Parser.Dense
import CultureLint.Proofs.Rule.Findings

/-! Only the tokens of a text count. Two texts with the same tokens are read to the same tree once offsets are
counted in tokens, are bound to the same operations, and so get the same messages, whatever blanks, comments
and directives they have between the tokens. -/

namespace CultureLint

open CultureLint.Parser

/-! ### Reading -/

namespace Lexed

variable {a b text : String} {la lb lexed : Lexed}

/-- What a token is, wherever it stands. -/
def words (lexed : Lexed) : List (TokenKind × String) := lexed.tokens.map fun t => (t.kind, t.text)

theorem ordered_of_ofText (h : ofText text = .ok lexed) :
    Ordered lexed.tokens ∧ ∀ t ∈ lexed.tokens, t.span.stop ≤ text.utf8ByteSize := by
  obtain ⟨lexemes, hs, rfl⟩ := ofText_eq_ok.1 h
  refine ⟨ordered_tokensFrom hs.text_ne_nil, fun t ht => ?_⟩
  have hstop := (tokensFrom_bounds hs.text_ne_nil ht).2.2
  rw [← hs.eq_written, ← utf8ByteSize_eq] at hstop
  omega

/-- Tokens with the same words are the same once they are put close together. -/
theorem denseFrom_eq (ha : ofText a = .ok la) (hb : ofText b = .ok lb) (h : la.words = lb.words) :
    denseFrom 0 la.tokens = denseFrom 0 lb.tokens ∧ bytesOf la.tokens = bytesOf lb.tokens := by
  have hindex {text : String} {lexed : Lexed} (hl : ofText text = .ok lexed) :
      lexed.tokens.map Token.index = List.range lexed.tokens.length := by
    obtain ⟨lexemes, -, rfl⟩ := ofText_eq_ok.1 hl
    refine List.ext_getElem (by simp) fun i hi _ => ?_
    rw [List.length_map] at hi
    simpa using index_of_tokensFrom (List.getElem?_eq_getElem hi)
  have hlength : la.tokens.length = lb.tokens.length := by
    simpa [words] using congrArg List.length h
  have halike : Alike la.tokens lb.tokens := by
    have := congrArg (List.map fun w : TokenKind × String => (⟨0, w.1, w.2, 0⟩ : Token)) h
    rwa [words, words, List.map_map, List.map_map] at this
  refine ⟨denseFrom_congr halike (by rw [hindex ha, hindex hb, hlength]) 0, ?_⟩
  have := congrArg (fun words => (words.map fun w : TokenKind × String => w.2.utf8ByteSize).sum) h
  simp only [words, List.map_map] at this
  exact this

/-- Texts with the same words are both refused, at the same token, or are read to the same code, with all its
places at the same tokens. -/
theorem moveRead_eq (ha : ofText a = .ok la) (hb : ofText b = .ok lb) (h : la.words = lb.words) :
    moveRead (tokenNumber la.tokens) (runOn compilationUnit la.tokens a.utf8ByteSize) =
      moveRead (tokenNumber lb.tokens) (runOn compilationUnit lb.tokens b.utf8ByteSize) := by
  have hcount {text : String} {lexed : Lexed} (hl : ofText text = .ok lexed) :
      moveRead (tokenNumber lexed.tokens) (runOn compilationUnit lexed.tokens text.utf8ByteSize) =
        moveRead (tokenNumber (denseFrom 0 lexed.tokens))
          (runOn compilationUnit (denseFrom 0 lexed.tokens) (bytesOf lexed.tokens)) := by
    obtain ⟨ho, hsize⟩ := ordered_of_ofText hl
    rw [runOn_denseFrom ho hsize, ← ho.tokenNumber_comp]
    cases runOn compilationUnit lexed.tokens text.utf8ByteSize with
    | ok unit => exact congrArg Except.ok (move_move _ _ unit).symm
    | error e => rfl
  obtain ⟨hdense, hbytes⟩ := denseFrom_eq ha hb h
  rw [hcount ha, hcount hb, hdense, hbytes]

/-- A text can be read if the code is read from its tokens, wherever these are moved. -/
theorem exists_ofText_iff (h : ofText text = .ok lexed) {f : Shift} :
    (∃ tree, SourceTree.ofText text = .ok tree) ↔
      ∃ unit, moveRead f (runOn compilationUnit lexed.tokens text.utf8ByteSize) = .ok unit := by
  constructor
  · rintro ⟨tree, htree⟩
    obtain ⟨lexed', hl, hu, -⟩ := SourceTree.ofText_eq_ok.1 htree
    cases h.symm.trans hl
    exact ⟨move f tree.unit, by rw [hu, moveRead]⟩
  · rintro ⟨unit, hu⟩
    cases hrun : runOn compilationUnit lexed.tokens text.utf8ByteSize with
    | error e => simp [hrun, moveRead] at hu
    | ok unit => exact ⟨⟨unit, lexed.directives, lexed.header⟩,
        SourceTree.ofText_eq_ok.2 ⟨lexed, h, hrun, rfl, rfl⟩⟩

end Lexed

/-! ### Findings -/

namespace BoundUnit

variable (f : Shift) (unit : BoundUnit)

@[simp] theorem childrenOf_move (id : OperationId) : (unit.move f).childrenOf id = unit.childrenOf id := by
  rw [childrenOf, get?_move, childrenOf]
  cases unit.get? id <;> rfl

theorem conversions_move : (unit.move f).conversions = unit.conversions := by
  have hvisit (bound : Nat) (ids : List OperationId) :
      (unit.move f).visitUpTo bound ids = unit.visitUpTo bound ids := by
    induction bound, ids using visitUpTo.induct unit with
    | case1 | case2 => rfl
    | case3 bound id pending ih => rw [visitUpTo, visitUpTo, childrenOf_move, ih]
  have hconversion : (unit.move f).isConversion = unit.isConversion := by
    funext id
    unfold isConversion
    rw [get?_move]
    obtain _ | ⟨kind, _⟩ := unit.get? id
    · rfl
    · cases kind <;> rfl
  have hdescendants : (unit.move f).descendants = unit.descendants := by
    rw [descendants, hvisit]
    simp [descendants, move]
  rw [conversions, hdescendants, hconversion, conversions]

theorem match?_move (types : WellKnownTypes) (c : Compilation) (id : OperationId) :
    types.match? c (unit.move f) id = types.match? c unit id := by
  have hparent : ((unit.move f).parent? id).any types.joinsStrings =
      (unit.parent? id).any types.joinsStrings := by
    simp only [parent?, get?_move]
    obtain _ | ⟨_, _, _, _, _ | p⟩ := unit.get? id
    · rfl
    · rfl
    · change Option.any _ ((unit.get? p).map (Operation.move f)) = Option.any _ (unit.get? p)
      cases unit.get? p <;> rfl
  unfold WellKnownTypes.match?
  rw [get?_move, hparent]
  obtain _ | ⟨kind, _⟩ := unit.get? id
  · rfl
  · cases kind with
    | conversion operand conversion =>
      simp only [Option.map_some, Operation.move, typeOf_move]
      rfl
    | _ => rfl

end BoundUnit

namespace Snapshot

/-- The messages that are to be expected from the operations of a document. -/
def messagesOf (c : Compilation) (unit : BoundUnit) : List String :=
  (WellKnownTypes.of? c).elim [] fun types => unit.conversions.filterMap fun id =>
    (types.match? c unit id).map fun found => formatMessage Rule.stringConcatConversion.descriptor.messageFormat
      [((c.member? found.method).bind Member.method?).elim "" c.displayMethod, found.operandTypeName]

theorem map_message_allFindings (s : Snapshot) :
    s.allFindings.map Diagnostic.message = messagesOf s.compilation s.unit := by
  unfold allFindings messagesOf
  cases WellKnownTypes.of? s.compilation with
  | none => rfl
  | some types =>
    simp only [Option.elim_some, List.map_filterMap]
    refine List.filterMap_congr fun id _ => ?_
    cases hm : types.match? s.compilation s.unit id with
    | none => simp [findingAt, hm]
    | some found =>
      obtain ⟨op, _, _, _, _, _, hop, -⟩ := UnitInv.match?_eq_some.1 hm
      simp only [findingAt, hm, hop]
      rfl

theorem messagesOf_move (f : Shift) (c : Compilation) (unit : BoundUnit) :
    messagesOf c (unit.move f) = messagesOf c unit := by
  simp only [messagesOf, BoundUnit.conversions_move, BoundUnit.match?_move]

/-- The messages for a document that is bound alone do not depend on where its code stands. -/
theorem messagesOf_standalone (f : Shift) (references : List Reference) (d : Document) :
    messagesOf (standalone references d).compilation (standalone references d).unit =
      messagesOf (BoundProgram.ofUnits references [move f d.tree.unit]).compilation
        ((BoundProgram.ofUnits references [move f d.tree.unit]).units[0]?.getD {}) := by
  have hprogram : BoundProgram.ofUnits references [move f d.tree.unit] =
      (BoundProgram.ofUnits references [d.tree.unit]).move f := BoundProgram.ofUnits_move references [d.tree.unit]
  rw [hprogram, BoundProgram.getD_units_move, messagesOf_move]
  rfl

/-- Reading and analysis see nothing but the tokens. Of two texts with the same tokens both or none can be
read, what is read is the same once offsets are counted in tokens, and documents with these texts, each bound
alone, get the same messages in the same order. -/
theorem analyze_of_same_words {a b : String} {la lb : Lexed} (ha : Lexed.ofText a = .ok la)
    (hb : Lexed.ofText b = .ok lb) (h : la.words = lb.words) :
    ((∃ ta, SourceTree.ofText a = .ok ta) ↔ ∃ tb, SourceTree.ofText b = .ok tb) ∧
    (∀ ta tb, SourceTree.ofText a = .ok ta → SourceTree.ofText b = .ok tb →
      move (tokenNumber la.tokens) ta.unit = move (tokenNumber lb.tokens) tb.unit) ∧
    ∀ (references : List Reference) (da db : Document), da.text = a → db.text = b → ∃ dsa dsb,
      (standalone references da).analyze.run' .live = (.ok dsa, .live) ∧
      (standalone references db).analyze.run' .live = (.ok dsb, .live) ∧
      dsa.map Diagnostic.message = dsb.map Diagnostic.message := by
  have hread := Lexed.moveRead_eq ha hb h
  have hunit (ta tb : SourceTree) (hta : SourceTree.ofText a = .ok ta) (htb : SourceTree.ofText b = .ok tb) :
      move (tokenNumber la.tokens) ta.unit = move (tokenNumber lb.tokens) tb.unit := by
    obtain ⟨la', hla, hua, -⟩ := SourceTree.ofText_eq_ok.1 hta
    obtain ⟨lb', hlb, hub, -⟩ := SourceTree.ofText_eq_ok.1 htb
    cases ha.symm.trans hla
    cases hb.symm.trans hlb
    rw [hua, hub] at hread
    exact Except.ok.inj hread
  refine ⟨?_, hunit, ?_⟩
  · rw [Lexed.exists_ofText_iff ha, Lexed.exists_ofText_iff hb, hread]
  · rintro references da db rfl rfl
    refine ⟨_, _, run'_analyze _, run'_analyze _, ?_⟩
    rw [map_message_allFindings, map_message_allFindings, messagesOf_standalone (tokenNumber la.tokens),
      messagesOf_standalone (tokenNumber lb.tokens), hunit _ _ da.tree_eq db.tree_eq]

/-- A class whose field joins a string and a number. -/
def closeText : String := "class C\x7bstring f=\"x\"+1;\x7d"

/-- The same class with a directive, comments and blanks between its tokens. -/
def wideText : String := "#if A\nclass /*c*/ C\n\x7b string f = \"x\"//y\n +\t1 ; \x7d"

theorem analyze_of_same_words_wide : ∃ la lb, Lexed.ofText closeText = .ok la ∧
    Lexed.ofText wideText = .ok lb ∧ la.words = lb.words ∧ la.tokens ≠ lb.tokens ∧
    ∃ da db : Document, da.text = closeText ∧ db.text = wideText ∧ ∃ dsa dsb,
      (standalone [.core, .globalization] da).analyze.run' .live = (.ok dsa, .live) ∧
      (standalone [.core, .globalization] db).analyze.run' .live = (.ok dsb, .live) ∧
      dsa.length = 1 ∧ dsa.map Diagnostic.message = dsb.map Diagnostic.message := by
  have words : ((Lexed.ofText closeText).toOption.any fun la => (Lexed.ofText wideText).toOption.any fun lb =>
      la.words = lb.words && la.tokens ≠ lb.tokens) = true := by decide +kernel
  have found : ((Document.parse "C.cs" closeText).toOption.any fun d => d.text = closeText &&
      ((standalone [.core, .globalization] d).analyze.run' .live).1.toOption.any fun ds =>
        ds.length = 1) = true := by decide +kernel
  cases ha : Lexed.ofText closeText with
  | error e => simp [ha, Except.toOption] at words
  | ok la =>
    cases hb : Lexed.ofText wideText with
    | error e => simp [ha, hb, Except.toOption] at words
    | ok lb =>
      simp only [ha, hb, Except.toOption, Option.any_some, Bool.and_eq_true, decide_eq_true_eq] at words
      obtain ⟨da, -, found⟩ := Option.any_eq_true _ _ |>.1 found
      simp only [Bool.and_eq_true, decide_eq_true_eq] at found
      obtain ⟨hda, hlength⟩ := found
      obtain ⟨hread, -, hmessages⟩ := analyze_of_same_words ha hb words.1
      obtain ⟨tb, htb⟩ := hread.1 ⟨da.tree, hda ▸ da.tree_eq⟩
      obtain ⟨dsa, dsb, hdsa, hdsb, hmessage⟩ :=
        hmessages [.core, .globalization] da ⟨"D.cs", wideText, tb, 0, htb⟩ hda rfl
      simp only [hdsa, Except.toOption, Option.any_some, decide_eq_true_eq] at hlength
      exact ⟨la, lb, rfl, rfl, words.1, words.2, da, _, hda, rfl, dsa, dsb, hdsa, hdsb, hlength, hmessage⟩

end Snapshot

end CultureLint
