import CultureLint.Fix.Conversion
import CultureLint.Proofs.Document.Reread
import CultureLint.Proofs.Parser.Wrap
import CultureLint.Proofs.Token.UsingLine

/-! The edit of a text that formats a value is a substitution in its tree: the call is put around the
text of the expression, the text is read again, and the tree is the old one with the call in the place
of the expression. -/

namespace CultureLint

open CultureLint.Parser CultureLint.Grammar

/-! ### The call -/

/-- A node for an expression of which no place is asked. -/
def anyNode : Node := ⟨0, Span.empty 0⟩

/-- An identifier of which no place is asked. -/
def anyIdent (name : String) : Ident := ⟨name, Span.ofLength 0 name.utf8ByteSize⟩

/-- A name, and members taken of it one after the other. -/
def Expr.dotted (e : Expr) (names : List String) : Expr :=
  names.foldl (fun e name => .memberAccess anyNode e (anyIdent name)) e

/-- The names of the culture, after the first one. -/
def cultureNames (full : Bool) : String × List String :=
  if full then ("System", ["Globalization", "CultureInfo", "InvariantCulture"])
  else ("CultureInfo", ["InvariantCulture"])

/-- The culture as it is written, by its full or by its short name. -/
def cultureText (full : Bool) : String := if full then fullCulture else shortCulture

/-- The culture. -/
def cultureExpr (full : Bool) : Expr :=
  (Expr.name anyNode (cultureNames full).1).dotted (cultureNames full).2

/-- The call that formats a value with the culture. -/
def Expr.formatted (full : Bool) (e : Expr) : Expr :=
  let receiver := if e.isPrimary then e else .parenthesized anyNode e
  .invocation anyNode (.memberAccess anyNode receiver (anyIdent "ToString")) [cultureExpr full]

/-! ### Its tokens -/

open Scans (mark)

/-- What stands before a formatted value. -/
def preLexemes (isPrimary : Bool) : List Lexeme := if isPrimary then [] else [mark '(']

/-- What stands behind a formatted value. -/
def postLexemes (isPrimary full : Bool) : List Lexeme :=
  (if isPrimary then [] else [mark ')']) ++ dottedLexemes ["ToString"] ++ [mark '('] ++
    wordLexeme (cultureNames full).1 :: dottedLexemes (cultureNames full).2 ++ [mark ')']

/-- The token of a lexeme of which no place is asked. -/
def anyToken (lexeme : Lexeme) : Token := lexeme.tokenAt 0

theorem formatCall_toList (isPrimary full : Bool) (operand : List Char) :
    (formatCall isPrimary (String.ofList operand) (cultureText full)).toList =
      written (preLexemes isPrimary) ++ operand ++ written (postLexemes isPrimary full) := by
  cases isPrimary <;> cases full <;>
    simp [formatCall, cultureText, fullCulture, shortCulture, cultureNamespace, preLexemes, postLexemes,
      mark, wordLexeme, dottedLexemes, cultureNames, written]

theorem trailing_postLexemes (isPrimary full : Bool) : Lexed.Trailing (postLexemes isPrimary full) where
  scans := by
    have h : Lexeme.scanUpTo (written (postLexemes isPrimary full)).length false 0
        (written (postLexemes isPrimary full)) = .ok (postLexemes isPrimary full) := by
      cases isPrimary <;> cases full <;> decide
    exact .of_scanUpTo (Nat.le_refl _) h
  closes := ⟨_, rfl⟩
  calm r s := by
    cases isPrimary
    · exact .of_stop (by simp) _ _
    · exact .of_point _ (by rfl)
  tokens := by
    have hall : ∀ lexeme ∈ postLexemes isPrimary full,
        lexeme.kind ≠ .blank ∧ lexeme.kind ≠ .comment ∧ lexeme.kind ≠ .directive := by
      cases isPrimary <;> cases full <;> decide
    intro lexeme hl
    obtain ⟨hblank, hcomment, hdirective⟩ := hall lexeme hl
    cases h : lexeme.kind with
    | token kind => exact ⟨kind, rfl⟩
    | blank => exact absurd h hblank
    | comment => exact absurd h hcomment
    | directive => exact absurd h hdirective

theorem tokens_preLexemes (isPrimary : Bool) :
    ∀ lexeme ∈ preLexemes isPrimary, ∃ kind, lexeme.kind = .token kind := by
  cases isPrimary <;> simp [preLexemes, mark]

/-! ### Its spelling -/

theorem begins_anyNode (w : List Token) : Begins w anyNode := fun h => absurd h (Nat.lt_irrefl 0)

/-- The names are written without an `@` before them. -/
def Verbatim (name : String) : Prop := (anyToken (wordLexeme name)).name = name

theorem span_anyToken_word (name : String) :
    (anyToken (wordLexeme name)).span = Span.ofLength 0 name.utf8ByteSize := by
  simp [anyToken, Lexeme.tokenAt, wordLexeme, Token.span]

theorem spelled_member {name : String} (hname : Verbatim name) {w : List Token} {e : Expr}
    (h : Spelled Begins w (some (anyToken (mark '.'))) (.expr e)) (hpr : e.isPrimary = true)
    (n : Option Token) : Spelled Begins (w ++ [anyToken (mark '.'), anyToken (wordLexeme name)]) n
      (.expr (.memberAccess anyNode e (anyIdent name))) := by
  have member : Spelled Begins (w ++ [anyToken (mark '.'), anyToken (wordLexeme name)]) n
      (.expr (.memberAccess anyNode e
        ⟨(anyToken (wordLexeme name)).name, (anyToken (wordLexeme name)).span⟩)) :=
    .member h hpr rfl rfl (begins_anyNode _)
  rwa [hname, span_anyToken_word] at member

theorem spelled_dotted {names : List String} (hn : ∀ name ∈ names, Verbatim name) {w : List Token}
    {e : Expr} (he : ∀ n, Spelled Begins w n (.expr e)) (hpr : e.isPrimary = true) :
    (∀ n, Spelled Begins (w ++ (dottedLexemes names).map anyToken) n (.expr (e.dotted names))) ∧
      (e.dotted names).isPrimary = true := by
  induction names generalizing w e with
  | nil => exact ⟨by simpa [dottedLexemes, Expr.dotted] using he, hpr⟩
  | cons name names ih =>
    have hname : Verbatim name := hn name (List.mem_cons_self ..)
    have := ih (fun x hx => hn x (List.mem_cons_of_mem _ hx)) (spelled_member hname (he _) hpr) rfl
    simpa [dottedLexemes, Expr.dotted] using this

theorem verbatim_cultureNames (full : Bool) :
    Verbatim (cultureNames full).1 ∧ ∀ name ∈ (cultureNames full).2, Verbatim name := by
  unfold Verbatim
  cases full <;> decide

theorem spelled_cultureExpr (full : Bool) (n : Option Token) : Spelled Begins
    ((wordLexeme (cultureNames full).1 :: dottedLexemes (cultureNames full).2).map anyToken) n
    (.expr (cultureExpr full)) := by
  obtain ⟨hfirst, hrest⟩ := verbatim_cultureNames full
  refine (spelled_dotted hrest (w := [_]) (fun n => ?_) rfl).1 n
  have first := @Spelled.atom Begins (anyToken (wordLexeme (cultureNames full).1)) n _ anyNode rfl
    (begins_anyNode _)
  rwa [hfirst] at first

theorem spelled_formatted (full : Bool) (start : Nat) {v : List Token} {n : Option Token} {e : Expr}
    (h : Spelled Placed v n (.expr e)) (n' : Option Token) :
    Spelled Begins ((preLexemes e.isPrimary).map (·.tokenAt start) ++ v ++
      (postLexemes e.isPrimary full).map anyToken) n' (.expr (e.formatted full)) := by
  -- before a point nothing depends on the token that follows
  have point {v : List Token} {n : Option Token} {e : Expr} (h : Spelled Begins v n (.expr e)) :
      Spelled Begins v (some (anyToken (mark '.'))) (.expr e) := h.next rfl rfl
  have call {w : List Token} {receiver : Expr}
      (h : Spelled Begins w (some (anyToken (mark '.'))) (.expr receiver))
      (hpr : receiver.isPrimary = true) :
      Spelled Begins (w ++ [anyToken (mark '.'), anyToken (wordLexeme "ToString")] ++
          anyToken (mark '(') :: (((wordLexeme (cultureNames full).1 ::
            dottedLexemes (cultureNames full).2).map anyToken) ++ [anyToken (mark ')')])) n'
        (.expr (.invocation anyNode (.memberAccess anyNode receiver (anyIdent "ToString"))
          [cultureExpr full])) := by
    have hname : Verbatim "ToString" := by unfold Verbatim; decide
    exact .call (spelled_member hname h hpr _) rfl rfl rfl
      (.lastArg (m := []) ⟨[], [], rfl, by simp, .inl rfl⟩ (spelled_cultureExpr full _)) (begins_anyNode _)
  have hv : Spelled Begins v n (.expr e) := h.mono fun _ _ => Placed.begins
  cases hpr : e.isPrimary with
  | true =>
    have := call (point hv) hpr
    simpa [Expr.formatted, hpr, preLexemes, postLexemes, dottedLexemes] using this
  | false =>
    -- the operand is no type, and so the parentheses are no cast
    have hcast : NotCast v (some (anyToken (mark '.'))) := fun c type _ ht => by
      simp [hv.isPrimary_of_inType ht.inType] at hpr
    have hparen : Spelled Begins ((mark '(').tokenAt start :: (v ++ [anyToken (mark ')')]))
        (some (anyToken (mark '.'))) (.expr (.parenthesized anyNode e)) :=
      .paren rfl rfl (hv.next rfl rfl) hcast (begins_anyNode _)
    have := call hparen rfl
    simpa [Expr.formatted, hpr, preLexemes, postLexemes, dottedLexemes] using this

/-- The call put around an expression, where tokens have to do with others what they should. -/
def callAround (full : Bool) (e : Expr) (sees : Token → Token → Prop) : Wrapping where
  target := e.node
  isPrimary := e.isPrimary
  sees := sees
  pre := (preLexemes e.isPrimary).map (·.tokenAt e.span.start)
  post := (postLexemes e.isPrimary full).map anyToken
  make := Expr.formatted full
  isPrimary_make _ := rfl
  spelled_make v n n' d h hd := hd ▸ spelled_formatted full e.span.start h n'
  pre_eq := by
    cases e.isPrimary
    · exact .inr ⟨_, _, rfl, rfl, rfl⟩
    · exact .inl rfl
  post_eq := by
    cases e.isPrimary
    · exact ⟨[anyToken (mark ')'), anyToken (mark '.'), anyToken (wordLexeme "ToString")],
        anyToken (mark '('), _, rfl, rfl, by decide⟩
    · exact ⟨[anyToken (mark '.'), anyToken (wordLexeme "ToString")], anyToken (mark '('), _, rfl, rfl,
        by decide⟩

/-! ### The substitution -/

/-- No expression ends with a question mark. -/
theorem Spelled.last {P : List Token → Node → Prop} {w : List Token} {n : Option Token} {ph : Phrase}
    (h : Spelled P w n ph) {e : Expr} (hph : ph = .expr e) :
    ∃ u z, w = u ++ [z] ∧ z.isPunct "?" = false := by
  have mark {z : Token} {c : String} (hz : z.isPunct c = true) (hc : c ≠ "?") :
      z.isPunct "?" = false := (isPunct_unique hz).trans (beq_eq_false_iff_ne.2 hc)
  induction h generalizing e with
  | @atom t _ _ _ ht => exact ⟨[], t, rfl, isPunct_of_atom? ht _⟩
  | @paren o c w _ _ _ _ hc => exact ⟨o :: w, c, rfl, mark hc (by decide)⟩
  | @create k o c wt w _ _ _ _ _ _ _ hc => exact ⟨k :: (wt ++ o :: w), c, by simp, mark hc (by decide)⟩
  | @member d i w _ _ _ _ _ _ hi => exact ⟨w ++ [d], i, by simp, isPunct_of_isIdentifier hi⟩
  | @call o c w wa _ _ _ _ _ _ _ hc => exact ⟨w ++ o :: wa, c, by simp, mark hc (by decide)⟩
  | @index o c w wa _ _ _ _ _ _ _ hc => exact ⟨w ++ o :: wa, c, by simp, mark hc (by decide)⟩
  | @step t w _ _ _ _ _ _ ht => exact ⟨w, t, rfl, mark ht (by split <;> decide)⟩
  | @unary t _ _ _ _ _ _ _ _ _ ih =>
    obtain ⟨u, z, rfl, hz⟩ := ih rfl
    exact ⟨t :: u, z, by simp, hz⟩
  | @cast o c wt _ _ _ _ _ _ _ _ _ _ _ _ ih =>
    obtain ⟨u, z, rfl, hz⟩ := ih rfl
    exact ⟨o :: (wt ++ c :: u), z, by simp, hz⟩
  | @binary t wl _ _ _ _ _ _ _ _ _ _ _ _ _ ih =>
    obtain ⟨u, z, rfl, hz⟩ := ih rfl
    exact ⟨wl ++ t :: u, z, by simp, hz⟩
  | @conditional q c wc wt _ _ _ _ _ _ _ _ _ _ _ _ _ _ _ ih =>
    obtain ⟨u, z, rfl, hz⟩ := ih rfl
    exact ⟨wc ++ q :: (wt ++ c :: u), z, by simp, hz⟩
  | @assignment t wt _ _ _ _ _ _ _ _ _ _ _ _ ih =>
    obtain ⟨u, z, rfl, hz⟩ := ih rfl
    exact ⟨wt ++ t :: u, z, by simp, hz⟩
  | noArgs | lastArg | moreArgs => cases hph

/-- The tree with another expression made of the one at a node. -/
def SourceTree.changeAt (target : Node) (f : Expr → Expr) (tree : SourceTree) : SourceTree :=
  { tree with unit := Outline.map (Expr.changeAt target f) id tree.unit }

/-- Putting the call around the text of an expression puts it around the expression in the tree, and
leaves everything else as it was, up to the numbers and places of nodes. -/
theorem ofText_formatCall {text : String} {tree : SourceTree} (h : SourceTree.ofText text = .ok tree)
    {e : Expr} {depth : Nat} (he : (e, depth) ∈ tree.unit.walk) (full : Bool) :
    ∃ operand text' tree', Text.slice? text e.span = some operand ∧
      Text.replace? text e.span (formatCall e.isPrimary operand (cultureText full)) = some text' ∧
      SourceTree.ofText text' = .ok tree' ∧
      bare tree' = bare (tree.changeAt e.node (Expr.formatted full)) ∧
      tree.MetBy (Expr.changeAt e.node (Expr.formatted full)) tree' := by
  obtain ⟨lexed, hl, hu, hd, hh⟩ := SourceTree.ofText_eq_ok.1 h
  obtain ⟨hread, ho⟩ := SourceTree.readFrom hl hu
  obtain ⟨a, ha, hea⟩ := CompilationUnit.mem_walk_iff.1 ⟨depth, he⟩
  obtain ⟨u, v, x, n, htokens, hv⟩ := hread.inside ha hea
  have hquestion (z : Token) (hz : v.getLast? = some z) : z.isPunct "?" = false := by
    obtain ⟨w, y, rfl, hy⟩ := hv.last rfl
    rw [List.getLast?_concat] at hz
    exact Option.some.inj hz ▸ hy
  -- the text and its tokens
  have hpre : preLexemes e.isPrimary = [] ∨ preLexemes e.isPrimary = [mark '('] := by
    cases e.isPrimary <;> simp [preLexemes]
  have htrail := trailing_postLexemes e.isPrimary full
  obtain ⟨before, inside, after, lexed', hcut, hl', htokens', hbehind, hdir, hhead⟩ :=
    Lexed.around hl htokens hv.ne_nil hv.node hquestion hpre htrail
      (Lexed.putAt_tokenAt e.span.start (fun _ => rfl) (tokens_preLexemes e.isPrimary))
      (Lexed.putAt_tokenAt 0 (fun hpos => absurd hpos (Nat.lt_irrefl 0)) htrail.tokens)
  -- the tokens and the tree
  let ω := callAround full e (Lexed.BehindSame lexed.directives lexed'.directives)
  have hf : ω.change.Fits lexed.tokens (parts tree.unit) :=
    .inr ⟨.expr a, Part.mem_exprs.1 ha, e, hea, rfl, rfl⟩
  have hchange : ω.change.tokens lexed.tokens = u ++ (ω.pre ++ v ++ ω.post) ++ x := by
    rw [htokens] at ho ⊢
    have hout : ω.change.Outside u ∧ ω.change.Outside x := Change.outside_around hv.node hv.ne_nil ho
    have hmid : ω.change.tokens v = ω.pre ++ v ++ ω.post :=
      Change.tokens_around hv.node ho.left.right hv.ne_nil
    rw [Change.tokens_append, Change.tokens_append, hmid, Wrapping.isLocal.tokens_outside hout.1,
      Wrapping.isLocal.tokens_outside hout.2]
  let text' := String.ofList (before ++ (formatCall e.isPrimary (String.ofList inside)
    (cultureText full)).toList ++ after)
  have htext : text' = String.ofList (before ++ (written (preLexemes e.isPrimary) ++ inside ++
      written (postLexemes e.isPrimary full)) ++ after) := by
    rw [← formatCall_toList]
  have hseen : ω.change.Seen (ω.change.tokens lexed.tokens) lexed'.tokens :=
    hchange ▸ ⟨htokens', hbehind, Lexed.ordered_tokens hl'⟩
  obtain ⟨unit', hu', hbare, hmeets⟩ := hread.reread ω.change ω.lawful hf _ hseen text'.utf8ByteSize
  refine ⟨String.ofList inside, text', ⟨unit', lexed'.directives, lexed'.header⟩, ?_, ?_, ?_, ?_,
    ω.change, ω.lawful, rfl, ?_, hmeets⟩
  · exact congrArg (Option.map _) hcut
  · exact congrArg (Option.map _) hcut
  · exact SourceTree.ofText_eq_ok.2 ⟨lexed', htext ▸ hl', hu', rfl, rfl⟩
  · change SourceTree.mk (bare unit') (bare lexed'.directives) (bare lexed'.header) =
      SourceTree.mk (bare (ω.change.apply tree.unit)) (bare tree.directives) (bare tree.header)
    rw [hbare, hdir, hhead, hd, hh]
  · rw [hd]
    rfl

/-! ### Operands of a concatenation -/

theorem CompilationUnit.mem_walk_of_mem_concatOperands {u : CompilationUnit} {p e : Expr} {depth : Nat}
    (hp : (p, depth) ∈ u.walk) (he : e ∈ p.concatOperands) : ∃ depth, (e, depth) ∈ u.walk := by
  obtain ⟨a, ha, hpa⟩ := mem_walk_iff.1 ⟨depth, hp⟩
  have hep : e ∈ p.within := Expr.mem_within_of_mem_children (Expr.mem_children_of_mem_concatOperands he)
  exact mem_walk_iff.2 ⟨a, ha, Expr.mem_within_trans hep hpa⟩

/-- Putting the call around the text of an operand of `+` or `+=` gives a text that is read, and its
tree is the old one with the call in the place of the operand, and of nothing else. -/
theorem ofText_formatCall_operand {text : String} {tree : SourceTree}
    (h : SourceTree.ofText text = .ok tree) {p e : Expr} {depth : Nat} (hp : (p, depth) ∈ tree.unit.walk)
    (he : e ∈ p.concatOperands) (full : Bool) :
    (∀ c depth, (c, depth) ∈ tree.unit.walk → c.node = e.node → c = e) ∧
    ∃ operand text' tree', Text.slice? text e.span = some operand ∧
      Text.replace? text e.span (formatCall e.isPrimary operand (cultureText full)) = some text' ∧
      SourceTree.ofText text' = .ok tree' ∧
      bare tree' = bare (tree.changeAt e.node (Expr.formatted full)) := by
  obtain ⟨depth', hew⟩ := CompilationUnit.mem_walk_of_mem_concatOperands hp he
  obtain ⟨operand, text', tree', hslice, hreplace, htree', hbare, -⟩ := ofText_formatCall h hew full
  refine ⟨fun c d hc hnode => ?_, operand, text', tree', hslice, hreplace, htree', hbare⟩
  exact SourceTree.eq_of_id_eq h hc hew (congrArg Node.id hnode)

/-- A class whose only field joins a string and a negative number. -/
def minusText : String := "class C\x7bstring f=\"x\"+-1;\x7d"

theorem ofText_formatCall_operand_minus : ∃ tree p depth e,
    SourceTree.ofText minusText = .ok tree ∧ (p, depth) ∈ tree.unit.walk ∧
    e ∈ p.concatOperands ∧ e.isPrimary = false ∧
    ∃ operand text' tree', Text.slice? minusText e.span = some operand ∧
      Text.replace? minusText e.span
        (formatCall e.isPrimary operand (cultureText true)) = some text' ∧
      SourceTree.ofText text' = .ok tree' ∧
      bare tree' = bare (tree.changeAt e.node (Expr.formatted true)) := by
  have found : ((SourceTree.ofText minusText).toOption.any fun tree =>
      tree.unit.walk.any fun p => p.1.concatOperands.any fun e => !e.isPrimary) = true := by
    decide +kernel
  cases h : SourceTree.ofText minusText with
  | error e => simp [h, Except.toOption] at found
  | ok tree =>
    simp only [h, Except.toOption, Option.any_some, List.any_eq_true, Bool.not_eq_true'] at found
    obtain ⟨⟨p, depth⟩, hp, e, he, hpr⟩ := found
    exact ⟨tree, p, depth, e, rfl, hp, he, hpr, (ofText_formatCall_operand h hp he true).2⟩

end CultureLint
