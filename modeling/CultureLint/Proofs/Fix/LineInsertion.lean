import CultureLint.Fix.Import
import CultureLint.Proofs.Document.Reread
import CultureLint.Proofs.Parser.AddLine

/-! A `using` line put into a document: before another line, behind another line, or at the beginning of
a document that has none. The document is read again with the line among the others, and a namespace
that has the line among its own touches the positions that it touched. -/

namespace CultureLint

open CultureLint.Parser

/-! ### Tokens put among others -/

/-- Tokens `i` put between others, next to those that have the span `target`: what stands behind them
ends later than before. -/
structure PutIn (target : Span) (a i b b' : List Token) : Prop where
  before : ∀ t ∈ a, t.start < target.stop
  behind : ∀ t ∈ b, target.start ≤ t.start
  later : List.Forall₂ (fun t t' => t.span.stop ≤ t'.span.stop) b b'
  nonempty : i ≠ []
  ordered : Ordered (a ++ b)
  ordered' : Ordered (a ++ i ++ b')

namespace PutIn

variable {target : Span} {a i b b' p r p' r' : List Token}

/-- The tokens before the target stay. -/
theorem front (h : PutIn target a i b b') (hr : a ++ b = p ++ r) (hr' : a ++ i ++ b' = p' ++ r')
    (hl : p.length = p'.length) (hp : ∀ t ∈ p, t.start < target.start) : p' = p := by
  obtain ⟨q, rfl⟩ : p <+: a := by
    obtain ⟨q, rfl, hq⟩ | ⟨q, hq, -⟩ := List.append_eq_append_iff.1 hr
    · cases q with
      | nil => simp
      | cons t q =>
        have h₁ := h.behind t (by simp [hq])
        have h₂ := hp t (by simp)
        omega
    · exact ⟨q, hq.symm⟩
  simp only [List.append_assoc] at hr'
  exact (List.append_inj hr' hl).1.symm

/-- A token with only later tokens behind it does not end before it did. -/
theorem back {l l' : Token} {y y' : List Token} (h : PutIn target a i b b') (hy : a ++ b = p ++ l :: y)
    (hy' : a ++ i ++ b' = p' ++ l' :: y') (hl : y.length = y'.length)
    (hp : ∀ t ∈ y, target.stop ≤ t.start) : l.span.stop ≤ l'.span.stop := by
  have hlen : b.length = b'.length := h.later.length_eq
  -- where the token stands behind the new ones
  have inside {q : List Token} (hq : b = q ++ l :: y) : l.span.stop ≤ l'.span.stop := by
    have hlen' := congrArg List.length hq
    obtain ⟨q', rfl⟩ : l' :: y' <:+ b' := by
      refine List.suffix_of_suffix_length_le ⟨p', hy'.symm⟩ ⟨a ++ i, rfl⟩ ?_
      simp only [List.length_append, List.length_cons] at hlen' ⊢
      omega
    have hdrop := List.forall₂_drop_append _ _ _ h.later
    have hqq : q'.length = q.length := by
      simp only [hq, List.length_append, List.length_cons] at hlen
      omega
    rw [hq, hqq, List.drop_left] at hdrop
    cases hdrop with
    | cons hstop _ => exact hstop
  obtain ⟨q, rfl, hq⟩ | ⟨q, rfl, hrest⟩ := List.append_eq_append_iff.1 hy
  · exact inside hq
  · cases q with
    | nil => exact inside (q := []) hrest.symm
    | cons t q =>
      obtain ⟨rfl, rfl⟩ := List.cons.inj hrest
      -- the last one before the new ones; the last one of these is in its place
      obtain rfl : q = [] := by
        refine List.eq_nil_iff_forall_not_mem.2 fun t ht => ?_
        have h₁ := h.before t (by simp [ht])
        have h₂ := hp t (by simp [ht])
        omega
      have hsplit : p ++ [l] ++ i ++ b' = (p' ++ [l']) ++ y' := by simpa using hy'
      obtain ⟨hai, -⟩ := List.append_inj' hsplit (by simpa [hlen] using hl)
      have hlast : l' ∈ i := by
        have := congrArg List.getLast? hai
        rw [List.getLast?_append_of_ne_nil _ h.nonempty, List.getLast?_concat] at this
        exact List.mem_of_mem_getLast? this
      obtain ⟨-, hi, hbefore⟩ := Ordered.append_iff.1 h.ordered'.left
      have h₁ := hbefore l (by simp) l' hlast
      have h₂ := hi.nonempty l' hlast
      omega

end PutIn

/-! ### Namespaces around a new line -/

namespace Addition

variable {add : Addition} {a i b b' : List Token}

/-- A namespace that the new line comes into starts where it did and does not end before it did. -/
theorem touches (h : PutIn add.target a i b b') {x x' y y' f f' m m' z s : List Token} {span span' : Span}
    (ht : a ++ b = x ++ (f ++ m ++ z ++ s) ++ y) (ht' : a ++ i ++ b' = x' ++ (f' ++ m') ++ y')
    (hf : f ≠ []) (hz : z ≠ []) (hpz : Placed z add.node) (hp : Placed (f ++ m ++ z ++ s) ⟨0, span⟩)
    (hp' : Placed (f' ++ m') ⟨0, span'⟩) (hxx : Alike (add.change.tokens x) x')
    (hff : Alike (add.change.tokens f) f') (hyy : Alike (add.change.tokens y) y') :
    span'.start = span.start ∧ span.stop ≤ span'.stop := by
  have ho : Ordered ((x ++ f ++ m) ++ z ++ (s ++ y)) := by simpa [ht] using h.ordered
  have hout : add.change.Outside (x ++ f ++ m) ∧ add.change.Outside (s ++ y) :=
    Change.outside_around hpz hz ho
  rw [isLocal.tokens_outside hout.1.left.left] at hxx
  rw [isLocal.tokens_outside hout.1.left.right] at hff
  rw [isLocal.tokens_outside hout.2.right] at hyy
  obtain ⟨⟨c, hc, hstart⟩, d, hd, hstop⟩ := hpz.ends hz
  obtain ⟨hleft, -, hright⟩ := Ordered.append_iff.1 ho
  obtain ⟨-, -, hmid⟩ := Ordered.append_iff.1 hleft
  constructor
  · have hfront : x' ++ f' = x ++ f := by
      have hold : a ++ b = (x ++ f) ++ (m ++ z ++ s ++ y) := by simp [ht]
      have hnew : a ++ i ++ b' = (x' ++ f') ++ (m' ++ y') := by simp [ht']
      refine h.front hold hnew (by simp [hxx.length_eq, hff.length_eq]) fun t ht => ?_
      have h₁ := hmid t (List.mem_append_left _ ht) c hc
      have h₂ := hleft.left.nonempty t (List.mem_append_left _ ht)
      change t.start < add.node.span.start
      omega
    obtain ⟨-, rfl⟩ := List.append_inj hfront hxx.length_eq.symm
    obtain ⟨t, f, rfl⟩ := List.exists_cons_of_ne_nil hf
    exact (hp'.start t rfl).trans (hp.start t rfl).symm
  · obtain ⟨n, l, hn⟩ : ∃ n l, f ++ m ++ z ++ s = n ++ [l] := by
      obtain hnil | ⟨n, l, hn⟩ := List.eq_nil_or_concat (f ++ m ++ z ++ s)
      · simp [hf] at hnil
      · exact ⟨n, l, hn.trans List.concat_eq_append⟩
    obtain ⟨n', l', hn'⟩ : ∃ n l, f' ++ m' = n ++ [l] := by
      obtain hnil | ⟨n, l, hn⟩ := List.eq_nil_or_concat (f' ++ m')
      · have := hff.length_eq
        simp_all
      · exact ⟨n, l, hn.trans List.concat_eq_append⟩
    rw [hn] at ht hp
    rw [hn'] at ht' hp'
    have hold : a ++ b = (x ++ n) ++ l :: y := by simp [ht]
    have hnew : a ++ i ++ b' = (x' ++ n') ++ l' :: y' := by simp [ht']
    have hback := h.back hold hnew hyy.length_eq fun t ht => by
      have := hright d (List.mem_append_right _ hd) t (List.mem_append_right _ ht)
      change add.node.span.stop ≤ t.start
      omega
    have h₁ : span.stop = l.span.stop := hp.stop l List.getLast?_concat
    have h₂ : span'.stop = l'.span.stop := hp'.stop l' List.getLast?_concat
    omega

end Addition

open NamespaceMember Addition in
/-- A namespace that touches a position still does when a line is put into it. -/
theorem Twins.mem_enclosingAll {add : Addition} {w w' : List Token} {ms ms' : List NamespaceMember}
    (h : Twins add.change w w' ms ms') {a i b b' : List Token} (hin : PutIn add.target a i b b')
    {x y x' y' : List Token} (ht : a ++ b = x ++ w ++ y) (ht' : a ++ i ++ b' = x' ++ w' ++ y')
    (hxx : Alike (add.change.tokens x) x') (hyy : Alike (add.change.tokens y) y') {position : Nat}
    {e : EnclosingNamespace} (he : e ∈ enclosingAll position ms) {line : Using} (hline : line ∈ e.usings)
    (hhits : add.hits line) :
    (∃ w₁ z w₂, w = w₁ ++ z ++ w₂ ∧ z ≠ [] ∧ Placed z add.node) ∧
      ∃ e' ∈ enclosingAll position ms', bare (add.insert e.usings) = bare e'.usings := by
  induction h generalizing x y x' y' with
  | nil => simp [enclosingAll] at he
  | @typeDecl f v w' r r' decl decl' ms ms' hf hv hp hw hs ih =>
    rw [enclosingAll, enclosing, List.nil_append] at he
    have hold : a ++ b = (x ++ (f ++ v)) ++ r ++ y := by simp [ht]
    have hnew : a ++ i ++ b' = (x' ++ w') ++ r' ++ y' := by simp [ht']
    obtain ⟨⟨w₁, z, w₂, rfl, hz⟩, e', he', hus⟩ := ih hold hnew (by
      rw [Change.tokens_append]
      exact hxx.append hw) hyy he
    exact ⟨⟨f ++ v ++ w₁, z, w₂, by simp, hz⟩, e', by rwa [enclosingAll, enclosing, List.nil_append], hus⟩
  | @namespaceDecl f u v c f' u' v' c' r r' name name' fileScoped fileScoped' us us' inner inner' ms ms' span span'
      hf hu hus hp hp' hff huu hcc hv hs ihv ihs =>
    rw [enclosingAll] at he
    obtain he | he := List.mem_append.1 he
    · rw [enclosing] at he
      split at he
      · rename_i hposition
        simp only [Bool.and_eq_true, decide_eq_true_eq] at hposition
        -- the new namespace touches the position too, wherever in it the line comes
        have touching {m z s : List Token} (hsplit : u ++ v ++ c = m ++ z ++ s) (hz : z ≠ [])
            (hpz : Placed z add.node) {e' : EnclosingNamespace}
            (he' : e' ∈ (⟨name', us'⟩ : EnclosingNamespace) :: enclosingAll position inner') :
            e' ∈ enclosingAll position (.namespaceDecl name' fileScoped' us' inner' span' :: ms') := by
          have hall : f ++ u ++ v ++ c = f ++ m ++ z ++ s := by simpa using congrArg (f ++ ·) hsplit
          have hold : a ++ b = x ++ (f ++ m ++ z ++ s) ++ (r ++ y) := by
            rw [ht, ← hall]
            simp
          have hnew : a ++ i ++ b' = x' ++ (f' ++ (u' ++ v' ++ c')) ++ (r' ++ y') := by simp [ht']
          obtain ⟨hstart, hstop⟩ := touches hin hold hnew hf hz hpz (hall ▸ hp) (by simpa using hp') hxx hff (by
            rw [Change.tokens_append]
            exact hs.alike.append hyy)
          rw [enclosingAll, enclosing, if_pos (by simp; omega)]
          exact List.mem_append_left _ he'
        obtain rfl | he := List.mem_cons.1 he
        · obtain ⟨w₁, z, w₂, rfl, hz, hpz⟩ := Lines.mem hu hline
          have hpz := placed_node hhits.1 hpz
          exact ⟨⟨f ++ w₁, z, w₂ ++ v ++ c ++ r, by simp, hz.ne_nil, hpz⟩, _,
            touching (m := w₁) (z := z) (s := w₂ ++ v ++ c) (by simp) hz.ne_nil hpz (List.mem_cons_self ..), hus⟩
        · have hold : a ++ b = (x ++ (f ++ u)) ++ v ++ (c ++ r ++ y) := by simp [ht]
          have hnew : a ++ i ++ b' = (x' ++ (f' ++ u')) ++ v' ++ (c' ++ r' ++ y') := by simp [ht']
          obtain ⟨⟨w₁, z, w₂, rfl, hz, hpz⟩, e', he', hb⟩ := ihv hold hnew (by
            simp only [Change.tokens_append]
            exact hxx.append (hff.append huu)) (by
            simp only [Change.tokens_append]
            exact (hcc.append hs.alike).append hyy) he
          exact ⟨⟨f ++ u ++ w₁, z, w₂ ++ c ++ r, by simp, hz, hpz⟩, e',
            touching (m := u ++ w₁) (z := z) (s := w₂ ++ c) (by simp) hz hpz (List.mem_cons_of_mem _ he'), hb⟩
      · simp at he
    · have hold : a ++ b = (x ++ (f ++ u ++ v ++ c)) ++ r ++ y := by simp [ht]
      have hnew : a ++ i ++ b' = (x' ++ (f' ++ u' ++ v' ++ c')) ++ r' ++ y' := by simp [ht']
      obtain ⟨⟨w₁, z, w₂, rfl, hz⟩, e', he', hb⟩ := ihs hold hnew (by
        simp only [Change.tokens_append]
        exact hxx.append (((hff.append huu).append hv.alike).append hcc)) hyy he
      exact ⟨⟨f ++ u ++ v ++ c ++ w₁, z, w₂, by simp, hz⟩, e', by
        rw [enclosingAll]
        exact List.mem_append_right _ he', hb⟩

/-! ### A line put into a text -/

namespace Lexed

open Text (byteLength)

/-- Tokens of the same lexemes, further behind. -/
theorem later_tokensFrom {offset offset' : Nat} (h : offset ≤ offset') (index index' : Nat)
    (lexemes : List Lexeme) : List.Forall₂ (fun t t' => t.span.stop ≤ t'.span.stop)
      (tokensFrom offset index lexemes) (tokensFrom offset' index' lexemes) := by
  induction lexemes generalizing offset offset' index index' with
  | nil => exact .nil
  | cons lexeme lexemes ih =>
    obtain ⟨kind, text⟩ := lexeme
    have hrest := Nat.add_le_add_right h (byteLength text)
    cases kind with
    | token kind =>
      refine .cons ?_ (ih hrest _ _)
      simpa only [Token.span, Span.ofLength] using Nat.add_le_add_right h _
    | _ => exact ih hrest _ _

/-- Lexemes put between others. -/
theorem putIn {first put second : List Lexeme} (hne : ∀ lexeme ∈ first ++ (put ++ second), lexeme.text ≠ [])
    (hput : tokensFrom 0 0 put ≠ []) {target : Span} (hstart : target.start ≤ byteLength (written first))
    (hstop : byteLength (written first) ≤ target.stop) : ∃ i b b',
      tokensFrom 0 0 (first ++ second) = tokensFrom 0 0 first ++ b ∧
      tokensFrom 0 0 (first ++ (put ++ second)) = tokensFrom 0 0 first ++ i ++ b' ∧
      Alike (tokensFrom 0 0 put) i ∧ Alike b b' ∧ PutIn target (tokensFrom 0 0 first) i b b' := by
  have hfirst : ∀ lexeme ∈ first, lexeme.text ≠ [] := fun x hx => hne x (by simp [hx])
  have hsecond : ∀ lexeme ∈ second, lexeme.text ≠ [] := fun x hx => hne x (by simp [hx])
  have hold := @tokensFrom_append 0 0 first second
  have hnew := (@tokensFrom_append 0 0 first (put ++ second)).trans
    ((congrArg _ (tokensFrom_append put second)).trans (List.append_assoc ..).symm)
  refine ⟨_, _, _, hold, hnew, alike_tokensFrom .., alike_tokensFrom .., ?_, ?_, later_tokensFrom ?_ _ _ _,
    ?_, ?_, ?_⟩
  · intro t ht
    have := tokensFrom_bounds hfirst ht
    omega
  · intro t ht
    have := tokensFrom_bounds hsecond ht
    omega
  · omega
  · intro hnil
    have hl : Alike [] (tokensFrom 0 0 put) := hnil ▸ alike_tokensFrom 0 0
    exact hput (Alike.nil_left.1 hl)
  · rw [← hold]
    exact ordered_tokensFrom fun x hx => hne x (by simp at hx ⊢; tauto)
  · rw [← hnew]
    exact ordered_tokensFrom hne

theorem ofText_ofList {lexemes : List Lexeme} (h : Scans true (written lexemes) lexemes) :
    Lexed.ofText (String.ofList (written lexemes)) = .ok (ofLexemes lexemes) :=
  ofText_eq_ok.2 ⟨_, by rwa [String.toList_ofList], rfl⟩

end Lexed

theorem written_dottedLexemes (head : String) (tail : List String) :
    head.toList ++ written (dottedLexemes tail) = (".".intercalate (head :: tail)).toList := by
  induction tail generalizing head with
  | nil => simp [dottedLexemes]
  | cons name tail ih =>
    rw [String.intercalate_cons_cons, String.toList_append, ← ih]
    simp [dottedLexemes, wordLexeme, Scans.mark]

theorem written_usingLexemes (head : String) (tail : List String) :
    written (usingLexemes head tail) = (usingLine (".".intercalate (head :: tail))).toList := by
  rw [usingLine, String.toList_append, String.toList_append, ← written_dottedLexemes]
  simp [usingLexemes, wordLexeme, Scans.mark]

theorem isBlank_lineEnding (text : String) :
    (lineEnding text).toList ≠ [] ∧ ∀ c ∈ (lineEnding text).toList, Text.isBlank c = true := by
  unfold lineEnding
  split <;> exact ⟨by decide, List.all_eq_true.1 (by decide)⟩

theorem isBlank_indentationAt (text : String) (offset : Nat) :
    ∀ c ∈ (indentationAt text offset).toList, Text.isBlank c = true := by
  unfold indentationAt
  split
  · simp
  · dsimp only
    split
    · rename_i h
      simpa using h
    · simp

/-- The characters between a new line and the one next to it. -/
structure IsGap (gap : String) : Prop where
  ne_nil : gap.toList ≠ []
  blank : ∀ c ∈ gap.toList, Text.isBlank c = true

theorem isGap_lineEnding_append (text : String) {indent : String}
    (h : ∀ c ∈ indent.toList, Text.isBlank c = true) : IsGap (lineEnding text ++ indent) where
  ne_nil := by simp [(isBlank_lineEnding text).1]
  blank c hc := by
    rw [String.toList_append] at hc
    exact (List.mem_append.1 hc).elim ((isBlank_lineEnding text).2 c) (h c)

namespace SourceTree

variable {text : String} {tree : SourceTree}

open Text (byteLength)

/-- What is put in at an offset that lexemes divide. -/
theorem insert?_written {first second : List Lexeme} (h : text.toList = written (first ++ second))
    (inserted : String) : Text.insert? text (byteLength (written first)) inserted =
      some (String.ofList (written first ++ inserted.toList ++ written second)) := by
  have hcut : Text.cut? text.toList (Span.empty (byteLength (written first))) =
      some (written first, [], written second) := by
    rw [h, written_append]
    exact Lexed.cut?_append (written first) [] (written second) rfl rfl
  rw [Text.insert?, Text.replace?, hcut]
  rfl

/-- Lexemes put in as the tokens of a new line: the lines of the document have it among them, and the
namespaces that have it in theirs touch the positions that they did. The directives and the comments that
the document opens with stay. -/
theorem ofText_put {add : Addition} {first put second : List Lexeme} (h : ofText text = .ok tree)
    (hs : Scans true text.toList (first ++ second))
    (hs' : Scans true (written (first ++ (put ++ second))) (first ++ (put ++ second)))
    (hfits : add.change.Fits (Lexed.tokensFrom 0 0 (first ++ second)) (parts tree.unit))
    (hput : Lexed.PutAt (byteLength (written first)) put add.tokens)
    (hsees : add.sees =
      Lexed.BehindSame (Lexed.directivesFrom 0 (first ++ second)) (Lexed.directivesFrom 0 (first ++ (put ++ second))))
    (hstart : add.target.start ≤ byteLength (written first))
    (hstop : byteLength (written first) ≤ add.target.stop)
    (hchange : ∀ b, Lexed.tokensFrom 0 0 (first ++ second) = Lexed.tokensFrom 0 0 first ++ b →
      add.change.tokens (Lexed.tokensFrom 0 0 (first ++ second)) =
        Lexed.tokensFrom 0 0 first ++ add.tokens ++ b)
    (hheader : Lexed.headerFrom 0 none (first ++ (put ++ second)) = Lexed.headerFrom 0 none (first ++ second)) :
    ∃ tree₁, ofText (String.ofList (written (first ++ (put ++ second)))) = .ok tree₁ ∧
      bare { tree with unit := add.change.apply tree.unit } = bare tree₁ ∧ tree.MetBy id tree₁ ∧
      ∀ position, ∀ e ∈ tree.unit.enclosing position, ∀ u ∈ e.usings, add.hits u →
        ∃ e' ∈ tree₁.unit.enclosing position, bare (add.insert e.usings) = bare e'.usings := by
  obtain ⟨_, hl, hunit, hdirs, hhead⟩ := ofText_eq_ok.1 h
  obtain ⟨hread, ho⟩ := readFrom hl hunit
  obtain rfl : _ = Lexed.ofLexemes (first ++ second) :=
    Except.ok.inj (hl.symm.trans (Lexed.ofText_eq_ok.2 ⟨_, hs, rfl⟩))
  have hnil : Lexed.tokensFrom 0 0 put ≠ [] := by
    obtain ⟨t, r, hhead, -⟩ := add.head
    intro hnil
    have hlength := hput.alike.length_eq
    simp [hnil, hhead] at hlength
  obtain ⟨i, b, b', hold, hnew, hi, hb, hin⟩ := Lexed.putIn hs'.text_ne_nil hnil hstart hstop
  have hseen : add.change.Seen (add.change.tokens (Lexed.tokensFrom 0 0 (first ++ second)))
      (Lexed.tokensFrom 0 0 (first ++ (put ++ second))) := by
    rw [hchange b hold]
    refine ⟨?_, ?_, Lexed.ordered_tokensFrom hs'.text_ne_nil⟩
    · rw [hnew]
      exact ((Alike.refl _).append (hput.alike.trans hi)).append hb
    · change List.Forall₂ add.sees _ _
      rw [hsees]
      exact hput.forall₂_put hs.text_ne_nil hs'.text_ne_nil hold
  obtain ⟨unit₁, hunit₁, hbare, hmeets⟩ := hread.reread _ add.lawful hfits _ hseen
    (String.ofList (written (first ++ (put ++ second)))).utf8ByteSize
  have hbare : bare { tree with unit := add.change.apply tree.unit } =
      bare (SourceTree.mk unit₁ (Lexed.directivesFrom 0 (first ++ (put ++ second)))
        (Lexed.headerFrom 0 none (first ++ (put ++ second)))) := by
    have hdirectives : bare (Lexed.directivesFrom 0 (first ++ second)) =
        bare (Lexed.directivesFrom 0 (first ++ (put ++ second))) := by
      rw [Lexed.directivesFrom_filter 0, @Lexed.directivesFrom_filter _ (first ++ (put ++ second)) 0]
      simp [hput.directives]
    simp only [Lexed.ofLexemes] at hdirs hhead
    rw [hheader, ← hhead, hdirs]
    simp only [bare, SourceTree.mk.injEq] at hbare hdirectives ⊢
    exact ⟨hbare, hdirectives, trivial⟩
  refine ⟨⟨unit₁, _, _⟩, ofText_eq_ok.2 ⟨_, Lexed.ofText_ofList hs', hunit₁, rfl, rfl⟩, hbare,
    ⟨add.change, add.lawful, rfl, hsees.trans (by rw [hdirs]; rfl), hmeets⟩, fun position e he u hu hhits => ?_⟩
  obtain ⟨x, w, x', w', htokens, htokens', -, hxx, htwins⟩ :=
    twins_of_runOn add.lawful hunit hunit₁ ho hfits hseen
  have hold' : _ ++ b = x ++ w ++ [] := hold.symm.trans (htokens.trans (List.append_nil _).symm)
  have hnew' : _ ++ i ++ b' = x' ++ w' ++ [] := hnew.symm.trans (htokens'.trans (List.append_nil _).symm)
  exact (htwins.mem_enclosingAll hin hold' hnew' hxx (.refl _) he hu hhits).2

/-- The lexemes of a line, from its first word to its semicolon. -/
structure LineLexemes (u : Using) (first middle second : List Lexeme) : Prop where
  word : u.isGlobal = false → ∃ m, middle = ⟨.token .keyword, "using".toList⟩ :: m
  semicolon : ∃ m, middle = m ++ [Scans.mark ';']
  start : u.span.start = byteLength (written first)
  stop : u.span.stop = byteLength (written (first ++ middle))
  before : ∀ add : Addition, add.target = u.span → add.behind = false → ∀ b,
    Lexed.tokensFrom 0 0 (first ++ (middle ++ second)) = Lexed.tokensFrom 0 0 first ++ b →
    add.change.tokens (Lexed.tokensFrom 0 0 (first ++ (middle ++ second))) =
      Lexed.tokensFrom 0 0 first ++ add.tokens ++ b
  behind : ∀ add : Addition, add.target = u.span → add.behind = true → ∀ b,
    Lexed.tokensFrom 0 0 (first ++ (middle ++ second)) = Lexed.tokensFrom 0 0 (first ++ middle) ++ b →
    add.change.tokens (Lexed.tokensFrom 0 0 (first ++ (middle ++ second))) =
      Lexed.tokensFrom 0 0 (first ++ middle) ++ add.tokens ++ b

theorem exists_lineLexemes (h : ofText text = .ok tree) {us : List Using} (hus : .usings us ∈ parts tree.unit)
    {u : Using} (hu : u ∈ us) : ∃ first middle second,
      Scans true text.toList (first ++ (middle ++ second)) ∧ LineLexemes u first middle second := by
  obtain ⟨lexed, hl, hunit, -⟩ := ofText_eq_ok.1 h
  obtain ⟨hread, ho⟩ := readFrom hl hunit
  obtain ⟨lexemes, hs, rfl⟩ := Lexed.ofText_eq_ok.1 hl
  obtain ⟨x, v, y, hxvy, hlines⟩ := hread.laid.mem hus
  obtain ⟨v₁, z, v₂, rfl, hz, hpz⟩ := Addition.Lines.mem hlines hu
  have hsplit : Lexed.tokensFrom 0 0 lexemes = (x ++ v₁) ++ z ++ (v₂ ++ y) := hxvy.trans (by simp)
  obtain ⟨first, middle, second, rfl, hfirst, hupTo, hmiddle, -, ⟨k, xs, hhead⟩, ⟨c, hc, hlast⟩, hstart, hstop⟩ :=
    Lexed.tokensFrom_placed hsplit hz.ne_nil hpz
  -- what becomes of the tokens
  have hchange (add : Addition) (ht : add.target = u.span) : add.change.tokens ((x ++ v₁) ++ z ++ (v₂ ++ y)) =
      x ++ v₁ ++ ((if add.behind then [] else add.tokens) ++ z ++ (if add.behind then add.tokens else [])) ++
        (v₂ ++ y) := by
    have ho : Ordered ((x ++ v₁) ++ z ++ (v₂ ++ y)) := hsplit ▸ ho
    have hpz := Addition.placed_node ht.symm hpz
    obtain ⟨hleft, hright⟩ : add.change.Outside (x ++ v₁) ∧ add.change.Outside (v₂ ++ y) :=
      Change.outside_around hpz hz.ne_nil ho
    have hmid : add.change.tokens z = _ := Change.tokens_around hpz ho.left.right hz.ne_nil
    rw [Change.tokens_append, Change.tokens_append, Addition.isLocal.tokens_outside hleft,
      Addition.isLocal.tokens_outside hright, hmid]
  refine ⟨first, middle, second, hs, fun hglobal => ?_, ?_, hstart, ?_, fun add ht hb b hrest => ?_,
    fun add ht hb b hrest => ?_⟩
  · obtain ⟨t, r, rfl, hword⟩ := hz.head hglobal
    obtain ⟨middle, rfl⟩ := List.head?_eq_some_iff.1 hhead
    have hbare := (List.cons.inj hmiddle).1
    simp only [Token.isKeyword, Bool.and_eq_true, beq_iff_eq] at hword
    simp only [bare, hword, Token.mk.injEq, true_and, and_true] at hbare
    exact ⟨middle, by rw [hbare.1, ← hbare.2, String.toList_ofList]⟩
  · obtain ⟨r, t, rfl, hsemi⟩ := hz.last
    obtain ⟨middle, rfl⟩ := List.getLast?_eq_some_iff.1 hlast
    obtain rfl : c = t := by simpa using hc.symm
    simp only [Token.isPunct, Bool.and_eq_true, beq_iff_eq] at hsemi
    exact ⟨middle, by rw [hsemi.1, hsemi.2]; rfl⟩
  · rw [written_append, Text.byteLength_append]
    exact hstop
  · rw [hsplit, hfirst, List.append_assoc] at hrest
    rw [hsplit, hfirst, hchange add ht, hb, ← List.append_cancel_left hrest]
    simp
  · rw [hsplit, hupTo] at hrest
    rw [hsplit, hupTo, hchange add ht, hb, ← List.append_cancel_left hrest]
    simp

/-- The tokens of the line, with blanks before or behind them. -/
theorem putAt_usingLexemes {head : String} {tail : List String} {tokens : List Token}
    (h : Alike tokens (Lexed.tokensFrom 0 0 (usingLexemes head tail))) (hplaces : ∀ t ∈ tokens, t.start = 0)
    (offset : Nat) (gap : List Char) : Lexed.PutAt offset (usingLexemes head tail ++ [⟨.blank, gap⟩]) tokens ∧
      Lexed.PutAt offset (⟨.blank, gap⟩ :: usingLexemes head tail) tokens := by
  have hstart (t : Token) (ht : t ∈ tokens) (hpos : 0 < t.start) : t.start = offset :=
    absurd hpos (Nat.not_lt_of_le (Nat.le_of_eq (hplaces t ht)))
  refine ⟨⟨?_, hstart, by simp [filter_directives_usingLexemes]⟩, ?_, hstart, by simp [filter_directives_usingLexemes]⟩
  · rw [Lexed.tokensFrom_append]
    exact h.trans (congrArg bare (List.append_nil _).symm)
  · exact h.trans (Lexed.alike_tokensFrom (0 + byteLength gap) 0)

/-- A line that imports a namespace was put next to another one. -/
structure Added (add : Addition) (u : Using) (space : String) (tree tree' : SourceTree) : Prop where
  hits : add.hits u
  imports : add.line.Imports space
  bare_eq : bare { tree with unit := add.change.apply tree.unit } = bare tree'
  met : tree.MetBy id tree'
  enclosing : ∀ position, ∀ e ∈ tree.unit.enclosing position, u ∈ e.usings →
    ∃ e' ∈ tree'.unit.enclosing position, bare (add.insert e.usings) = bare e'.usings

section

variable {us : List Using} {u : Using} {gap space : String} (h : ofText text = .ok tree)
  (hus : .usings us ∈ parts tree.unit) (hu : u ∈ us) (hgap : IsGap gap) (hspace : IsNamespaceName space)
include h hus hu hgap hspace

/-- The new line before another one. -/
theorem ofText_before (hglobal : u.isGlobal = false) : ∃ text₁ tree₁ add,
    Text.insert? text u.span.start (usingLine space ++ gap) = some text₁ ∧ ofText text₁ = .ok tree₁ ∧
      add.behind = false ∧ Added add u space tree tree₁ := by
  obtain ⟨head, tail, rfl, hwords⟩ := hspace
  obtain ⟨first, middle, second, hs, hline⟩ := exists_lineLexemes h hus hu
  obtain ⟨add, htarget, hbehind, hsees, halike, hplaces, himports⟩ := Addition.exists_of_isWord hwords u.span false _
  have hhits : add.hits u := ⟨htarget.symm, fun _ => hglobal⟩
  have hput := (putAt_usingLexemes halike hplaces (byteLength (written first)) gap.toList).1
  have hinsert := insert?_written hs.eq_written (usingLine (".".intercalate (head :: tail)) ++ gap)
  have hs' : Scans true
      (written (first ++ (usingLexemes head tail ++ [⟨.blank, gap.toList⟩] ++ (middle ++ second))))
      (first ++ (usingLexemes head tail ++ [⟨.blank, gap.toList⟩] ++ (middle ++ second))) := by
    obtain ⟨m, rfl⟩ := hline.word hglobal
    exact hs.before_using hwords hgap.ne_nil hgap.blank
  have hheader : Lexed.headerFrom 0 none
      (first ++ (usingLexemes head tail ++ [⟨.blank, gap.toList⟩] ++ (middle ++ second))) =
        Lexed.headerFrom 0 none (first ++ (middle ++ second)) := by
    obtain ⟨m, rfl⟩ := hline.word hglobal
    exact Lexed.headerFrom_token ..
  obtain ⟨tree₁, htree₁, hbare, hmet, henclosing⟩ := ofText_put h hs hs' (.inr ⟨_, hus, u, hu, hhits⟩) hput hsees
    (Nat.le_of_eq (htarget ▸ hline.start)) (hline.start ▸ htarget ▸ add.target.start_le_stop)
    (hline.before add htarget hbehind) hheader
  refine ⟨_, tree₁, add, ?_, htree₁, hbehind, hhits, himports, hbare, hmet, fun position e he hu =>
    henclosing position e he u hu hhits⟩
  rw [hline.start, hinsert]
  simp [← written_usingLexemes]

/-- The new line behind another one. -/
theorem ofText_behind : ∃ text₁ tree₁ add,
    Text.insert? text u.span.stop (gap ++ usingLine space) = some text₁ ∧ ofText text₁ = .ok tree₁ ∧
      add.behind = true ∧ Added add u space tree tree₁ := by
  obtain ⟨head, tail, rfl, hwords⟩ := hspace
  obtain ⟨first, middle, second, hs, hline⟩ := exists_lineLexemes h hus hu
  obtain ⟨add, htarget, hbehind, hsees, halike, hplaces, himports⟩ := Addition.exists_of_isWord hwords u.span true _
  have hhits : add.hits u := ⟨htarget.symm, by simp [hbehind]⟩
  have hput := (putAt_usingLexemes halike hplaces (byteLength (written (first ++ middle))) gap.toList).2
  rw [← List.append_assoc] at hs
  have hinsert := insert?_written hs.eq_written (gap ++ usingLine (".".intercalate (head :: tail)))
  have hs' : Scans true
      (written (first ++ middle ++ (⟨.blank, gap.toList⟩ :: usingLexemes head tail ++ second)))
      (first ++ middle ++ (⟨.blank, gap.toList⟩ :: usingLexemes head tail ++ second)) := by
    obtain ⟨m, rfl⟩ := hline.semicolon
    have hs : Scans true text.toList (first ++ m ++ Scans.mark ';' :: second) := by simpa using hs
    simpa using hs.behind_using hwords hgap.ne_nil hgap.blank
  have hheader : Lexed.headerFrom 0 none
      (first ++ middle ++ (⟨.blank, gap.toList⟩ :: usingLexemes head tail ++ second)) =
        Lexed.headerFrom 0 none (first ++ middle ++ second) := by
    obtain ⟨m, rfl⟩ := hline.semicolon
    simpa [Scans.mark] using Lexed.headerFrom_token (first ++ m) ..
  have hchange := hline.behind add htarget hbehind
  rw [← List.append_assoc] at hchange
  obtain ⟨tree₁, htree₁, hbare, hmet, henclosing⟩ := ofText_put h hs hs' (.inr ⟨_, hus, u, hu, hhits⟩) hput hsees
    (hline.stop ▸ htarget ▸ add.target.start_le_stop) (Nat.le_of_eq (htarget ▸ hline.stop.symm)) hchange hheader
  refine ⟨_, tree₁, add, ?_, htree₁, hbehind, hhits, himports, hbare, hmet, fun position e he hu =>
    henclosing position e he u hu hhits⟩
  rw [hline.stop, hinsert]
  simp [← written_usingLexemes]

end

/-! ### A line that opens a document -/

/-- The tokens of a line before those of a document without lines. -/
theorem runOn_opening {tokens i b' : List Token} {size : Nat} {unit : CompilationUnit}
    (h : runOn compilationUnit tokens size = .ok unit) (ho : Ordered tokens) (hus : unit.usings = [])
    {add : Addition} (hi : Alike add.tokens i) {sees : Token → Token → Prop}
    (hb : (Change.none sees).Seen ((Change.none sees).tokens tokens) b') (size' : Nat) : ∃ unit',
      runOn compilationUnit (i ++ b') size' = .ok unit' ∧ bare { unit with usings := [add.line] } = bare unit' ∧
      List.Forall₂ (Change.none sees).Meets (parts unit) (parts unit') := by
  obtain ⟨s', hs⟩ := runOn_eq_ok.1 h
  obtain ⟨⟨us, s₁⟩, hlines, hs⟩ := bind_eq_ok.1 hs
  obtain ⟨⟨ms, s₂⟩, hmembers, hs⟩ := bind_eq_ok.1 hs
  obtain ⟨hrest, -, rfl, rfl⟩ := unitEnd_eq_ok hs
  rw [hus] at hlines
  have halike : Alike tokens b' := by simpa only [Change.tokens_none] using hb.alike
  -- the document has no lines, and it has none behind the new one
  obtain ⟨hstop, rfl⟩ : using? (Cursor.ofTokens tokens size) = .ok (none, s₁) ∧
      s₁ = Cursor.ofTokens tokens size := by
    cases (many_eq_ok progresses_using?).1 hlines with
    | stop hstop =>
      obtain ⟨-, rfl⟩ | ⟨_, _, hsome, -⟩ := using?_eq_ok hstop
      · exact ⟨hstop, rfl⟩
      · simp at hsome
  obtain ⟨y, t₁, hy, ht₁, hline⟩ := add.reads (Cursor.ofTokens (i ++ b') size') i b' rfl hi
  have hstop' : using? t₁ = .ok (none, t₁) := by
    obtain ⟨v, hv, hsteady⟩ := Steady.using? _ _ _ hstop
    obtain rfl := hv.unique (.refl _)
    obtain ⟨z, t', hz, -, hbare⟩ := hsteady t₁ [] t₁.rest rfl (.refl _) (.of_alike (ht₁ ▸ halike))
    cases z with
    | some z => simp at hbare
    | none =>
      obtain ⟨-, rfl⟩ | ⟨_, _, hsome, -⟩ := using?_eq_ok hz
      · exact hz
      · simp at hsome
  have hlines' : Parser.usings (Cursor.ofTokens (i ++ b') size') = .ok ([y], t₁) :=
    (many_eq_ok progresses_using?).2 (.next hy (.stop hstop'))
  -- the members are read again as they were
  have members {sees : Token → Token → Prop} (n : Nat) (t : Cursor)
      (ht : (Change.none sees).Seen ((Change.none sees).tokens tokens) t.rest) (hn : t.rest.length < n + 1) :
      ∃ ms' t', (Grammar.layered (n + 1)).namespaceMembers (n + 1) t = .ok (ms', t') ∧ t'.rest = [] ∧
        bare (Outline.map id id unit.members) = bare ms' ∧
        List.Forall₂ (Change.none sees).Meets (parts unit.members) (parts ms') := by
    obtain ⟨w, ps, hps, hm⟩ :=
      mirrors_namespaceMembers (Change.lawful_none sees) _ _ (Nat.le_succ (n + 1)) _ _ _ hmembers ho
    obtain ⟨-, hrun⟩ := hm.mirror (Change.fits_none ..) (by
      rw [hrest]
      exact .of_alike (.refl _))
    obtain ⟨ms', t', qs, hms', ht', hms, hqs, hmeets⟩ := hrun t ht hn
    rw [List.nil_append] at hps hqs
    rw [hrest] at ht'
    exact ⟨ms', t', hms', Alike.nil_left.1 ht'.alike, hms, hps ▸ hqs ▸ hmeets⟩
  obtain ⟨_, _, hsame, -, hold, -⟩ :=
    members tokens.length (Cursor.ofTokens tokens size) (.of_alike (.refl _) ho) (Nat.lt_succ_self _)
  obtain ⟨rfl, -⟩ := Prod.mk.inj (Except.ok.inj (hsame.symm.trans hmembers))
  obtain ⟨ms', t₂, hms', ht₂, hnew, hmeets⟩ := members (i ++ b').length t₁ (ht₁ ▸ hb) (by
    rw [ht₁, List.length_append]
    omega)
  refine ⟨⟨[y], ms', Span.ofLength 0 t₂.size⟩, runOn_eq_ok.2 ⟨t₂, bind_eq_ok.2 ⟨_, hlines',
    bind_eq_ok.2 ⟨_, hms', by simp [ht₂]⟩⟩⟩, ?_, .cons (.usings ..) hmeets⟩
  have hms := hold.symm.trans hnew
  simp only [bare, List.map_cons, List.map_nil] at hline hms ⊢
  simp [hline, hms]

theorem kind_of_tokensFrom_eq_nil {offset index : Nat} {lexemes : List Lexeme}
    (h : Lexed.tokensFrom offset index lexemes = []) : ∀ lexeme ∈ lexemes, ∀ kind, lexeme.kind ≠ .token kind := by
  induction lexemes generalizing offset index with
  | nil => simp
  | cons lexeme lexemes ih =>
    obtain ⟨kind, text⟩ := lexeme
    cases kind with
    | token kind => simp [Lexed.tokensFrom] at h
    | _ => exact List.forall_mem_cons.2 ⟨by simp, ih h⟩

/-- Whether a text ends in a comment or directive that goes on into what is put behind it. -/
def endsOpen (text : String) : Bool :=
  ((Lexeme.ofText text.toList).toOption.bind List.getLast?).any Lexeme.endsLine

theorem endsOpen_eq {lexemes : List Lexeme} (h : Scans true text.toList lexemes) :
    endsOpen text = lexemes.getLast?.any Lexeme.endsLine := by
  rw [endsOpen, Scans.ofText_iff.2 h]
  rfl

/-- The first namespace or type of a document without lines starts with the first token. -/
theorem span_start_of_head {lexed : Lexed} (hl : Lexed.ofText text = .ok lexed)
    (hunit : runOn compilationUnit lexed.tokens text.utf8ByteSize = .ok tree.unit)
    (hus : tree.unit.usings = []) :
    (tree.unit.members = [] ∧ lexed.tokens = []) ∨ ∃ m ms t r, tree.unit.members = m :: ms ∧
      lexed.tokens = t :: r ∧ m.span.start = t.start := by
  have ho := (readFrom hl hunit).2
  obtain ⟨u, v, u', v', htokens, -, hlines, -, htwins⟩ := twins_of_runOn (Change.lawful_none _) hunit hunit ho
    (Change.fits_none _ _ _) (.of_alike (.refl _) ho)
  rw [hus] at hlines
  cases hlines
  rw [List.nil_append] at htokens
  rw [htokens]
  generalize tree.unit.members = members at htwins
  cases htwins with
  | nil => exact .inl ⟨rfl, rfl⟩
  | @typeDecl a v _ x _ decl _ ms _ ha _ hp =>
    obtain ⟨t, a, rfl⟩ := List.exists_cons_of_ne_nil ha
    exact .inr ⟨_, _, t, _, rfl, rfl, hp.start t rfl⟩
  | @namespaceDecl a u v b _ _ _ _ x _ name _ fileScoped _ us _ inner _ ms _ span _ ha _ _ hp =>
    obtain ⟨t, a, rfl⟩ := List.exists_cons_of_ne_nil ha
    exact .inr ⟨_, _, t, _, rfl, rfl, hp.start t rfl⟩

/-- A line at the beginning of a document without lines. -/
theorem ofText_opening {gap space : String} (h : ofText text = .ok tree) (hgap : IsGap gap)
    (hspace : IsNamespaceName space) (hus : tree.unit.usings = [])
    (hopen : tree.unit.members ≠ [] ∨ endsOpen text = false) : ∃ text₁ tree₁, ∃ line : Using,
      Text.insert? text (tree.unit.members.head?.elim text.utf8ByteSize (·.span.start))
        (usingLine space ++ gap) = some text₁ ∧ ofText text₁ = .ok tree₁ ∧ line.Imports space ∧
      bare { tree.unit with usings := [line] } = bare tree₁.unit ∧ tree.MetBy id tree₁ := by
  obtain ⟨head, tail, rfl, hwords⟩ := hspace
  obtain ⟨_, hl, hunit, hdirs, -⟩ := ofText_eq_ok.1 h
  have ho := (readFrom hl hunit).2
  obtain ⟨lexemes, hs, rfl⟩ := Lexed.ofText_eq_ok.1 hl
  obtain ⟨add, -, -, -, halike, hplaces, himports⟩ :=
    Addition.exists_of_isWord hwords (Span.empty 0) false fun _ _ => True
  -- the lexemes before the first token
  obtain ⟨first, second, rfl, hoffset, hfirst, hsecond, hlast⟩ : ∃ first second, lexemes = first ++ second ∧
      tree.unit.members.head?.elim text.utf8ByteSize (·.span.start) = byteLength (written first) ∧
      Lexed.tokensFrom 0 0 first = [] ∧ (∀ lexeme ∈ second.head?, ∃ kind, lexeme.kind = .token kind) ∧
      ∀ lexeme ∈ first.getLast?, lexeme.endsLine = false := by
    obtain ⟨hmembers, hnil⟩ | ⟨m, ms, t, r, hmembers, hcons, hstart⟩ := span_start_of_head hl hunit hus
    · refine ⟨lexemes, [], by simp, ?_, hnil, by simp, fun lexeme hlexeme => ?_⟩
      · rw [hmembers, ← hs.eq_written, ← utf8ByteSize_eq]
        rfl
      · have := hopen.resolve_left (· hmembers)
        rw [endsOpen_eq hs, hlexeme] at this
        exact this
    · obtain ⟨first, kind, xs, second, rfl, hfirst, rfl, -⟩ := Lexed.tokensFrom_split (u := []) hcons
      refine ⟨first, _, rfl, ?_, hfirst, by simp, hs.endsLine_of_token (kind_of_tokensFrom_eq_nil hfirst)⟩
      rw [hmembers]
      simpa using hstart
  have hs' := hs.opening hwords hgap.ne_nil hgap.blank (kind_of_tokensFrom_eq_nil hfirst) hsecond hlast
  have hput := (putAt_usingLexemes halike hplaces (byteLength (written first)) gap.toList).1
  have hne' : ∀ lexeme ∈ first ++ (usingLexemes head tail ++ [⟨.blank, gap.toList⟩] ++ second), lexeme.text ≠ [] :=
    hs'.text_ne_nil
  obtain ⟨i, b', htokens', hi, hb⟩ : ∃ i b', Lexed.tokensFrom 0 0
      (first ++ (usingLexemes head tail ++ [⟨.blank, gap.toList⟩] ++ second)) = i ++ b' ∧
      Alike add.tokens i ∧ Alike (Lexed.tokensFrom 0 0 (first ++ second)) b' := by
    rw [Lexed.tokensFrom_append, Lexed.tokensFrom_append first, hfirst, Lexed.tokensFrom_append]
    refine ⟨_, _, List.nil_append _, ?_, Lexed.alike_tokensFrom ..⟩
    refine halike.trans ?_
    rw [Lexed.tokensFrom_append, show Lexed.tokensFrom _ _ [⟨.blank, gap.toList⟩] = [] from rfl, List.append_nil]
    exact Lexed.alike_tokensFrom ..
  have hplace := hput.forall₂_put hs.text_ne_nil hne' (b := Lexed.tokensFrom 0 0 (first ++ second)) (by
    rw [hfirst, List.nil_append])
  rw [hfirst, List.nil_append, htokens'] at hplace
  have hbehind := List.forall₂_drop add.tokens.length hplace
  rw [List.drop_left, hi.length_eq, List.drop_left] at hbehind
  have ho' : Ordered (i ++ b') := htokens' ▸ Lexed.ordered_tokensFrom hne'
  obtain ⟨unit₁, hunit₁, hbare, hmeets⟩ := runOn_opening hunit ho hus hi (.of_forall₂ hb hbehind ho'.right)
    (String.ofList (written (first ++ (usingLexemes head tail ++ [⟨.blank, gap.toList⟩] ++ second)))).utf8ByteSize
  rw [← htokens'] at hunit₁
  refine ⟨_, ⟨unit₁, _, _⟩, add.line, ?_, ofText_eq_ok.2 ⟨_, Lexed.ofText_ofList hs', hunit₁, rfl, rfl⟩, himports,
    hbare, _, Change.lawful_none _, rfl, ?_, hmeets⟩
  · rw [hoffset, insert?_written hs.eq_written]
    simp [← written_usingLexemes]
  · rw [hdirs]
    rfl

end SourceTree

end CultureLint
