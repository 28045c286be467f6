import CultureLint.Proofs.Token.Lexemes
import Mathlib.Data.List.Nodup

/-! Cutting a text into tokens and directives leaves nothing out: they lie one behind the other, and what
stands before, between and behind them is blank or a comment. -/

namespace CultureLint

open Text (byteLength)

/-! ### What a tiling is -/

/-- A token or a directive. -/
inductive Piece
  | token (t : Token)
  | directive (d : Directive)
deriving DecidableEq, Repr

namespace Piece

def span : Piece → Span
  | .token t => t.span
  | .directive d => d.span

def token? : Piece → Option Token
  | .token t => some t
  | .directive _ => none

def directive? : Piece → Option Directive
  | .token _ => none
  | .directive d => some d

/-- How a piece stands in a text: a token as it is, and a directive from its `#` to the end of the line. -/
def Stands (here behind : List Char) : Piece → Prop
  | .token t => t.text.toList = here
  | .directive d => ∃ line, here = '#' :: line ∧ '\n' ∉ line ∧ behind.head?.all (· == '\n') ∧
      d.text = Text.trim (String.ofList line)

end Piece

/-- Blanks and comments before some other text: a comment goes to the end of the line, or to the first
closing of it. -/
inductive Gap (behind : List Char) : List Char → Prop
  | nil : Gap behind []
  | blank {c : Char} {gap : List Char} (hc : Text.isBlank c = true) (h : Gap behind gap) :
      Gap behind (c :: gap)
  | line {body gap : List Char} (hbody : '\n' ∉ body) (hend : (gap ++ behind).head?.all (· == '\n'))
      (h : Gap behind gap) : Gap behind ('/' :: '/' :: (body ++ gap))
  | block {body gap : List Char} (hbody : ¬ ['*', '/'] <:+: body) (h : Gap behind gap) :
      Gap behind ('/' :: '*' :: (body ++ '*' :: '/' :: gap))

/-- The text, which begins at an offset, consists of the pieces in their places and of gaps around them. -/
inductive Tiles : Nat → List Char → List Piece → Prop
  | last {offset : Nat} {gap : List Char} (hgap : Gap [] gap) : Tiles offset gap []
  | piece {offset : Nat} {gap here rest : List Char} {piece : Piece} {pieces : List Piece}
      (hgap : Gap (here ++ rest) gap) (hne : here ≠ [])
      (hspan : piece.span = Span.ofLength (offset + byteLength gap) (byteLength here))
      (hstands : piece.Stands here rest)
      (h : Tiles (offset + byteLength gap + byteLength here) rest pieces) :
      Tiles offset (gap ++ (here ++ rest)) (piece :: pieces)

/-- The tokens and directives of a text by their starts. -/
def Lexed.pieces (lexed : Lexed) : List Piece :=
  (lexed.tokens.map Piece.token).merge (lexed.directives.map Piece.directive) fun a b =>
    a.span.start ≤ b.span.start

/-! ### One lexeme -/

namespace Lexeme

/-- What is said of a lexeme before some text. -/
def IsComplete (lexeme : Lexeme) (behind : List Char) : Prop :=
  match lexeme.kind with
  | .blank => ∀ c ∈ lexeme.text, Text.isBlank c = true
  | .comment =>
    (∃ body, lexeme.text = '/' :: '/' :: body ∧ '\n' ∉ body ∧ behind.head?.all (· == '\n')) ∨
      ∃ body, lexeme.text = '/' :: '*' :: (body ++ ['*', '/']) ∧ ¬ ['*', '/'] <:+: body
  | .directive => ∃ line, lexeme.text = '#' :: line ∧ '\n' ∉ line ∧ behind.head?.all (· == '\n')
  | .token _ => True

theorem scanComment_eq_some {cs taken rest : List Char} (h : scanComment cs = some (taken, rest)) :
    ∃ body, taken = body ++ ['*', '/'] ∧ cs = taken ++ rest ∧ ¬ ['*', '/'] <:+: body := by
  induction cs using scanComment.induct generalizing taken with
  | case1 => simp [scanComment] at h
  | case2 cs =>
    obtain ⟨rfl, rfl⟩ : taken = ['*', '/'] ∧ rest = cs := by simpa [scanComment, eq_comm] using h
    exact ⟨[], rfl, rfl, by simp⟩
  | case3 c cs hne ih =>
    rw [scanComment] at h
    · obtain ⟨taken', rfl, hrest⟩ := consume_eq_some h
      obtain ⟨body, rfl, rfl, hbody⟩ := ih hrest
      refine ⟨c :: body, rfl, rfl, fun hinfix => ?_⟩
      -- A closing that begins with the first character would have ended the comment there.
      obtain hprefix | hinfix := List.infix_cons_iff.1 hinfix
      · obtain ⟨rfl, hslash⟩ := List.cons_prefix_cons.1 hprefix
        cases body with
        | nil => simp at hslash
        | cons d body =>
          obtain ⟨rfl, -⟩ := List.cons_prefix_cons.1 hslash
          exact hne _ rfl rfl
      · exact hbody hinfix
    · exact hne

theorem notMem_takeWhile (cs : List Char) : '\n' ∉ cs.takeWhile (· != '\n') := fun h => by
  simpa using mem_takeWhile _ h

theorem head?_dropWhile (cs : List Char) : (cs.dropWhile (· != '\n')).head?.all (· == '\n') := by
  have := any_head_dropWhile (· != '\n') cs
  cases h : (cs.dropWhile (· != '\n')).head? with
  | none => rfl
  | some c => simpa [h] using this

theorem isComplete_of_scan {lineStart : Bool} {c : Char} {cs r : List Char} {lexeme : Lexeme}
    (h : scan lineStart c cs = .ok (lexeme, r)) : lexeme.IsComplete r := by
  unfold scan at h
  split at h
  · obtain ⟨rfl, rfl⟩ := Prod.mk.inj (Except.ok.inj h)
    exact mem_takeWhile
  split at h
  · rename_i hl
    simp only [Bool.and_eq_true, decide_eq_true_eq] at hl
    obtain ⟨rfl, rfl⟩ := Prod.mk.inj (Except.ok.inj h)
    obtain ⟨rfl, hl⟩ := hl
    obtain ⟨rest, rfl⟩ := List.head?_eq_some_iff.1 hl
    exact .inl ⟨rest.takeWhile (· != '\n'), rfl, notMem_takeWhile rest, head?_dropWhile rest⟩
  split at h
  · rename_i ho
    simp only [Bool.and_eq_true, decide_eq_true_eq] at ho
    obtain ⟨rfl, ho⟩ := ho
    split at h
    · rename_i body rest' hbody
      obtain ⟨rfl, rfl⟩ := Prod.mk.inj (Except.ok.inj h)
      obtain ⟨body, rfl, -, hbody⟩ := scanComment_eq_some hbody
      exact .inr ⟨body, rfl, hbody⟩
    · cases h
  split at h
  · rename_i hd
    simp only [Bool.and_eq_true, decide_eq_true_eq] at hd
    obtain ⟨rfl, rfl⟩ := Prod.mk.inj (Except.ok.inj h)
    obtain ⟨rfl, -⟩ := hd
    exact ⟨cs.takeWhile (· != '\n'), rfl, notMem_takeWhile cs, head?_dropWhile cs⟩
  · obtain ⟨⟨kind, text, rest⟩, -, h⟩ := exceptBind_eq_ok.1 h
    obtain ⟨rfl, rfl⟩ := Prod.mk.inj (Except.ok.inj h)
    trivial

/-- A blank or a comment makes the gap before a text longer. -/
theorem IsComplete.gap {lexeme : Lexeme} {gap behind : List Char} (h : lexeme.IsComplete (gap ++ behind))
    (hk : lexeme.kind = .blank ∨ lexeme.kind = .comment) (hgap : Gap behind gap) :
    Gap behind (lexeme.text ++ gap) := by
  obtain ⟨kind, text⟩ := lexeme
  obtain rfl | rfl : kind = .blank ∨ kind = .comment := hk
  · change ∀ c ∈ text, Text.isBlank c = true at h
    change Gap behind (text ++ gap)
    induction text with
    | nil => exact hgap
    | cons c text ih =>
      obtain ⟨hc, htext⟩ := List.forall_mem_cons.1 h
      exact .blank hc (ih htext)
  · obtain ⟨body, rfl, hbody, hend⟩ | ⟨body, rfl, hbody⟩ := h
    · exact .line hbody hend hgap
    · simpa using Gap.block hbody hgap

end Lexeme

/-! ### All lexemes -/

namespace Tiles

variable {offset : Nat} {rest : List Char} {pieces : List Piece}

theorem behindGap {lexeme : Lexeme} (hk : lexeme.kind = .blank ∨ lexeme.kind = .comment)
    (hl : lexeme.IsComplete rest) (h : Tiles (offset + byteLength lexeme.text) rest pieces) :
    Tiles offset (lexeme.text ++ rest) pieces := by
  cases h with
  | last hgap => exact .last (Lexeme.IsComplete.gap (by simpa using hl) hk hgap)
  | piece hgap hne hspan hstands h =>
    rw [← List.append_assoc]
    refine .piece (hl.gap hk hgap) hne ?_ hstands ?_
    · rw [hspan, Text.byteLength_append, Nat.add_assoc]
    · simpa only [Text.byteLength_append, Nat.add_assoc] using h

theorem le_start {cs : List Char} (h : Tiles offset cs pieces) :
    ∀ piece ∈ pieces, offset ≤ piece.span.start := by
  induction h with
  | last => simp
  | piece hgap hne hspan hstands h ih =>
    refine List.forall_mem_cons.2 ⟨?_, fun other ho => ?_⟩
    · simp [hspan]
    · have := ih other ho
      omega

/-- The pieces are in order and do not overlap. -/
theorem pairwise {cs : List Char} (h : Tiles offset cs pieces) :
    pieces.Pairwise fun a b => a.span.stop ≤ b.span.start := by
  induction h with
  | last => exact .nil
  | piece hgap hne hspan hstands h ih =>
    refine List.pairwise_cons.2 ⟨fun other ho => ?_, ih⟩
    rw [hspan, Span.stop_ofLength]
    exact h.le_start other ho

theorem start_lt_stop {cs : List Char} (h : Tiles offset cs pieces) :
    ∀ piece ∈ pieces, piece.span.start < piece.span.stop := by
  induction h with
  | last => simp
  | piece hgap hne hspan hstands h ih =>
    refine List.forall_mem_cons.2 ⟨?_, ih⟩
    have := byteLength_pos hne
    simp only [hspan, Span.start_ofLength, Span.stop_ofLength]
    omega

/-- The span of a piece cuts out of the text what the piece stands for. -/
theorem cut? {cs : List Char} (h : Tiles offset cs pieces) (before : List Char)
    (ho : offset = byteLength before) : ∀ piece ∈ pieces, ∃ first here last,
      Text.cut? (before ++ cs) piece.span = some (first, here, last) ∧ piece.Stands here last := by
  induction h generalizing before with
  | last => simp
  | @piece offset gap here rest piece pieces hgap hne hspan hstands h ih =>
    refine List.forall_mem_cons.2 ⟨⟨before ++ gap, here, rest, ?_, hstands⟩, fun other ho' => ?_⟩
    · rw [← List.append_assoc]
      exact Lexed.cut?_append _ _ _ (by simp [hspan, ho]) (by simp [hspan, ho])
    · obtain ⟨first, here', last, hcut, hstands'⟩ :=
        ih (before ++ (gap ++ here)) (by simp [ho, Nat.add_assoc]) other ho'
      refine ⟨first, here', last, ?_, hstands'⟩
      simpa using hcut

end Tiles

namespace Lexed

/-- The tokens and directives among lexemes that start at an offset, the tokens counted from an index on. -/
def piecesFrom (offset index : Nat) : List Lexeme → List Piece
  | [] => []
  | ⟨.token kind, text⟩ :: rest =>
    .token ⟨index, kind, String.ofList text, offset⟩ ::
      piecesFrom (offset + byteLength text) (index + 1) rest
  | ⟨.directive, text⟩ :: rest =>
    .directive ⟨Text.trim (String.ofList text.tail), Span.ofLength offset (byteLength text)⟩ ::
      piecesFrom (offset + byteLength text) index rest
  | ⟨_, text⟩ :: rest => piecesFrom (offset + byteLength text) index rest

variable {offset index : Nat}

theorem perm_piecesFrom (lexemes : List Lexeme) : ((tokensFrom offset index lexemes).map Piece.token ++
    (directivesFrom offset lexemes).map Piece.directive).Perm (piecesFrom offset index lexemes) := by
  induction lexemes generalizing offset index with
  | nil => rfl
  | cons lexeme lexemes ih =>
    obtain ⟨kind, text⟩ := lexeme
    cases kind with
    | blank | comment => exact ih
    | token kind => exact ih.cons _
    | directive => exact List.perm_middle.trans (ih.cons _)

end Lexed

/-- Lexemes one after the other are pieces with gaps around them. -/
theorem Scans.tiles {b : Bool} {cs : List Char} {lexemes : List Lexeme} (h : Scans b cs lexemes)
    (offset index : Nat) : Tiles offset cs (Lexed.piecesFrom offset index lexemes) := by
  induction h generalizing offset index with
  | nil => exact .last .nil
  | @cons b c cs r lexeme lexemes hs hr ih =>
    have hcomplete := Lexeme.isComplete_of_scan hs
    obtain ⟨t, ht, rfl, -⟩ := Lexeme.scan_stable hs
    rw [← List.cons_append, ← ht]
    have hne : lexeme.text ≠ [] := by simp [ht]
    clear hs ht
    obtain ⟨kind, text⟩ := lexeme
    cases kind with
    | blank => exact .behindGap (.inl rfl) hcomplete (ih _ index)
    | comment => exact .behindGap (.inr rfl) hcomplete (ih _ index)
    | directive =>
      obtain ⟨line, rfl, hline, hend⟩ := hcomplete
      exact .piece .nil hne rfl ⟨line, rfl, hline, hend, rfl⟩ (ih _ index)
    | token kind =>
      refine .piece .nil hne ?_ (by simp [Piece.Stands]) (ih _ (index + 1))
      simp [Piece.span, Token.span, utf8ByteSize_ofList, byteLength]

namespace Lexed

theorem index_of_tokensFrom {lexemes : List Lexeme} {i : Nat} {t : Token}
    (h : (tokensFrom offset index lexemes)[i]? = some t) : t.index = index + i := by
  obtain ⟨hi, rfl⟩ := List.getElem?_eq_some_iff.1 h
  have hsplit : tokensFrom offset index lexemes = (tokensFrom offset index lexemes).take i ++
      (tokensFrom offset index lexemes)[i] :: (tokensFrom offset index lexemes).drop (i + 1) := by
    rw [← List.drop_eq_getElem_cons hi, List.take_append_drop]
  obtain ⟨_, _, _, _, -, -, ht, -⟩ := tokensFrom_split hsplit
  rw [ht, List.length_take_of_le (Nat.le_of_lt hi)]

theorem sublist_piecesFrom (lexemes : List Lexeme) :
    ((tokensFrom offset index lexemes).map Piece.token).Sublist (piecesFrom offset index lexemes) ∧
      ((directivesFrom offset lexemes).map Piece.directive).Sublist (piecesFrom offset index lexemes) := by
  induction lexemes generalizing offset index with
  | nil => exact ⟨.slnil, .slnil⟩
  | cons lexeme lexemes ih =>
    obtain ⟨kind, text⟩ := lexeme
    cases kind with
    | blank | comment => exact ih
    | token kind => exact ⟨ih.1.cons_cons _, ih.2.cons _⟩
    | directive => exact ⟨ih.1.cons _, ih.2.cons_cons _⟩

theorem filterMap_token?_piecesFrom (lexemes : List Lexeme) :
    (piecesFrom offset index lexemes).filterMap Piece.token? = tokensFrom offset index lexemes := by
  induction lexemes generalizing offset index with
  | nil => rfl
  | cons lexeme lexemes ih =>
    obtain ⟨kind, text⟩ := lexeme
    cases kind with
    | token kind => exact congrArg (List.cons _) ih
    | _ => exact ih

theorem filterMap_directive?_piecesFrom (lexemes : List Lexeme) :
    (piecesFrom offset index lexemes).filterMap Piece.directive? = directivesFrom offset lexemes := by
  induction lexemes generalizing offset index with
  | nil => rfl
  | cons lexeme lexemes ih =>
    obtain ⟨kind, text⟩ := lexeme
    cases kind with
    | directive => exact congrArg (List.cons _) ih
    | _ => exact ih

/-- The pieces in the order of their starts are the pieces in the order of the text. -/
theorem pieces_ofLexemes {b : Bool} {cs : List Char} {lexemes : List Lexeme} (h : Scans b cs lexemes) :
    (ofLexemes lexemes).pieces = piecesFrom 0 0 lexemes := by
  have htiles := h.tiles 0 0
  have hlt : (piecesFrom 0 0 lexemes).Pairwise fun a b => a.span.start < b.span.start :=
    htiles.pairwise.imp_of_mem fun {a b} ha _ hab => Nat.lt_of_lt_of_le (htiles.start_lt_stop a ha) hab
  have hle : (piecesFrom 0 0 lexemes).Pairwise fun a b => decide (a.span.start ≤ b.span.start) = true :=
    hlt.imp fun hab => decide_eq_true (Nat.le_of_lt hab)
  obtain ⟨htokens, hdirectives⟩ := @sublist_piecesFrom 0 0 lexemes
  have hperm : (ofLexemes lexemes).pieces.Perm (piecesFrom 0 0 lexemes) :=
    (List.merge_perm_append _).trans (perm_piecesFrom lexemes)
  refine hperm.eq_of_pairwise (fun a b ha hb hab hba => ?_) ?_ hle
  · have hnodup : ((piecesFrom 0 0 lexemes).map fun piece => piece.span.start).Nodup :=
      (List.pairwise_map.2 hlt).imp Nat.ne_of_lt
    refine List.inj_on_of_nodup_map hnodup (hperm.subset ha) hb ?_
    have := of_decide_eq_true hab
    have := of_decide_eq_true hba
    omega
  · exact List.pairwise_merge (by simp; omega) (by simp; omega) _ _ (hle.sublist htokens)
      (hle.sublist hdirectives)

/-- A token is written as what stands at its place. -/
theorem slice?_of_mem {text : String} {lexed : Lexed} (h : ofText text = .ok lexed) {t : Token}
    (ht : t ∈ lexed.tokens) : Text.slice? text t.span = some t.text := by
  obtain ⟨lexemes, hs, rfl⟩ := ofText_eq_ok.1 h
  have hmem : Piece.token t ∈ piecesFrom 0 0 lexemes :=
    (sublist_piecesFrom lexemes).1.subset (List.mem_map_of_mem ht)
  obtain ⟨first, here, last, hc, hstands⟩ := (hs.tiles 0 0).cut? [] rfl _ hmem
  have hc : Text.cut? text.toList t.span = some (first, here, last) := hc
  have htext : t.text.toList = here := hstands
  simp [Text.slice?, hc, ← htext]

/-- Cutting a text into tokens and directives loses nothing of it. They stand in the text one behind the
other, each with a text of its own, and everything else is blank or comments; a token knows its number
and what it is written as. -/
theorem tiles_of_ofText {text : String} {lexed : Lexed} (h : ofText text = .ok lexed) :
    Tiles 0 text.toList lexed.pieces ∧
    lexed.pieces.Pairwise (fun a b => a.span.stop ≤ b.span.start) ∧
    (∀ piece ∈ lexed.pieces, piece.span.start < piece.span.stop ∧ (Text.slice? text piece.span).isSome) ∧
    lexed.pieces.filterMap Piece.token? = lexed.tokens ∧
    lexed.pieces.filterMap Piece.directive? = lexed.directives ∧
    ∀ (i : Nat) (t : Token), lexed.tokens[i]? = some t → t.index = i ∧ Text.slice? text t.span = some t.text := by
  have hslice (i : Nat) (t : Token) (ht : lexed.tokens[i]? = some t) := slice?_of_mem h (List.mem_of_getElem? ht)
  obtain ⟨lexemes, hs, rfl⟩ := ofText_eq_ok.1 h
  rw [pieces_ofLexemes hs]
  have htiles := hs.tiles 0 0
  have hcut := htiles.cut? [] rfl
  refine ⟨htiles, htiles.pairwise, fun piece hp => ⟨htiles.start_lt_stop piece hp, ?_⟩,
    filterMap_token?_piecesFrom lexemes, filterMap_directive?_piecesFrom lexemes, fun i t ht => ⟨?_, hslice i t ht⟩⟩
  · obtain ⟨first, here, last, hc, -⟩ := hcut piece hp
    simp [Text.slice?, show Text.cut? text.toList piece.span = some (first, here, last) from hc]
  · simpa using index_of_tokensFrom ht

/-- A line with a directive, a comment of each kind, and tokens without blanks between them. -/
def mixedText : String := "#if A\n/*x*/a//y\n+b"

theorem tiles_of_ofText_mixed : ∃ lexed, ofText mixedText = .ok lexed ∧ lexed.tokens.length = 3 ∧
    lexed.directives.length = 1 ∧ Tiles 0 mixedText.toList lexed.pieces := by
  have found : ((ofText mixedText).toOption.any fun lexed =>
      lexed.tokens.length = 3 && lexed.directives.length = 1) = true := by decide
  cases h : ofText mixedText with
  | error e => simp [h, Except.toOption] at found
  | ok lexed =>
    simp only [h, Except.toOption, Option.any_some, Bool.and_eq_true, decide_eq_true_eq] at found
    exact ⟨lexed, rfl, found.1, found.2, (tiles_of_ofText h).1⟩

end Lexed

end CultureLint
