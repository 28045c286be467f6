import CultureLint.Proofs.Parser.Steady
import CultureLint.Proofs.Token.Ordered
import CultureLint.Proofs.Token.Scan
import Mathlib.Data.List.Forall2

/-! The lexemes of a text, and the tokens among them. A text is cut into lexemes one after the other, so
that some of them may be exchanged and those before and behind stay, as long as no lexeme goes on into
the new text. -/

namespace CultureLint

/-- The characters of some lexemes. -/
def written (lexemes : List Lexeme) : List Char := lexemes.flatMap (·.text)

@[simp] theorem written_nil : written [] = [] := rfl

@[simp] theorem written_cons (lexeme : Lexeme) (lexemes : List Lexeme) :
    written (lexeme :: lexemes) = lexeme.text ++ written lexemes := rfl

@[simp] theorem written_append (a b : List Lexeme) : written (a ++ b) = written a ++ written b :=
  List.flatMap_append

/-- The text is cut into the lexemes; a directive may begin it or not. -/
inductive Scans : Bool → List Char → List Lexeme → Prop
  | nil {lineStart : Bool} : Scans lineStart [] []
  | cons {lineStart : Bool} {c : Char} {cs r : List Char} {lexeme : Lexeme} {lexemes : List Lexeme}
      (h : Lexeme.scan lineStart c cs = .ok (lexeme, r))
      (hr : Scans (lexeme.lineStartAfter lineStart) r lexemes) :
      Scans lineStart (c :: cs) (lexeme :: lexemes)

/-- Whether a directive may stand behind some lexemes. -/
def lineStartBehind : Bool → List Lexeme → Bool := List.foldl fun b lexeme => lexeme.lineStartAfter b

namespace Scans

variable {b b' : Bool} {cs : List Char} {lexemes : List Lexeme}

theorem of_scanUpTo {bound offset : Nat} (hb : cs.length ≤ bound)
    (h : Lexeme.scanUpTo bound b offset cs = .ok lexemes) : Scans b cs lexemes := by
  induction bound generalizing b offset cs lexemes with
  | zero =>
    obtain rfl := List.eq_nil_of_length_eq_zero (Nat.le_zero.1 hb)
    obtain rfl := Except.ok.inj h
    exact .nil
  | succ bound ih =>
    cases cs with
    | nil =>
      obtain rfl := Except.ok.inj h
      exact .nil
    | cons c cs =>
      rw [Lexeme.scanUpTo] at h
      split at h
      · simp at h
      · rename_i lexeme r hs
        obtain ⟨rest, hrest, h⟩ := Lexeme.exceptBind_eq_ok.1 h
        obtain rfl := Except.ok.inj h
        obtain ⟨t, -, rfl, -⟩ := Lexeme.scan_stable hs
        simp only [List.length_cons, List.length_append] at hb
        exact .cons hs (ih (by omega) hrest)

theorem scanUpTo (h : Scans b cs lexemes) {bound : Nat} (hb : cs.length ≤ bound) (offset : Nat) :
    Lexeme.scanUpTo bound b offset cs = .ok lexemes := by
  induction h generalizing bound offset with
  | nil => cases bound <;> rfl
  | @cons b c cs r lexeme lexemes hs hr ih =>
    obtain ⟨t, -, rfl, -⟩ := Lexeme.scan_stable hs
    simp only [List.length_cons, List.length_append] at hb ih
    cases bound with
    | zero => omega
    | succ bound =>
      rw [Lexeme.scanUpTo, hs]
      simp only [ih (show r.length ≤ bound by omega)]
      rfl

theorem ofText_iff : Lexeme.ofText cs = .ok lexemes ↔ Scans true cs lexemes :=
  ⟨of_scanUpTo (Nat.le_refl _), fun h => h.scanUpTo (Nat.le_refl _) 0⟩

/-- Lexemes leave nothing out. -/
theorem eq_written (h : Scans b cs lexemes) : cs = written lexemes := by
  induction h with
  | nil => rfl
  | cons hs hr ih =>
    obtain ⟨t, ht, rfl, -⟩ := Lexeme.scan_stable hs
    rw [written_cons, ht, ← ih, List.cons_append]

theorem text_ne_nil (h : Scans b cs lexemes) : ∀ lexeme ∈ lexemes, lexeme.text ≠ [] := by
  induction h with
  | nil => simp
  | cons hs hr ih =>
    obtain ⟨t, ht, -⟩ := Lexeme.scan_stable hs
    rintro x (_ | ⟨_, hx⟩)
    · simp [ht]
    · exact ih x hx

theorem right {first second : List Lexeme} (h : Scans b cs (first ++ second)) :
    Scans (lineStartBehind b first) (written second) second := by
  induction first generalizing b cs with
  | nil => exact h.eq_written ▸ h
  | cons lexeme first ih =>
    cases h with
    | cons hs hr => exact ih hr

/-- Other lexemes behind some: the last one of these has to stand before the new text as well. -/
theorem exchange {first second second' : List Lexeme} {r' : List Char}
    (h : Scans b cs (first ++ second)) (hc : Calm (written second) r')
    (hlast : ∀ lexeme ∈ first.getLast?, lexeme.Holds (written second) r')
    (h' : Scans (lineStartBehind b first) r' second') :
    Scans b (written first ++ r') (first ++ second') := by
  induction first generalizing b cs with
  | nil => exact h'
  | cons lexeme first ih =>
    rw [List.cons_append] at h
    cases h with
    | @cons _ c cs r _ _ hs hr =>
      obtain ⟨t, ht, rfl, hst⟩ := Lexeme.scan_stable hs
      have hrw := hr.eq_written
      rw [written_append] at hrw
      have hholds : lexeme.Holds r (written first ++ r') := by
        cases first with
        | nil =>
          rw [hrw]
          exact hlast lexeme rfl
        | cons next first =>
          have hne := (Scans.cons hs hr).text_ne_nil next (by simp)
          obtain ⟨d, u, hd⟩ := List.exists_cons_of_ne_nil hne
          exact .of_head lexeme (by simp [hrw, hd])
      have hrest := ih hr (fun x hx => hlast x ?_) h'
      · have hs' := hst (written first ++ r') (by rw [hrw]; exact hc.append _) hholds
        rw [written_cons, ht, List.cons_append, List.cons_append, List.append_assoc]
        exact .cons hs' hrest
      · cases first with
        | nil => simp at hx
        | cons next first => rwa [List.getLast?_cons_cons]

theorem scan_of_token {c : Char} {cs r : List Char} {kind : TokenKind} {text : List Char}
    (h : Lexeme.scan b c cs = .ok (⟨.token kind, text⟩, r)) :
    Lexeme.scan b' c cs = .ok (⟨.token kind, text⟩, r) := by
  have hash : c ≠ '#' := by
    rintro rfl
    cases b <;> simp [Lexeme.scan, show Text.isBlank '#' = false by decide] at h
    have : Lexeme.scanToken '#' cs = .error (.unexpectedCharacter '#') := by
      cases cs <;> rfl
    rw [this] at h
    cases h
  simpa [Lexeme.scan, hash] using h

/-- A token may also stand where a directive might, and the other way round. -/
theorem of_token {kind : TokenKind} {text : List Char} (h : Scans b cs (⟨.token kind, text⟩ :: lexemes)) :
    Scans b' cs (⟨.token kind, text⟩ :: lexemes) := by
  cases h with
  | cons hs hr => exact .cons (scan_of_token hs) hr

/-! ### Tokens put around some -/

theorem lineStartBehind_of_token {first : List Lexeme} {kind : TokenKind} {text : List Char}
    (h : first.getLast? = some ⟨.token kind, text⟩) : lineStartBehind b first = false := by
  obtain ⟨u, rfl⟩ := List.getLast?_eq_some_iff.1 h
  simp [lineStartBehind, Lexeme.lineStartAfter]

/-- No token begins with a blank. -/
theorem head_of_token {kind : TokenKind} {text : List Char}
    (h : Scans b cs (⟨.token kind, text⟩ :: lexemes)) : ∃ c t, text = c :: t ∧ Text.isBlank c = false := by
  cases h with
  | @cons _ c cs r _ _ hs hr =>
    obtain ⟨t, ht, -⟩ := Lexeme.scan_stable hs
    refine ⟨c, t, ht, Bool.eq_false_iff.2 fun hblank => ?_⟩
    simp [Lexeme.scan, hblank] at hs

theorem ne_of_isBlank {c : Char} (h : Text.isBlank c = false) : c ≠ '\n' := by
  rintro rfl
  exact absurd h (by decide)

/-- A mark that is no beginning of another, of the class of punctuation. -/
def mark (c : Char) : Lexeme := ⟨.token .punctuation, [c]⟩

theorem scan_mark {c : Char} (hc : c ∈ ['(', ')', ';']) (r : List Char) :
    Lexeme.scan b c r = .ok (mark c, r) := by
  simp only [List.mem_cons, List.not_mem_nil, or_false] at hc
  obtain rfl | rfl | rfl := hc <;> cases r <;> rfl

/-- Behind a mark there may stand anything. -/
theorem behind_mark {c : Char} (hc : c ∈ ['(', ')', ';']) {first second second' : List Lexeme}
    (h : Scans b cs (first ++ mark c :: second)) (h' : Scans false (written second') second') :
    Scans b (written (first ++ mark c :: second')) (first ++ mark c :: second') := by
  have hmark : Scans (lineStartBehind b first) (c :: written second') (mark c :: second') :=
    .cons (scan_mark hc _) h'
  have hcalm : Calm (written (mark c :: second)) (c :: written second') := by
    refine .of_cons ?_ _ _
    simp only [List.mem_cons, List.not_mem_nil, or_false] at hc
    obtain rfl | rfl | rfl := hc <;> decide
  have := h.exchange hcalm (fun lexeme _ => .of_head lexeme rfl) hmark
  simpa [mark] using this

/-- Other lexemes behind blanks, comments and directives. -/
theorem exchange_trivia {first second second' : List Lexeme} {r' : List Char}
    (h : Scans b cs (first ++ second)) (hf : ∀ lexeme ∈ first, ∀ kind, lexeme.kind ≠ .token kind)
    (hr' : r'.head?.any Text.isBlank = false)
    (hlast : ∀ lexeme ∈ first.getLast?, lexeme.endsLine = false)
    (h' : Scans (lineStartBehind b first) r' second') :
    Scans b (written first ++ r') (first ++ second') := by
  induction first generalizing b cs with
  | nil => exact h'
  | cons lexeme first ih =>
    rw [List.cons_append] at h
    cases h with
    | @cons _ c cs r _ _ hs hr =>
      obtain ⟨t, ht, rfl, hblank, hline, hst⟩ := Lexeme.scan_trivia hs (hf lexeme (List.mem_cons_self ..))
      have hrw := hr.eq_written
      have hscan : Lexeme.scan b c (t ++ (written first ++ r')) = .ok (lexeme, written first ++ r') := by
        cases first with
        | nil => exact hst _ (fun _ => hr') fun hl => by simp [hlast lexeme rfl] at hl
        | cons next first =>
          have hne := (Scans.cons hs hr).text_ne_nil next (by simp)
          obtain ⟨d, u, hd⟩ := List.exists_cons_of_ne_nil hne
          have hhead : (written (next :: first) ++ r').head? = r.head? := by simp [hrw, hd]
          exact hst _ (fun hb => hhead ▸ hblank hb) fun hl => hhead ▸ hline hl
      rw [written_cons, ht, List.cons_append, List.cons_append, List.append_assoc]
      refine .cons hscan (ih hr (fun x hx => hf x (List.mem_cons_of_mem _ hx)) (fun x hx => hlast x ?_) h')
      cases first with
      | nil => simp at hx
      | cons next first => rwa [List.getLast?_cons_cons]

/-- A parenthesis, or nothing, before some lexemes that begin with a token and end with one, and behind
them a text that no token goes on into. -/
theorem around {first middle second pre post : List Lexeme} {k k' : TokenKind} {x y : List Char}
    (h : Scans b cs (first ++ (middle ++ second))) (hx : middle.head? = some ⟨.token k, x⟩)
    (hy : middle.getLast? = some ⟨.token k', y⟩) (hquestion : k' = .punctuation → y ≠ ['?'])
    (hpre : pre = [] ∨ pre = [mark '('])
    (hpost : Scans false (written (post ++ second)) (post ++ second))
    (hcalm : ∀ r, Calm r (written (post ++ second))) :
    Scans b (written (first ++ (pre ++ (middle ++ (post ++ second)))))
      (first ++ (pre ++ (middle ++ (post ++ second)))) := by
  have hmid := h.right
  obtain ⟨middle', rfl⟩ := List.head?_eq_some_iff.1 hx
  obtain ⟨c, t, rfl, hc⟩ := head_of_token hmid
  have hmiddle (b : Bool) : Scans b (written (⟨.token k, c :: t⟩ :: middle' ++ (post ++ second)))
      (⟨.token k, c :: t⟩ :: middle' ++ (post ++ second)) := by
    rw [written_append]
    refine Scans.of_token (b := lineStartBehind b first) ?_
    refine exchange hmid.of_token (hcalm _) (fun lexeme hl => ?_) ?_
    · rw [hy] at hl
      obtain rfl := Option.some.inj hl
      exact .of_token fun hk hq => absurd hq (hquestion hk)
    · rwa [lineStartBehind_of_token hy]
  rw [written_append first]
  obtain rfl | rfl := hpre
  · refine h.exchange ?_ (fun lexeme _ => .of_head lexeme rfl) (hmiddle _)
    rw [written_append, List.nil_append, written_append]
    exact (hcalm _).append _
  · have hopen : Text.isBlank '(' = false := by decide
    refine h.exchange (.of_stop (by simp) _ _)
      (fun lexeme _ => ⟨.inr (.inr ⟨c, rfl, ne_of_isBlank hc⟩), .inr (.inr hopen), ?_⟩) ?_
    · intro _ _ hq
      exact absurd hq (by simp [mark])
    · exact .cons (scan_mark (by simp) _) (hmiddle _)

end Scans

/-! ### Tokens among lexemes -/

open Text (byteLength)

theorem utf8ByteSize_ofList (cs : List Char) : (String.ofList cs).utf8ByteSize = byteLength cs := by
  induction cs with
  | nil => rfl
  | cons c cs ih => rw [String.ofList_cons, String.utf8ByteSize_append, ih, byteLength]; simp

theorem utf8ByteSize_eq (text : String) : text.utf8ByteSize = byteLength text.toList := by
  rw [← utf8ByteSize_ofList, String.ofList_toList]

theorem byteLength_pos {cs : List Char} (h : cs ≠ []) : 0 < byteLength cs := by
  obtain ⟨c, cs, rfl⟩ := List.exists_cons_of_ne_nil h
  have := c.utf8Size_pos
  simp only [byteLength]
  omega

/-- The token of a lexeme that is put in somewhere else than it was written. -/
def Lexeme.tokenAt (start : Nat) (lexeme : Lexeme) : Token :=
  ⟨0, match lexeme.kind with | .token kind => kind | _ => .punctuation, String.ofList lexeme.text, start⟩

namespace Lexed

variable {offset index : Nat} {lexemes : List Lexeme}

theorem tokensFrom_append (first second : List Lexeme) :
    tokensFrom offset index (first ++ second) = tokensFrom offset index first ++
      tokensFrom (offset + byteLength (written first))
        (index + (tokensFrom offset index first).length) second := by
  induction first generalizing offset index with
  | nil => rfl
  | cons lexeme first ih =>
    obtain ⟨kind, text⟩ := lexeme
    cases kind <;> simp [tokensFrom, ih, Nat.add_assoc, Nat.add_comm 1]

/-- The tokens but for their places. -/
theorem alike_tokensFrom (offset' index' : Nat) :
    Alike (tokensFrom offset index lexemes) (tokensFrom offset' index' lexemes) := by
  induction lexemes generalizing offset index offset' index' with
  | nil => rfl
  | cons lexeme lexemes ih =>
    obtain ⟨kind, text⟩ := lexeme
    cases kind with
    | token kind => exact congrArg (List.cons _) (ih _ _)
    | _ => exact ih _ _

/-- A token is where its lexeme is. -/
theorem tokensFrom_split {u r : List Token} {t : Token}
    (h : tokensFrom offset index lexemes = u ++ t :: r) : ∃ first kind text second,
      lexemes = first ++ ⟨.token kind, text⟩ :: second ∧ tokensFrom offset index first = u ∧
      t = ⟨index + u.length, kind, String.ofList text, offset + byteLength (written first)⟩ ∧
      r = tokensFrom (offset + byteLength (written first) + byteLength text) (index + u.length + 1)
        second := by
  induction lexemes generalizing offset index u with
  | nil => simp [tokensFrom] at h
  | cons lexeme lexemes ih =>
    obtain ⟨kind, text⟩ := lexeme
    cases kind with
    | token kind =>
      cases u with
      | nil =>
        obtain ⟨rfl, rfl⟩ := List.cons.inj h
        exact ⟨[], kind, text, lexemes, rfl, rfl, rfl, rfl⟩
      | cons a u =>
        obtain ⟨rfl, hu⟩ := List.cons.inj h
        obtain ⟨first, k, x, second, rfl, rfl, rfl, rfl⟩ := ih hu
        refine ⟨⟨.token kind, text⟩ :: first, k, x, second, rfl, rfl, ?_, ?_⟩
        · simp [Nat.add_assoc, Nat.add_comm 1]
        · simp [Nat.add_assoc, Nat.add_comm 1]
    | _ =>
      obtain ⟨first, k, x, second, rfl, rfl, rfl, rfl⟩ := ih h
      refine ⟨⟨_, text⟩ :: first, k, x, second, rfl, rfl, ?_, ?_⟩
      · simp [Nat.add_assoc]
      · simp [Nat.add_assoc]

/-- All tokens lie in the text of their lexemes. -/
theorem tokensFrom_bounds (hne : ∀ lexeme ∈ lexemes, lexeme.text ≠ []) {t : Token}
    (ht : t ∈ tokensFrom offset index lexemes) :
    offset ≤ t.start ∧ t.start < t.span.stop ∧ t.span.stop ≤ offset + byteLength (written lexemes) := by
  obtain ⟨u, r, h⟩ := List.append_of_mem ht
  obtain ⟨first, kind, text, second, rfl, -, rfl, -⟩ := tokensFrom_split h
  have : 0 < byteLength text := byteLength_pos (hne ⟨.token kind, text⟩ (by simp))
  simp only [Token.span, Span.ofLength, utf8ByteSize_ofList, written_append, written_cons,
    Text.byteLength_append]
  omega

theorem ordered_tokensFrom (hne : ∀ lexeme ∈ lexemes, lexeme.text ≠ []) :
    Ordered (tokensFrom offset index lexemes) := by
  induction lexemes generalizing offset index with
  | nil => exact ⟨.nil, by simp [tokensFrom]⟩
  | cons lexeme lexemes ih =>
    obtain ⟨kind, text⟩ := lexeme
    have hne' : ∀ x ∈ lexemes, x.text ≠ [] := fun x hx => hne x (List.mem_cons_of_mem _ hx)
    cases kind with
    | token kind =>
      refine Ordered.append_iff (w := [_]).2 ⟨⟨List.pairwise_singleton .., ?_⟩, ih hne', ?_⟩
      · intro t ht
        have : 0 < byteLength text := byteLength_pos (hne ⟨.token kind, text⟩ (List.mem_cons_self ..))
        obtain rfl := List.mem_singleton.1 ht
        simp only [Token.span, Span.ofLength, utf8ByteSize_ofList]
        omega
      · intro a ha b hb
        obtain rfl := List.mem_singleton.1 ha
        have := (tokensFrom_bounds hne' hb).1
        simpa only [Token.span, Span.ofLength, utf8ByteSize_ofList] using this
    | _ => exact ih hne'

/-- The lexemes of some tokens that follow each other, from the first to the last of them, and the place
of these in the text. -/
theorem tokensFrom_placed {u v x : List Token} {node : Node} (h : tokensFrom 0 0 lexemes = u ++ v ++ x)
    (hv : v ≠ []) (hp : Placed v node) : ∃ first middle second, lexemes = first ++ (middle ++ second) ∧
      tokensFrom 0 0 first = u ∧ tokensFrom 0 0 (first ++ middle) = u ++ v ∧
      Alike (tokensFrom 0 0 middle) v ∧ Alike (tokensFrom 0 0 second) x ∧
      (∃ k y, middle.head? = some ⟨.token k, y⟩) ∧
      (∃ z, v.getLast? = some z ∧ middle.getLast? = some ⟨.token z.kind, z.text.toList⟩) ∧
      node.span.start = byteLength (written first) ∧
      node.span.stop = byteLength (written first) + byteLength (written middle) := by
  obtain ⟨v', z, rfl⟩ : ∃ v' z, v = v' ++ [z] := by
    obtain rfl | ⟨v', z, rfl⟩ := List.eq_nil_or_concat v
    · exact absurd rfl hv
    · exact ⟨v', z, List.concat_eq_append⟩
  obtain ⟨upTo, kz, xz, second, rfl, hupTo, hz, rfl⟩ := tokensFrom_split (u := u ++ v') (t := z) (r := x)
    (by rw [h]; simp)
  -- the lexemes up to the last token, and from the first one on
  have hlast : tokensFrom 0 0 (upTo ++ [⟨.token kz, xz⟩]) = u ++ (v' ++ [z]) := by
    rw [tokensFrom_append, hupTo, hz]
    simp [tokensFrom]
  obtain ⟨a, m, ham⟩ := List.exists_cons_of_ne_nil hv
  obtain ⟨first, ka, xa, rest, hsplit, rfl, rfl, rfl⟩ := tokensFrom_split (ham ▸ hlast)
  have hmiddle : (⟨.token ka, xa⟩ :: rest).getLast? = some ⟨.token kz, xz⟩ := by
    have := congrArg List.getLast? hsplit
    simpa [List.getLast?_append] using this.symm
  refine ⟨first, ⟨.token ka, xa⟩ :: rest, second, ?_, rfl, hsplit ▸ hlast, ?_, alike_tokensFrom ..,
    ⟨ka, xa, rfl⟩, ⟨z, List.getLast?_concat, ?_⟩, ?_, ?_⟩
  · have : upTo ++ ⟨.token kz, xz⟩ :: second = upTo ++ [⟨.token kz, xz⟩] ++ second := by simp
    rw [this, hsplit]
    simp
  · rw [ham]
    exact congrArg (List.cons _) (alike_tokensFrom ..)
  · rw [hmiddle, hz, String.toList_ofList]
  · rw [hp.start _ (by rw [ham]; rfl)]
    simp
  · rw [hp.stop z List.getLast?_concat, hz]
    have := congrArg (byteLength ∘ written) hsplit
    simp only [Function.comp, written_append, written_cons, written_nil, Text.byteLength_append] at this
    simp only [Token.span, Span.ofLength, utf8ByteSize_ofList, written_cons, Text.byteLength_append]
    simp only [byteLength] at this
    omega

/-! ### Directives and the header -/

/-- The directives but for their places; tokens make no difference to them. -/
theorem directivesFrom_filter (offset' : Nat) : bare (directivesFrom offset lexemes) =
    bare (directivesFrom offset' (lexemes.filter (·.kind == .directive))) := by
  induction lexemes generalizing offset offset' with
  | nil => rfl
  | cons lexeme lexemes ih =>
    obtain ⟨kind, text⟩ := lexeme
    cases kind with
    | directive => exact congrArg (List.cons _) (ih _)
    | _ => exact ih _

/-- The header is found before the first token. -/
theorem headerFrom_token {found : Option Span} (first second second' : List Lexeme)
    (kind kind' : TokenKind) (text text' : List Char) :
    headerFrom offset found (first ++ ⟨.token kind, text⟩ :: second) =
      headerFrom offset found (first ++ ⟨.token kind', text'⟩ :: second') := by
  induction first generalizing offset found with
  | nil => rfl
  | cons lexeme first ih =>
    obtain ⟨k, x⟩ := lexeme
    cases k with
    | blank | comment => exact ih
    | _ => rfl

/-! ### Behind the same directives -/

/-- The texts of the directives that start before an offset. -/
def textsBefore (directives : List Directive) (offset : Nat) : List String :=
  (directives.filter (·.span.start < offset)).map (·.text)

/-- The texts of the directives among lexemes. -/
def directiveTexts (lexemes : List Lexeme) : List String := (directivesFrom 0 lexemes).map (·.text)

theorem texts_directivesFrom (offset offset' : Nat) :
    (directivesFrom offset lexemes).map (·.text) = (directivesFrom offset' lexemes).map (·.text) := by
  induction lexemes generalizing offset offset' with
  | nil => rfl
  | cons lexeme lexemes ih =>
    obtain ⟨kind, text⟩ := lexeme
    cases kind with
    | directive => exact congrArg (List.cons _) (ih _ _)
    | _ => exact ih _ _

theorem directivesFrom_append (first second : List Lexeme) : directivesFrom offset (first ++ second) =
    directivesFrom offset first ++ directivesFrom (offset + byteLength (written first)) second := by
  induction first generalizing offset with
  | nil => rfl
  | cons lexeme first ih =>
    obtain ⟨kind, text⟩ := lexeme
    cases kind <;> simp [directivesFrom, ih, Nat.add_assoc]

theorem directiveTexts_append (first second : List Lexeme) :
    directiveTexts (first ++ second) = directiveTexts first ++ directiveTexts second := by
  rw [directiveTexts, directivesFrom_append, List.map_append]
  exact congrArg _ (texts_directivesFrom _ 0)

theorem directiveTexts_eq_nil (h : lexemes.filter (·.kind == .directive) = []) : directiveTexts lexemes = [] := by
  have hbare : bare (directivesFrom 0 lexemes) = [] := (directivesFrom_filter 0).trans (by rw [h]; rfl)
  exact List.map_eq_nil_iff.2 (List.map_eq_nil_iff.1 hbare)

/-- All directives lie in the text of their lexemes. -/
theorem directivesFrom_bounds (hne : ∀ lexeme ∈ lexemes, lexeme.text ≠ []) {d : Directive}
    (hd : d ∈ directivesFrom offset lexemes) :
    offset ≤ d.span.start ∧ d.span.start < d.span.stop ∧ d.span.stop ≤ offset + byteLength (written lexemes) := by
  induction lexemes generalizing offset with
  | nil => simp [directivesFrom] at hd
  | cons lexeme lexemes ih =>
    obtain ⟨kind, text⟩ := lexeme
    obtain ⟨htext, hne⟩ := List.forall_mem_cons.1 hne
    have hpos : 0 < byteLength text := byteLength_pos htext
    have behind (hd : d ∈ directivesFrom (offset + byteLength text) lexemes) : offset ≤ d.span.start ∧
        d.span.start < d.span.stop ∧ d.span.stop ≤ offset + byteLength (written (⟨kind, text⟩ :: lexemes)) := by
      have := ih hne hd
      simp only [written_cons, Text.byteLength_append]
      omega
    cases kind with
    | directive =>
      obtain rfl | hd := List.mem_cons.1 hd
      · simp only [Span.start_ofLength, Span.stop_ofLength, written_cons, Text.byteLength_append]
        omega
      · exact behind hd
    | _ => exact behind hd

/-- The directives before a place between lexemes are those among the lexemes before it. -/
theorem textsBefore_directivesFrom {first second : List Lexeme}
    (hne : ∀ lexeme ∈ first ++ second, lexeme.text ≠ []) :
    textsBefore (directivesFrom 0 (first ++ second)) (byteLength (written first)) = directiveTexts first := by
  have hfirst : ∀ lexeme ∈ first, lexeme.text ≠ [] := fun x hx => hne x (List.mem_append_left _ hx)
  have hsecond : ∀ lexeme ∈ second, lexeme.text ≠ [] := fun x hx => hne x (List.mem_append_right _ hx)
  have hbefore : (directivesFrom 0 first).filter (·.span.start < byteLength (written first)) =
      directivesFrom 0 first := by
    refine List.filter_eq_self.2 fun d hd => ?_
    have := directivesFrom_bounds hfirst hd
    simp only [decide_eq_true_eq]
    omega
  have hbehind : (directivesFrom (0 + byteLength (written first)) second).filter
      (·.span.start < byteLength (written first)) = [] := by
    refine List.filter_eq_nil_iff.2 fun d hd => ?_
    have := directivesFrom_bounds hsecond hd
    simp only [decide_eq_true_eq]
    omega
  rw [textsBefore, directivesFrom_append, List.filter_append, hbefore, hbehind, List.append_nil]
  rfl

/-- Two tokens stand behind the same directives, but for the places of these. Tokens without a place of their own are
said to start at the beginning, and nothing is asked of them. -/
def BehindSame (directives directives' : List Directive) (t t' : Token) : Prop :=
  0 < t.start → textsBefore directives t.start = textsBefore directives' t'.start

/-- The tokens of the same lexemes stand behind the same directives, if the lexemes do. -/
theorem forall₂_behindSame {first first' second second' : List Lexeme} (index index' : Nat)
    (hne : ∀ lexeme ∈ first ++ (lexemes ++ second), lexeme.text ≠ [])
    (hne' : ∀ lexeme ∈ first' ++ (lexemes ++ second'), lexeme.text ≠ [])
    (h : directiveTexts first = directiveTexts first') :
    List.Forall₂ (BehindSame (directivesFrom 0 (first ++ (lexemes ++ second)))
        (directivesFrom 0 (first' ++ (lexemes ++ second'))))
      (tokensFrom (byteLength (written first)) index lexemes)
      (tokensFrom (byteLength (written first')) index' lexemes) := by
  induction lexemes generalizing first first' index index' with
  | nil => exact .nil
  | cons lexeme lexemes ih =>
    have hhead : BehindSame (directivesFrom 0 (first ++ (lexeme :: lexemes ++ second)))
        (directivesFrom 0 (first' ++ (lexeme :: lexemes ++ second')))
        ⟨index, .keyword, "", byteLength (written first)⟩ ⟨index', .keyword, "", byteLength (written first')⟩ :=
      fun _ => (textsBefore_directivesFrom hne).trans (h.trans (textsBefore_directivesFrom hne').symm)
    have hmore : directiveTexts (first ++ [lexeme]) = directiveTexts (first' ++ [lexeme]) := by
      rw [directiveTexts_append, directiveTexts_append, h]
    have hrest (index index' : Nat) := ih index index' (by simpa using hne) (by simpa using hne') hmore
    simp only [List.append_assoc, List.singleton_append, written_append, Text.byteLength_append, written_cons,
      written_nil, List.append_nil] at hrest
    obtain ⟨kind, text⟩ := lexeme
    cases kind with
    | token kind => exact .cons hhead (hrest _ _)
    | _ => exact hrest _ _

theorem filter_directives {lexemes : List Lexeme} (h : ∀ lexeme ∈ lexemes, ∃ kind, lexeme.kind = .token kind) :
    lexemes.filter (·.kind == .directive) = [] := by
  refine List.filter_eq_nil_iff.2 fun lexeme hl => ?_
  obtain ⟨kind, hk⟩ := h lexeme hl
  simp [hk]

/-- Tokens to put in at an offset, with no other place than that. -/
structure PutAt (offset : Nat) (lexemes : List Lexeme) (tokens : List Token) : Prop where
  alike : Alike tokens (tokensFrom 0 0 lexemes)
  start : ∀ t ∈ tokens, 0 < t.start → t.start = offset
  directives : lexemes.filter (·.kind == .directive) = []

theorem putAt_tokenAt (start : Nat) (hstart : 0 < start → start = offset)
    (h : ∀ lexeme ∈ lexemes, ∃ kind, lexeme.kind = .token kind) :
    PutAt offset lexemes (lexemes.map (·.tokenAt start)) where
  alike := by
    induction lexemes with
    | nil => rfl
    | cons lexeme lexemes ih =>
      obtain ⟨k, text⟩ := lexeme
      obtain ⟨⟨kind, rfl⟩, hrest⟩ := List.forall_mem_cons.1 h
      exact congrArg (List.cons _) ((ih hrest).trans (alike_tokensFrom ..))
  start t ht := by
    obtain ⟨lexeme, -, rfl⟩ := List.mem_map.1 ht
    exact hstart
  directives := filter_directives h

/-- Tokens that are put in stand behind the directives before the place where they are put in. -/
theorem PutAt.forall₂_behindSame {first first' second second' put : List Lexeme} {tokens : List Token}
    (hput : PutAt (byteLength (written first)) put tokens) (index : Nat)
    (hne : ∀ lexeme ∈ first ++ second, lexeme.text ≠ [])
    (hne' : ∀ lexeme ∈ first' ++ (put ++ second'), lexeme.text ≠ [])
    (h : directiveTexts first = directiveTexts first') :
    List.Forall₂ (BehindSame (directivesFrom 0 (first ++ second)) (directivesFrom 0 (first' ++ (put ++ second'))))
      tokens (tokensFrom (byteLength (written first')) index put) := by
  have halike : Alike tokens (tokensFrom (byteLength (written first')) index put) :=
    hput.alike.trans (alike_tokensFrom ..)
  refine List.forall₂_iff_zip.2 ⟨halike.length_eq, fun {t t'} ht => ?_⟩
  obtain ⟨hold, hnew⟩ := List.of_mem_zip ht
  obtain ⟨u, r, hsplit⟩ := List.append_of_mem hnew
  obtain ⟨before, kind, text, behind, rfl, -, rfl, -⟩ := tokensFrom_split hsplit
  have hnone : directiveTexts before = [] := by
    have hdirectives := hput.directives
    rw [List.filter_append, List.append_eq_nil_iff] at hdirectives
    exact directiveTexts_eq_nil hdirectives.1
  have hplace := @textsBefore_directivesFrom (first' ++ before) (⟨.token kind, text⟩ :: behind ++ second')
    (by simpa using hne')
  rw [directiveTexts_append, hnone, List.append_nil, written_append, Text.byteLength_append] at hplace
  intro hpos
  rw [hput.start t hold hpos, textsBefore_directivesFrom hne, h, ← hplace]
  simp only [List.append_assoc]

/-- The tokens around those that are put in stand behind the same directives as before. -/
theorem PutAt.forall₂_put {first put second : List Lexeme} {tokens b : List Token}
    (hput : PutAt (byteLength (written first)) put tokens) (hne : ∀ lexeme ∈ first ++ second, lexeme.text ≠ [])
    (hne' : ∀ lexeme ∈ first ++ (put ++ second), lexeme.text ≠ [])
    (hb : tokensFrom 0 0 (first ++ second) = tokensFrom 0 0 first ++ b) :
    List.Forall₂ (BehindSame (directivesFrom 0 (first ++ second)) (directivesFrom 0 (first ++ (put ++ second))))
      (tokensFrom 0 0 first ++ tokens ++ b) (tokensFrom 0 0 (first ++ (put ++ second))) := by
  rw [tokensFrom_append] at hb
  obtain rfl := List.append_cancel_left hb
  rw [List.append_assoc, tokensFrom_append first, tokensFrom_append put]
  have hfirst := @Lexed.forall₂_behindSame first [] [] second (put ++ second) 0 0 hne hne' rfl
  rw [List.nil_append, List.nil_append] at hfirst
  refine List.rel_append hfirst (List.rel_append ?_ ?_)
  · rw [Nat.zero_add]
    exact hput.forall₂_behindSame _ hne hne' rfl
  · have hsecond (i i' : Nat) := @Lexed.forall₂_behindSame second first (first ++ put) [] [] i i' (by simpa using hne)
      (by simpa using hne')
      (by rw [directiveTexts_append, directiveTexts_eq_nil hput.directives, List.append_nil])
    simpa only [List.append_assoc, List.append_nil, written_append, Text.byteLength_append, Nat.zero_add]
      using hsecond _ _

/-- The tokens around which others are put, and those before and behind them, stand behind the same directives as
before. -/
theorem PutAt.forall₂_around {first pre middle post second : List Lexeme} {before v behind x : List Token}
    (hbefore : PutAt (byteLength (written first)) pre before)
    (hbehind : PutAt (byteLength (written (first ++ middle))) post behind)
    (hne : ∀ lexeme ∈ first ++ (middle ++ second), lexeme.text ≠ [])
    (hne' : ∀ lexeme ∈ first ++ (pre ++ (middle ++ (post ++ second))), lexeme.text ≠ [])
    (hv : tokensFrom 0 0 (first ++ middle) = tokensFrom 0 0 first ++ v)
    (hx : tokensFrom 0 0 (first ++ middle ++ second) = tokensFrom 0 0 (first ++ middle) ++ x) :
    List.Forall₂ (BehindSame (directivesFrom 0 (first ++ (middle ++ second)))
        (directivesFrom 0 (first ++ (pre ++ (middle ++ (post ++ second))))))
      (tokensFrom 0 0 first ++ (before ++ (v ++ (behind ++ x))))
      (tokensFrom 0 0 (first ++ (pre ++ (middle ++ (post ++ second))))) := by
  have hpreTexts : directiveTexts pre = [] := directiveTexts_eq_nil hbefore.directives
  have hpostTexts : directiveTexts post = [] := directiveTexts_eq_nil hbehind.directives
  rw [tokensFrom_append] at hv hx
  obtain rfl := List.append_cancel_left hv
  obtain rfl := List.append_cancel_left hx
  let R := BehindSame (directivesFrom 0 (first ++ (middle ++ second)))
    (directivesFrom 0 (first ++ (pre ++ (middle ++ (post ++ second)))))
  have both {w w' z z' : List Token} (h : List.Forall₂ R w w') (h' : List.Forall₂ R z z') :
      List.Forall₂ R (w ++ z) (w' ++ z') := List.rel_append h h'
  simp only [tokensFrom_append, Nat.zero_add]
  refine both ?_ (both ?_ (both ?_ (both ?_ ?_)))
  · exact @Lexed.forall₂_behindSame first [] [] (middle ++ second) (pre ++ (middle ++ (post ++ second))) 0 0 hne hne'
      rfl
  · exact hbefore.forall₂_behindSame _ hne hne' rfl
  · have hmiddle (i i' : Nat) := @Lexed.forall₂_behindSame middle first (first ++ pre) second (post ++ second) i i'
      hne (by simpa using hne') (by rw [directiveTexts_append, hpreTexts, List.append_nil])
    simpa only [R, List.append_assoc, written_append, Text.byteLength_append] using hmiddle _ _
  · have hpost (i : Nat) := @hbehind.forall₂_behindSame (first ++ middle) (first ++ pre ++ middle) second second post
      behind i (by simpa using hne) (by simpa using hne')
      (by simp only [directiveTexts_append, hpreTexts, List.append_nil])
    simpa only [R, List.append_assoc, written_append, Text.byteLength_append, Nat.add_assoc] using hpost _
  · have hsecond (i i' : Nat) := @Lexed.forall₂_behindSame second (first ++ middle) (first ++ pre ++ middle ++ post)
      [] [] i i' (by simpa using hne) (by simpa using hne')
      (by simp only [directiveTexts_append, hpreTexts, hpostTexts, List.append_nil])
    simpa only [R, List.append_assoc, List.append_nil, written_append, Text.byteLength_append, Nat.add_assoc]
      using hsecond _ _

/-! ### A text with tokens put around some -/

theorem cut?_append (before inside after : List Char) {span : Span}
    (hstart : span.start = byteLength before)
    (hstop : span.stop = byteLength before + byteLength inside) :
    Text.cut? (before ++ (inside ++ after)) span = some (before, inside, after) := by
  have hl : span.length = byteLength inside := by
    unfold Span.length
    omega
  simp [Text.cut?, hstart, hl]

theorem ofText_eq_ok {text : String} {lexed : Lexed} : Lexed.ofText text = .ok lexed ↔
    ∃ lexemes, Scans true text.toList lexemes ∧ lexed = ofLexemes lexemes := by
  unfold Lexed.ofText
  cases h : Lexeme.ofText text.toList with
  | error e =>
    refine ⟨(nomatch ·), ?_⟩
    rintro ⟨lexemes, hs, -⟩
    simp [Scans.ofText_iff.2 hs] at h
  | ok lexemes =>
    constructor
    · intro h'
      exact ⟨lexemes, Scans.ofText_iff.1 h, (Except.ok.inj h').symm⟩
    · rintro ⟨lexemes', hs, rfl⟩
      rw [← h, Scans.ofText_iff.2 hs]
      rfl

theorem ordered_tokens {text : String} {lexed : Lexed} (h : Lexed.ofText text = .ok lexed) : Ordered lexed.tokens := by
  obtain ⟨lexemes, hs, rfl⟩ := ofText_eq_ok.1 h
  exact ordered_tokensFrom hs.text_ne_nil

/-- Tokens that may be put behind any other: they end with a parenthesis, and no token goes on into
them. -/
structure Trailing (post : List Lexeme) : Prop where
  scans : Scans false (written post) post
  closes : ∃ w, post = w ++ [Scans.mark ')']
  calm : ∀ r s, Calm r (written post ++ s)
  tokens : ∀ lexeme ∈ post, ∃ kind, lexeme.kind = .token kind

/-- A text with a parenthesis or nothing put before some of its tokens and others put behind them. -/
theorem around {text : String} {lexed : Lexed} {u v x before behind : List Token} {node : Node}
    {pre post : List Lexeme} (h : Lexed.ofText text = .ok lexed) (htokens : lexed.tokens = u ++ v ++ x)
    (hv : v ≠ []) (hp : Placed v node) (hquestion : ∀ z, v.getLast? = some z → z.isPunct "?" = false)
    (hpre : pre = [] ∨ pre = [Scans.mark '(']) (hpost : Trailing post) (hbefore : PutAt node.span.start pre before)
    (hbehind : PutAt node.span.stop post behind) :
    ∃ front inside back lexed', Text.cut? text.toList node.span = some (front, inside, back) ∧
      Lexed.ofText (String.ofList (front ++ (written pre ++ inside ++ written post) ++ back)) = .ok lexed' ∧
      Alike (u ++ (before ++ v ++ behind) ++ x) lexed'.tokens ∧
      List.Forall₂ (BehindSame lexed.directives lexed'.directives) (u ++ (before ++ v ++ behind) ++ x) lexed'.tokens ∧
      bare lexed'.directives = bare lexed.directives ∧ lexed'.header = lexed.header := by
  obtain ⟨lexemes, hs, rfl⟩ := ofText_eq_ok.1 h
  obtain ⟨first, middle, second, rfl, rfl, hupTo, hm, hx, ⟨k, y, hhead⟩, ⟨z, hz, hlast⟩, hstart, hstop⟩ :=
    tokensFrom_placed htokens hv hp
  have hsecond : Scans false (written second) second := by
    have hright : Scans _ (written (middle ++ second)) (middle ++ second) := hs.right
    have := hright.right
    rwa [Scans.lineStartBehind_of_token hlast] at this
  have htrail : Scans false (written (post ++ second)) (post ++ second) := by
    obtain ⟨w, rfl⟩ := hpost.closes
    rw [List.append_assoc, List.singleton_append]
    exact hpost.scans.behind_mark (by simp) hsecond
  have hnew : Scans true (written (first ++ (pre ++ (middle ++ (post ++ second)))))
      (first ++ (pre ++ (middle ++ (post ++ second)))) := by
    refine hs.around hhead hlast (fun hk hq => ?_) hpre htrail fun r => ?_
    · have htext : z.text = "?" := String.toList_injective hq
      have := hquestion z hz
      simp [Token.isPunct, hk, htext] at this
    · rw [written_append]
      exact hpost.calm r _
  refine ⟨written first, written middle, written second,
    ofLexemes (first ++ (pre ++ (middle ++ (post ++ second)))), ?_, ?_, ?_, ?_, ?_, ?_⟩
  · rw [hs.eq_written, written_append, written_append]
    exact cut?_append _ _ _ hstart hstop
  · refine ofText_eq_ok.2 ⟨_, ?_, rfl⟩
    simpa using hnew
  · have halike (o i : Nat) (lexemes : List Lexeme) :
        Alike (tokensFrom 0 0 lexemes) (tokensFrom o i lexemes) := alike_tokensFrom o i
    simp only [ofLexemes, tokensFrom_append]
    rw [List.append_assoc, List.append_assoc, List.append_assoc]
    refine (Alike.refl _).append (.append ?_ (.append ?_ (.append ?_ ?_)))
    · exact hbefore.alike.trans (halike ..)
    · exact hm.symm.trans (halike ..)
    · exact hbehind.alike.trans (halike ..)
    · exact hx.symm.trans (halike ..)
  · have hrest : tokensFrom 0 0 (first ++ middle ++ second) = tokensFrom 0 0 (first ++ middle) ++ x := by
      rw [hupTo, List.append_assoc]
      exact htokens
    have hplace : node.span.stop = byteLength (written (first ++ middle)) := by
      rw [hstop, written_append, Text.byteLength_append]
    rw [List.append_assoc, List.append_assoc, List.append_assoc]
    exact PutAt.forall₂_around (hstart ▸ hbefore) (hplace ▸ hbehind) hs.text_ne_nil hnew.text_ne_nil hupTo hrest
  · have hfilter : pre.filter (·.kind == .directive) = [] := by
      obtain rfl | rfl := hpre <;> rfl
    simp only [ofLexemes]
    rw [directivesFrom_filter 0, @directivesFrom_filter _ (first ++ (middle ++ second)) 0]
    simp [hfilter, filter_directives hpost.tokens]
  · obtain ⟨middle', rfl⟩ := List.head?_eq_some_iff.1 hhead
    obtain rfl | rfl := hpre
    · exact headerFrom_token ..
    · exact headerFrom_token ..

end Lexed

end CultureLint
