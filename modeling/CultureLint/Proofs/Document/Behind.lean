import CultureLint.Proofs.Binding.ScopeAgreement
import CultureLint.Proofs.Document.MappedLines
import CultureLint.Proofs.Document.Places
import CultureLint.Proofs.Parser.Abreast

/-! What an edit leaves of the places in a document. The expressions of the new document begin behind the same
directives as those of the old one, wherever these have come to stand; and on these directives alone it depends whether
a place is shown to the reader. -/

namespace CultureLint

open CultureLint.Part (exprs)
open Lexed (textsBefore BehindSame)
open Text (byteLength)

/-! ### Where expressions begin -/

open NamespaceMember in
/-- An expression begins behind the first token of a document. -/
theorem Twins.startsBehind {c : Change} {w w' : List Token} {ms ms' : List NamespaceMember} (h : Twins c w w' ms ms')
    {e : Expr} {depth : Nat} (he : (e, depth) ∈ walkAll ms) : StartsBehind w e.span.start := by
  induction h with
  | nil => simp [walkAll] at he
  | typeDecl ha hv _ _ _ ih =>
    obtain he | he := List.mem_append.1 he
    · exact (hv.startsBehind ha (by rwa [walk_parts_list MemberDecl.walk_parts])).append_right _
    · exact (ih he).append_left _
  | namespaceDecl _ _ _ _ _ _ _ _ _ _ ihv ihs =>
    obtain he | he := List.mem_append.1 he
    · exact (((ihv he).append_left _).append_right _).append_right _
    · exact (ihs he).append_left _

/-! ### What is shown -/

/-- Whether lines are hidden behind directives with these texts: the last one that maps lines does so. -/
def hidesBehind (texts : List String) : Bool := (texts.filterMap LineMapping.ofDirective?).getLast? = some .hidden

namespace SourceMap

variable {text before after : List Char} {directives : List Directive}

/-- A directive stands on a line before some character, just if it starts before it. -/
theorem lineOf_lt_count {d : Directive} (hd : d.StandsIn text) (htext : text = before ++ after)
    (hafter : after.head?.any (· != '\n')) (hle : d.span.start < byteLength before → d.span.stop ≤ byteLength before) :
    lineOf text d < before.count '\n' ↔ d.span.start < byteLength before := by
  obtain ⟨hfront, -, hspan, -, hbehind⟩ := hd
  rename_i front here behind
  have hline : lineOf text d = front.count '\n' := by
    rw [lineOf, hspan, Span.start_ofLength, hfront, lineAmong_eq_count]
  rw [hspan, Span.start_ofLength, Span.stop_ofLength] at hle
  rw [hline, hspan, Span.start_ofLength]
  constructor
  · intro hlt
    by_contra hge
    obtain ⟨more, rfl, -⟩ := Text.exists_between htext hfront (Nat.le_of_not_lt hge)
    rw [List.count_append] at hlt
    omega
  · intro hlt
    obtain ⟨more, rfl, hsplit⟩ := Text.exists_between (hfront.trans (List.append_assoc ..).symm) htext (by
      rw [Text.byteLength_append]
      exact hle hlt)
    -- what stands behind the directive is the end of its line
    obtain ⟨rest, rfl⟩ : ∃ rest, more = '\n' :: rest := by
      cases more with
      | nil =>
        obtain ⟨c, rest, rfl⟩ := List.exists_cons_of_ne_nil (l := after) (by rintro rfl; simp at hafter)
        subst hsplit
        simp_all
      | cons c rest =>
        subst hsplit
        exact ⟨rest, by simpa using hbehind⟩
    simp only [List.count_append, List.count_cons_self]
    omega

/-- A byte is shown if the directives before it hide no lines. -/
theorem isSome_location? (file : String) {text : String} (hstands : ∀ d ∈ directives, d.StandsIn text.toList)
    (htext : text.toList = before ++ after) (hafter : after.head?.any (· != '\n'))
    (hle : ∀ d ∈ directives, d.span.start < byteLength before → d.span.stop ≤ byteLength before) :
    ((ofText file text directives).location? (byteLength before)).isSome =
      !hidesBehind (textsBefore directives (byteLength before)) := by
  have hmapped : (mappedLines text.toList directives).filter (·.line < before.count '\n') =
      mappedLines text.toList (directives.filter (·.span.start < byteLength before)) := by
    rw [mappedLines, mappedLines, List.filter_filterMap, List.filterMap_filter]
    refine List.filterMap_congr fun d hd => ?_
    have hline := lineOf_lt_count (hstands d hd) htext hafter (hle d hd)
    cases LineMapping.ofDirective? d.text with
    | none => simp
    | some mapping => simp [Option.filter, hline]
  have hlast : (mappedLines text.toList directives).reverse.find? (·.line < before.count '\n') =
      (mappedLines text.toList (directives.filter (·.span.start < byteLength before))).getLast? := by
    rw [← hmapped, ← List.head?_reverse, ← List.filter_reverse, List.head?_filter]
  have htexts : (textsBefore directives (byteLength before)).filterMap LineMapping.ofDirective? =
      (mappedLines text.toList (directives.filter (·.span.start < byteLength before))).map (·.mapping) := by
    rw [textsBefore, mappedLines, List.filterMap_map, List.map_filterMap]
    refine List.filterMap_congr fun d _ => ?_
    rw [Function.comp_apply, Option.map_map]
    exact (congrFun Option.map_id _).symm
  rw [location?_eq file directives htext, MappedLine.inForce, hlast, hidesBehind, htexts, List.getLast?_map]
  cases (mappedLines text.toList (directives.filter (·.span.start < byteLength before))).getLast? with
  | none => rfl
  | some m =>
    obtain ⟨line, mapping⟩ := m
    cases mapping <;> rfl

end SourceMap

namespace Document

variable {d d' : Document} {c : Expr}

/-- An expression of a document begins behind the beginning of the text. -/
theorem start_pos (hc : c ∈ (exprs (parts d.tree.unit)).flatMap Expr.within) : 0 < c.span.start := by
  obtain ⟨w, w', ms', ho, htwins⟩ := d.twins
  obtain ⟨depth, hwalk⟩ := CompilationUnit.mem_walk_iff.2 (List.mem_flatMap.1 hc)
  obtain ⟨a, t, b, rfl, ha, hstart⟩ := htwins.startsBehind hwalk
  obtain ⟨first, a, rfl⟩ := List.exists_cons_of_ne_nil ha
  have hbefore : first.span.stop ≤ t.start := List.rel_of_pairwise_cons ho.pairwise (by simp)
  have hpos := ho.nonempty first (by simp)
  omega

/-- An expression is shown if the directives before it hide no lines. -/
theorem isSome_location? (hc : c ∈ (exprs (parts d.tree.unit)).flatMap Expr.within) :
    (d.sourceMap.location? c.span.start).isSome =
      !hidesBehind (textsBefore d.tree.directives c.span.start) := by
  obtain ⟨lexed, hl, hu, hdirs, -⟩ := SourceTree.ofText_eq_ok.1 d.tree_eq
  obtain ⟨a, ha, hca⟩ := List.mem_flatMap.1 hc
  obtain ⟨u, v, x, n, htokens, hv⟩ := (SourceTree.readFrom hl hu).1.inside ha hca
  obtain ⟨lexemes, hs, rfl⟩ := Lexed.ofText_eq_ok.1 hl
  obtain ⟨t, r, rfl⟩ := List.exists_cons_of_ne_nil hv.ne_nil
  obtain ⟨first, kind, text, second, rfl, -, ht, -⟩ := Lexed.tokensFrom_split (u := u) (t := t) (r := r ++ x)
    (htokens.trans (by simp))
  have hplace : c.span.start = t.start := hv.node.start t rfl
  have hstart : c.span.start = byteLength (written first) := by
    rw [hplace, ht]
    exact Nat.zero_add _
  obtain ⟨ch, rest, rfl, hblank⟩ := Scans.head_of_token hs.right
  have hne : ∀ lexeme ∈ first ++ ⟨.token kind, ch :: rest⟩ :: second, lexeme.text ≠ [] := hs.text_ne_nil
  have htext : d.text.toList = written first ++ (ch :: rest ++ written second) := by
    rw [hs.eq_written, written_append, written_cons]
  rw [hstart]
  refine SourceMap.isSome_location? d.fileName (SourceTree.directives_of_ofText d.tree_eq).1 htext
    (by simpa using Scans.ne_of_isBlank hblank) fun dir hdir hlt => ?_
  rw [hdirs] at hdir
  change dir ∈ Lexed.directivesFrom 0 (first ++ _) at hdir
  rw [Lexed.directivesFrom_append, List.mem_append] at hdir
  obtain hdir | hdir := hdir
  · have := Lexed.directivesFrom_bounds (fun x hx => hne x (List.mem_append_left _ hx)) hdir
    omega
  · have := Lexed.directivesFrom_bounds (fun x hx => hne x (List.mem_append_right _ hx)) hdir
    omega

end Document

/-! ### After a change -/

/-- Expressions and those that are read after a change stand at tokens that have to do with each other what they
should. -/
theorem Change.forall₂_abreast {c : Change} (hc : c.Lawful) {ps ps' : List Part} (h : List.Forall₂ c.Meets ps ps')
    (hb : bare (exprs ps') = bare ((exprs ps).map c.expr)) :
    List.Forall₂ (Spelled.Abreast Begins Placed fun t t' => bare t = bare t' ∧ c.sees t t')
      (((exprs ps).map c.expr).flatMap Expr.within) ((exprs ps').flatMap Expr.within) := by
  induction h with
  | nil => exact .nil
  | cons hmeets _ ih =>
    cases hmeets with
    | usings => exact ih hb
    | @expr w w' n n' e e' ho hspelled hspelled' hfit hseen =>
      obtain ⟨he, hrest⟩ := List.cons.inj hb
      refine List.rel_append ?_ (ih hrest)
      have htokens : List.Forall₂ (fun t t' => bare t = bare t' ∧ c.sees t t') (c.tokens w) w' := by
        refine List.forall₂_iff_zip.2 ⟨hseen.length_eq, fun {t t'} ht => ⟨?_, List.forall₂_zip hseen.sees ht⟩⟩
        have halike : List.Forall₂ (fun t t' => bare t = bare t') (c.tokens w) w' :=
          List.forall₂_map_left_iff.1 (List.forall₂_map_right_iff.1 (List.forall₂_eq_eq_eq.symm ▸ hseen.alike))
        exact List.forall₂_zip halike ht
      rw [← List.append_nil (c.tokens w), ← List.append_nil w'] at htokens
      have hspelled := hc.spelled w n e hspelled ho hfit
      exact (Spelled.standsAlike (fun _ _ h => h.1) (c.expr e) hspelled hspelled' he htokens).2.2

namespace SourceTree

variable {tree tree' tree'' : SourceTree} {es : List Expr}

/-- Expressions begin behind the same directives as those of a document, one by one. Expressions without a place are
said to start at the beginning or to take up nothing, and nothing is asked of them. -/
def BeginsLike (tree : SourceTree) (es : List Expr) (tree' : SourceTree) : Prop :=
  List.Forall₂ (fun c c' => 0 < c.span.start → c.span.start < c.span.stop →
      textsBefore tree.directives c.span.start = textsBefore tree'.directives c'.span.start)
    (es.flatMap Expr.within) ((exprs (parts tree'.unit)).flatMap Expr.within)

/-- After a change the expressions begin behind the same directives as before. -/
theorem MetBy.beginsLike {f : Expr → Expr} (h : tree.MetBy f tree')
    (hb : bare (exprs (parts tree'.unit)) = bare ((exprs (parts tree.unit)).map f)) :
    tree.BeginsLike ((exprs (parts tree.unit)).map f) tree' := by
  obtain ⟨c, hc, rfl, hsees, hmeets⟩ := h
  refine (Change.forall₂_abreast hc hmeets hb).imp ?_
  rintro d d' ⟨v, v', hne, hbegins, hplaced, htokens⟩ hpos hspan
  obtain ⟨t, v, rfl⟩ := List.exists_cons_of_ne_nil hne
  obtain ⟨t', v', ⟨-, ht⟩, -, rfl⟩ := List.forall₂_cons_left_iff.1 htokens
  have hstart : d.span.start = t.start := hbegins hspan t rfl
  have hstart' : d'.span.start = t'.start := hplaced.start t' rfl
  rw [hsees] at ht
  rw [hstart, hstart']
  exact ht (hstart ▸ hpos)

end SourceTree

/-- What begins alike after one change and after the next begins alike after both. -/
theorem Document.beginsLike_trans {tree tree' : SourceTree} {d : Document} {es : List Expr}
    (h : tree.BeginsLike es d.tree) (h' : d.tree.BeginsLike (exprs (parts d.tree.unit)) tree') :
    tree.BeginsLike es tree' := by
  have hplaces : List.Forall₂ (fun c c' : Expr =>
      textsBefore d.tree.directives c.span.start = textsBefore tree'.directives c'.span.start)
      ((exprs (parts d.tree.unit)).flatMap Expr.within) ((exprs (parts tree'.unit)).flatMap Expr.within) := by
    refine List.forall₂_iff_zip.2 ⟨h'.length_eq, fun {c c'} hc => ?_⟩
    have hmem := (List.of_mem_zip hc).1
    obtain ⟨a, ha, hca⟩ := List.mem_flatMap.1 hmem
    exact List.forall₂_zip h' hc (d.start_pos hmem) ((SourceTree.orderly d.tree_eq).1 a ha c hca).nonempty
  unfold SourceTree.BeginsLike at h ⊢
  generalize es.flatMap Expr.within = first at h ⊢
  generalize (exprs (parts d.tree.unit)).flatMap Expr.within = middle at h hplaces
  generalize (exprs (parts tree'.unit)).flatMap Expr.within = last at hplaces ⊢
  induction h generalizing last with
  | nil =>
    cases hplaces
    exact .nil
  | cons hc _ ih =>
    cases hplaces with
    | cons hc' hrest => exact .cons (fun hpos hspan => (hc hpos hspan).trans hc') (ih _ hrest)

end CultureLint
