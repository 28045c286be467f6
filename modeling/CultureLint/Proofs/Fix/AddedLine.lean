import CultureLint.Proofs.Fix.ImportScope
import CultureLint.Proofs.Tree.Lists

/-! A `using` line added to the lines around a position. Main statement: one list of lines has it in
addition, where sorted imports stay sorted, and the document is otherwise as it was. -/

namespace CultureLint

/-! ### Where the lines of a document stand -/

/-- One line starts before another one. -/
def Using.Before (a b : Using) : Prop := a.span.start < b.span.start

/-- Lines that start with tokens of two stretches, one behind the other. -/
theorem Ordered.before {w v : List Token} (h : Ordered (w ++ v)) {a b : Using}
    (ha : ∃ t ∈ w, a.span.start = t.start) (hb : ∃ t ∈ v, b.span.start = t.start) : a.Before b := by
  obtain ⟨s, hs, hstart⟩ := ha
  obtain ⟨t, ht, hstart'⟩ := hb
  have hbefore := (append_iff.1 h).2.2 s hs t ht
  have hsome := h.left.nonempty s hs
  unfold Using.Before
  omega

/-- A line starts with one of the tokens of all. -/
theorem Lines.exists_start {w : List Token} {us : List Using} (h : Lines w us) {u : Using} (hu : u ∈ us) :
    ∃ t ∈ w, u.span.start = t.start := by
  obtain ⟨x, v, y, rfl, hv, hp⟩ := Addition.Lines.mem h hu
  obtain ⟨⟨t, ht, hstart⟩, -⟩ := hp.ends hv.ne_nil
  exact ⟨t, by simp [ht], hstart⟩

theorem Lines.pairwise_before {w : List Token} {us : List Using} (h : Lines w us) (ho : Ordered w) :
    us.Pairwise Using.Before := by
  induction h with
  | nil => exact .nil
  | @cons v w u us hv hp hs ih =>
    exact List.pairwise_cons.2 ⟨fun b hb => ho.before (hp.ends hv.ne_nil).1 (hs.exists_start hb), ih ho.right⟩

/-- A line among the parts starts with one of the tokens. -/
theorem Laid.exists_start {w : List Token} {ps : List Part} (h : Laid w ps) {u : Using}
    (hu : u ∈ (Part.lists ps).flatten) : ∃ t ∈ w, u.span.start = t.start := by
  obtain ⟨us, hus, hu⟩ := List.mem_flatten.1 hu
  obtain ⟨x, v, y, rfl, hlines⟩ := h.mem (Part.mem_lists.1 hus)
  obtain ⟨t, ht, hstart⟩ := Lines.exists_start hlines hu
  exact ⟨t, by simp [ht], hstart⟩

theorem Laid.pairwise_lines {w : List Token} {ps : List Part} (h : Laid w ps) (ho : Ordered w) :
    (Part.lists ps).flatten.Pairwise Using.Before := by
  induction h with
  | nil => exact .nil
  | @cons x v w p ps hp hs ih =>
    have hrest := ih ho.right
    cases p with
    | expr e => exact hrest
    | usings us =>
      rw [Part.lists_cons_usings, List.flatten_cons]
      refine List.pairwise_append.2 ⟨Lines.pairwise_before hp ho.left.right, hrest, fun a ha b hb => ?_⟩
      obtain ⟨t, ht, hstart⟩ := Lines.exists_start hp ha
      exact ho.before ⟨t, List.mem_append_right _ ht, hstart⟩ (hs.exists_start hb)

/-- The lines of a document, list after list, stand one behind the other. -/
theorem SourceTree.pairwise_lines {text : String} {tree : SourceTree} (h : ofText text = .ok tree) :
    (Part.lists (parts tree.unit)).flatten.Pairwise Using.Before := by
  obtain ⟨lexed, hl, hunit, -⟩ := ofText_eq_ok.1 h
  obtain ⟨hread, ho⟩ := readFrom hl hunit
  exact hread.laid.pairwise_lines ho

/-! ### One list among all -/

theorem Using.Before.span_ne {a b : Using} (h : a.Before b) : a.span ≠ b.span := fun heq =>
  Nat.ne_of_lt h (congrArg Span.start heq)

section

variable {lists : List (List Using)} {us : List Using} (h : lists.flatten.Pairwise Using.Before) (hus : us ∈ lists)
include h hus

/-- A list with a line in it stands in one place only. -/
theorem count_eq_one_of_before (hne : us ≠ []) : lists.count us = 1 := by
  obtain ⟨u, hu⟩ := List.exists_mem_of_ne_nil us hne
  have hlists := (List.pairwise_flatten.1 h).2
  obtain ⟨first, rest, rfl⟩ := List.append_of_mem hus
  obtain ⟨-, hrest, hfirst⟩ := List.pairwise_append.1 hlists
  have hbefore : us ∉ first := fun hmem =>
    Nat.lt_irrefl _ (hfirst us hmem us (List.mem_cons_self ..) u hu u hu)
  have hbehind : us ∉ rest := fun hmem =>
    Nat.lt_irrefl _ (List.rel_of_pairwise_cons hrest hmem u hu u hu)
  rw [List.count_append, List.count_cons_self, List.count_eq_zero_of_not_mem hbefore,
    List.count_eq_zero_of_not_mem hbehind]

/-- No line of another list has the span of one of this. -/
theorem span_ne_of_before {vs : List Using} (hvs : vs ∈ lists) (hne : vs ≠ us) {u v : Using} (hu : u ∈ us)
    (hv : v ∈ vs) : v.span ≠ u.span := by
  have : Std.Symm fun as bs : List Using => ∀ a ∈ as, ∀ b ∈ bs, a.span ≠ b.span :=
    ⟨fun _ _ hab b hb a ha => (hab a ha b hb).symm⟩
  have hlists : lists.Pairwise fun as bs => ∀ a ∈ as, ∀ b ∈ bs, a.span ≠ b.span :=
    (List.pairwise_flatten.1 h).2.imp fun hab a ha b hb => (hab a ha b hb).span_ne
  exact hlists.forall hvs hus hne v hv u hu

end

/-! ### The list with the new line -/

namespace Addition

variable {add : Addition}

/-- A list that does not have the line next to which the new one comes. -/
theorem insert_of_forall_ne {us : List Using} (h : ∀ u ∈ us, u.span ≠ add.target) : add.insert us = us :=
  (List.flatMap_congr fun u hu => if_neg (h u hu)).trans (List.flatMap_singleton' us)

theorem insert_append_cons {first rest : List Using} {u : Using} (hu : u.span = add.target)
    (h : (first ++ u :: rest).Pairwise Using.Before) : add.insert (first ++ u :: rest) =
      first ++ (if add.behind then [u, add.line] else [add.line, u]) ++ rest := by
  obtain ⟨-, hrest, hfirst⟩ := List.pairwise_append.1 h
  have h₁ : add.insert first = first := insert_of_forall_ne fun v hv =>
    hu ▸ (hfirst v hv u (List.mem_cons_self ..)).span_ne
  have h₂ : add.insert rest = rest := insert_of_forall_ne fun v hv =>
    hu ▸ (List.rel_of_pairwise_cons hrest hv).span_ne.symm
  have hsplit : add.insert (first ++ u :: rest) =
      add.insert first ++ ((if add.behind then [u, add.line] else [add.line, u]) ++ add.insert rest) := by
    simp [insert, hu]
  rw [hsplit, h₁, h₂, List.append_assoc]

/-- Before or behind a line of the list, the new one stands between some of the lines and the others. -/
theorem exists_insert_eq {first rest : List Using} {u : Using} {space : String} (hu : u.span = add.target)
    (h : (first ++ u :: rest).Pairwise Using.Before)
    (hkeeps : (add.behind = false ∧ KeepsSorted space first (u :: rest)) ∨
      (add.behind = true ∧ KeepsSorted space (first ++ [u]) rest)) :
    ∃ before after, first ++ u :: rest = before ++ after ∧
      add.insert (first ++ u :: rest) = before ++ add.line :: after ∧ KeepsSorted space before after := by
  rw [insert_append_cons hu h]
  obtain ⟨hbehind, hkeeps⟩ | ⟨hbehind, hkeeps⟩ := hkeeps
  · exact ⟨first, u :: rest, rfl, by simp [hbehind], hkeeps⟩
  · exact ⟨first ++ [u], rest, by simp, by simp [hbehind], hkeeps⟩

end Addition

/-- Where a line was added, all other lists are as they were. -/
theorem SourceTree.Added.bare_withList {text space : String} {tree tree' : SourceTree} {add : Addition}
    {us : List Using} {u : Using} (hadd : Added add u space tree tree') (h : ofText text = .ok tree)
    (hus : us ∈ Part.lists (parts tree.unit)) (hu : u ∈ us) :
    bare tree' = bare (tree.withList us (add.insert us)) := by
  rw [← hadd.bare_eq]
  refine congrArg (fun unit => bare { tree with unit := unit }) (CompilationUnit.map_congr fun vs hvs => ?_)
  split
  · rename_i heq
    rw [heq]
    rfl
  · rename_i hne
    exact Addition.insert_of_forall_ne fun v hv =>
      hadd.hits.1 ▸ span_ne_of_before (pairwise_lines h) hus hvs hne hu hv

namespace Document

/-- Adding an import where there are lines already succeeds. The innermost of the lists that has lines, which
stands in one place of the document only, has a line of that namespace in addition, between those that it
had; if its imports were sorted they are; and nothing else in the document changes. -/
theorem insertImport_adds_line (d : Document) (space : String) (hspace : IsNamespaceName space) (position : Nat)
    (hne : d.tree.unit.usingsAt position ≠ []) : ∃ d' line before after,
      (d.insertImport .adding space position).run' .live = (.ok (some d'), .live) ∧
      line.Imports space ∧ d.tree.unit.usingsAt position = before ++ after ∧
      (Part.lists (parts d.tree.unit)).count (before ++ after) = 1 ∧
      bare d'.tree = bare (d.tree.withList (before ++ after) (before ++ line :: after)) ∧
      (importsSorted (plainNames (before ++ after)) = true →
        importsSorted (plainNames (before ++ line :: after)) = true) := by
  obtain ⟨hsees, -⟩ := d.tree.unit.sees_usingsAt position
  have hlines := SourceTree.pairwise_lines d.tree_eq
  have hmem := Part.mem_lists.2 hsees.mem_parts
  obtain ⟨place, hplace⟩ : ∃ place, insertionInList? d.text (d.tree.unit.usingsAt position) space = some place :=
    Option.ne_none_iff_exists'.1 (mt insertionInList?_eq_none hne)
  obtain ⟨text, tree, add, first, u, rest, hinsert, htree, hus, hadd, hsorted⟩ :=
    SourceTree.exists_added d.tree_eq hsees.mem_parts hspace hplace
  have hrun : (d.insertImport .adding space position).run' .live =
      (.ok (some ⟨d.path, text, tree, d.version + 1, htree⟩), .live) := by
    refine Run.run'_map (d.run'_addImport ?_ htree)
    rwa [importInsertion, hplace]
  have hu : u ∈ d.tree.unit.usingsAt position := by simp [hus]
  obtain ⟨before, after, hsplit, hnew, hkeeps⟩ := Addition.exists_insert_eq hadd.hits.1
    (hus ▸ (List.pairwise_flatten.1 hlines).1 _ hmem) hsorted
  rw [← hus] at hsplit hnew
  refine ⟨_, add.line, before, after, hrun, hadd.imports, hsplit, hsplit ▸ count_eq_one_of_before hlines hmem hne, ?_,
    fun h => ?_⟩
  · rw [← hsplit, ← hnew]
    exact hadd.bare_withList d.tree_eq hmem hu
  · rw [plainNames_append, plainNames_cons hadd.imports.plain, hadd.imports.name]
    exact hkeeps h

/-- A namespace with lines of its own, one of which imports no namespace, in a document with another line. -/
def innerLinesText : String := "using A;namespace N\x7busing System;using static S;using Z;\x7d"

theorem insertImport_adds_line_inner : ∃ d : Document, d.text = innerLinesText ∧ IsNamespaceName "M.B" ∧
    (d.tree.unit.usingsAt 25).length = 3 ∧ ∃ d' line before after,
      (d.insertImport .adding "M.B" 25).run' .live = (.ok (some d'), .live) ∧ line.Imports "M.B" ∧
      d.tree.unit.usingsAt 25 = before ++ after ∧
      bare d'.tree = bare (d.tree.withList (before ++ after) (before ++ line :: after)) ∧
      importsSorted (plainNames (before ++ line :: after)) = true := by
  have found : ((SourceTree.ofText innerLinesText).toOption.any fun tree =>
      (tree.unit.usingsAt 25).length == 3 && importsSorted (plainNames (tree.unit.usingsAt 25))) = true := by
    decide +kernel
  have hspace : IsNamespaceName "M.B" := ⟨"M", ["B"], by decide, by decide⟩
  cases h : SourceTree.ofText innerLinesText with
  | error e => simp [h, Except.toOption] at found
  | ok tree =>
    simp only [h, Except.toOption, Option.any_some, Bool.and_eq_true, beq_iff_eq] at found
    let d : Document := ⟨"A.cs", innerLinesText, tree, 0, h⟩
    obtain ⟨d', line, before, after, hrun, hline, hsplit, -, hbare, hsorted⟩ := insertImport_adds_line d _ hspace 25
      (List.ne_nil_of_length_pos (found.1 ▸ Nat.zero_lt_succ 2))
    exact ⟨d, rfl, hspace, found.1, d', line, before, after, hrun, hline, hsplit, hbare,
      hsorted (hsplit ▸ found.2)⟩

end Document

end CultureLint
