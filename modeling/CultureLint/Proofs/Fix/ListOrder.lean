import CultureLint.Proofs.Fix.LineInsertion
import Mathlib.Data.List.Chain

/-! Where in a list of `using` lines a new one is put: before or behind one of them, so that imports which
are sorted stay sorted. -/

namespace CultureLint

/-! ### The order of imports -/

theorem compareImports_swap (a b : String) : (compareImports a b).swap = compareImports b a := by
  rw [compareImports, compareImports, Ordering.swap_then, ← Std.OrientedCmp.eq_swap, ← Std.OrientedCmp.eq_swap]

theorem compareImports_of_gt {a b : String} (h : compareImports a b = .gt) : compareImports b a ≠ .gt := by
  rw [← compareImports_swap, h]
  decide

theorem importsSorted_iff {names : List String} :
    importsSorted names = true ↔ names.IsChain (compareImports · · ≠ .gt) := by
  fun_induction importsSorted names with
  | case1 a b rest ih => simp [List.isChain_cons_cons, ih]
  | case2 names hshort =>
    match names, hshort with
    | [], _ => simp
    | [a], _ => simp
    | a :: b :: rest, hshort => exact absurd rfl (hshort a b rest)

/-- A namespace that none of those in front comes behind, nor the next one before. -/
theorem importsSorted_between {before after : List String} {space : String}
    (h : importsSorted (before ++ after) = true) (hbefore : ∀ a ∈ before, compareImports a space ≠ .gt)
    (hafter : ∀ b ∈ after.head?, compareImports space b ≠ .gt) :
    importsSorted (before ++ space :: after) = true := by
  rw [importsSorted_iff, List.isChain_append] at h ⊢
  obtain ⟨hfront, hback, -⟩ := h
  refine ⟨hfront, List.isChain_cons.2 ⟨hafter, hback⟩, fun a ha b hb => ?_⟩
  obtain rfl := Option.some.inj hb
  exact hbefore a (List.mem_of_mem_getLast? ha)

/-! ### The imports of a list -/

/-- The namespaces of the plain lines. -/
def plainNames (us : List Using) : List String := (us.filter Using.isPlain).map (·.name.dotted)

theorem plainNames_append (us vs : List Using) : plainNames (us ++ vs) = plainNames us ++ plainNames vs := by
  simp [plainNames]

theorem plainNames_cons {u : Using} (h : u.isPlain = true) (us : List Using) :
    plainNames (u :: us) = u.name.dotted :: plainNames us := by
  simp [plainNames, h]

/-- If the imports are sorted, they are with the namespace between them. -/
def KeepsSorted (space : String) (before after : List Using) : Prop :=
  importsSorted (plainNames (before ++ after)) = true →
    importsSorted (plainNames before ++ space :: plainNames after) = true

theorem keepsSorted_of_le {space : String} {before after : List Using}
    (hbefore : ∀ a ∈ plainNames before, compareImports a space ≠ .gt)
    (hafter : ∀ b ∈ (plainNames after).head?, compareImports space b ≠ .gt) : KeepsSorted space before after :=
  fun h => importsSorted_between (plainNames_append .. ▸ h) hbefore hafter

theorem filter_eq_append_cons {α : Type} {p : α → Bool} {as first rest : List α} {a : α}
    (h : as.filter p = first ++ a :: rest) : ∃ before after, as = before ++ a :: after ∧ p a = true ∧
      before.filter p = first ∧ after.filter p = rest := by
  obtain ⟨before, _, rfl, hbefore, hafter⟩ := List.filter_eq_append_iff.1 h
  obtain ⟨skipped, after, rfl, hskipped, ha, hafter⟩ := List.filter_eq_cons_iff.1 hafter
  refine ⟨before ++ skipped, after, by simp, ha, ?_, hafter⟩
  rw [List.filter_append, hbefore, List.filter_eq_nil_iff.2 hskipped, List.append_nil]

/-! ### The place of the new line -/

/-- The new line goes before the first plain one that comes later. -/
theorem exists_next {us : List Using} {space : String} {u : Using}
    (h : (us.filter Using.isPlain).find? (fun u => compareImports u.name.dotted space == .gt) = some u) :
    ∃ first rest, us = first ++ u :: rest ∧ u.isPlain = true ∧ KeepsSorted space first (u :: rest) := by
  obtain ⟨hlater, before, after, hplain, hnot⟩ := List.find?_eq_some_iff_append.1 h
  obtain ⟨first, rest, rfl, hu, hfirst, -⟩ := filter_eq_append_cons hplain
  refine ⟨first, rest, rfl, hu, keepsSorted_of_le ?_ ?_⟩
  · rw [plainNames, hfirst]
    simpa using hnot
  · rw [plainNames_cons hu]
    intro b hb
    obtain rfl := Option.some.inj hb
    exact compareImports_of_gt (by simpa using hlater)

/-- The new line goes behind the last plain one, or the last one of all, if no plain one comes later. -/
theorem exists_last {us : List Using} {space : String} {u : Using}
    (h : (us.filter Using.isPlain).getLast?.or us.getLast? = some u)
    (hnone : importsSorted (plainNames us) = true → ∀ a ∈ plainNames us, compareImports a space ≠ .gt) :
    ∃ first rest, us = first ++ u :: rest ∧ KeepsSorted space (first ++ [u]) rest := by
  obtain ⟨first, rest, rfl, hrest⟩ : ∃ first rest, us = first ++ u :: rest ∧ plainNames rest = [] := by
    obtain h | ⟨-, h⟩ := Option.or_eq_some_iff.1 h
    · obtain ⟨before, hplain⟩ := List.getLast?_eq_some_iff.1 h
      obtain ⟨first, rest, rfl, -, -, hrest⟩ := filter_eq_append_cons hplain
      exact ⟨first, rest, rfl, by rw [plainNames, hrest]; rfl⟩
    · obtain ⟨first, rfl⟩ := List.getLast?_eq_some_iff.1 h
      exact ⟨first, [], rfl, rfl⟩
  refine ⟨first, rest, rfl, fun hsorted => ?_⟩
  rw [List.append_cons] at hnone
  refine keepsSorted_of_le (fun a ha => hnone hsorted a ?_) (by simp [hrest]) hsorted
  rw [plainNames_append]
  exact List.mem_append_left _ ha

/-- The place for a new line is before a plain line or behind any one, where it keeps the imports sorted. -/
theorem insertionInList?_eq_some {text : String} {us : List Using} {space : String} {place : Nat × String}
    (h : insertionInList? text us space = some place) : ∃ first u rest gap, us = first ++ u :: rest ∧ IsGap gap ∧
      ((u.isGlobal = false ∧ place = (u.span.start, usingLine space ++ gap) ∧
          KeepsSorted space first (u :: rest)) ∨
        (place = (u.span.stop, gap ++ usingLine space) ∧ KeepsSorted space (first ++ [u]) rest)) := by
  simp only [insertionInList?, Option.bind_eq_bind, Option.bind_eq_some_iff] at h
  obtain ⟨head, -, h⟩ := h
  split at h
  · rename_i next hnext
    split at hnext
    · obtain ⟨first, rest, hus, hplain, hkeeps⟩ := exists_next hnext
      have hglobal : next.isGlobal = false := by
        simpa using (Bool.and_eq_true_iff.1 hplain).2
      refine ⟨first, next, rest, _, hus, isGap_lineEnding_append text (isBlank_indentationAt text next.span.start),
        .inl ⟨hglobal, ?_, hkeeps⟩⟩
      rw [← String.append_assoc]
      exact (Option.some.inj h).symm
    · simp at hnext
  · rename_i hnone
    obtain ⟨last, hlast, h⟩ := Option.bind_eq_some_iff.1 h
    have hle : importsSorted (plainNames us) = true → ∀ a ∈ plainNames us, compareImports a space ≠ .gt := by
      intro hsorted a ha
      have hnone := (if_pos hsorted).symm.trans hnone
      obtain ⟨u, hu, rfl⟩ := List.mem_map.1 ha
      simpa using List.find?_eq_none.1 hnone u hu
    obtain ⟨first, rest, hus, hkeeps⟩ := exists_last hlast hle
    exact ⟨first, last, rest, _, hus, isGap_lineEnding_append text (isBlank_indentationAt text _),
      .inr ⟨(Option.some.inj h).symm, hkeeps⟩⟩

theorem insertionInList?_eq_none {text : String} {us : List Using} {space : String}
    (h : insertionInList? text us space = none) : us = [] := by
  cases us with
  | nil => rfl
  | cons u us =>
    simp only [insertionInList?, List.head?_cons, Option.bind_eq_bind, Option.bind_some] at h
    split at h
    · simp at h
    · simp [List.getLast?_cons] at h

/-- A document with the new line in its place is read again with it. -/
theorem SourceTree.exists_added {text space : String} {tree : SourceTree} {us : List Using} {place : Nat × String}
    (h : ofText text = .ok tree) (hus : .usings us ∈ parts tree.unit) (hspace : IsNamespaceName space)
    (hplace : insertionInList? text us space = some place) : ∃ text₁ tree₁ add first u rest,
      Text.insert? text place.1 place.2 = some text₁ ∧ ofText text₁ = .ok tree₁ ∧ us = first ++ u :: rest ∧
      Added add u space tree tree₁ ∧ ((add.behind = false ∧ KeepsSorted space first (u :: rest)) ∨
        (add.behind = true ∧ KeepsSorted space (first ++ [u]) rest)) := by
  obtain ⟨first, u, rest, gap, rfl, hgap, hplace⟩ := insertionInList?_eq_some hplace
  have hu : u ∈ first ++ u :: rest := by simp
  obtain ⟨hglobal, rfl, hkeeps⟩ | ⟨rfl, hkeeps⟩ := hplace
  · obtain ⟨text₁, tree₁, add, hinsert, htree, hbehind, hadd⟩ := ofText_before h hus hu hgap hspace hglobal
    exact ⟨text₁, tree₁, add, first, u, rest, hinsert, htree, rfl, hadd, .inl ⟨hbehind, hkeeps⟩⟩
  · obtain ⟨text₁, tree₁, add, hinsert, htree, hbehind, hadd⟩ := ofText_behind h hus hu hgap hspace
    exact ⟨text₁, tree₁, add, first, u, rest, hinsert, htree, rfl, hadd, .inr ⟨hbehind, hkeeps⟩⟩

end CultureLint
