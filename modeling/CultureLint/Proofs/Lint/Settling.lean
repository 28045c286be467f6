import CultureLint.Lint.FixAll
import CultureLint.Proofs.Fix.MendedProject

/-! Mending all findings comes to an end. In the turn of a document each step mends one finding of it. As long as no
word takes on another meaning and no value stays what it is when it is formatted, the step leaves one finding less in
the document and what there was in the others, so that nothing is left when all documents had their turn. -/

namespace CultureLint

theorem Run.run'_mapM {α β : Type} {f : α → Run β} {g : α → β}
    (h : ∀ a, (f a).run' .live = (.ok (g a), .live)) (as : List α) :
    (as.mapM f).run' .live = (.ok (as.map g), .live) := by
  induction as with
  | nil => rfl
  | cons a as ih =>
    rw [List.mapM_cons, run'_bind (h a), run'_bind ih]
    rfl

/-! ### Checking -/

/-- The findings that are looked at under some settings. -/
def Snapshot.checked (s : Snapshot) (settings : Settings) : List Diagnostic :=
  if settings.rules.contains .stringConcatConversion && (settings.includeGenerated || !s.document.isGenerated)
  then s.allFindings else []

theorem Snapshot.run'_check (s : Snapshot) (settings : Settings) :
    (s.check settings).run' .live = (.ok (s.checked settings), .live) := by
  unfold check checked
  cases settings.rules.contains .stringConcatConversion
  · rfl
  cases settings.includeGenerated <;> cases s.document.isGenerated
  · exact s.run'_analyze
  · rfl
  · exact s.run'_analyze
  · exact s.run'_analyze

theorem Snapshot.findsAt_of_mem_checked {s : Snapshot} {settings : Settings} {x : Diagnostic}
    (hx : x ∈ s.checked settings) {span : Span} (hspan : x.span = some span) : s.FindsAt span := by
  unfold checked at hx
  split at hx
  · exact findsAt_of_mem_allFindings hx hspan
  · cases hx

namespace Project

variable (settings : Settings) {host : ImportHost} {index : Nat} {p p' : Project} {s : Snapshot}

/-- What a check reports of each document. -/
def reports (p : Project) : List (List Diagnostic) := p.snapshots.map (·.checked settings)

theorem run'_check (p : Project) : (p.check settings).run' .live = (.ok (p.reports settings), .live) :=
  Run.run'_mapM (fun s => s.run'_check settings) p.snapshots

/-- How many of the findings that a check reports of a document can be mended. -/
def mendable (p : Project) (index : Nat) : Nat :=
  ((p.reports settings)[index]?.getD []).countP Diagnostic.isFixable

variable {settings}

theorem mendable_eq (hs : p.snapshot? index = some s) :
    p.mendable settings index = (s.checked settings).countP Diagnostic.isFixable := by
  rw [snapshot?] at hs
  simp [mendable, reports, hs]

theorem mendable_of_snapshot?_eq_none (hs : p.snapshot? index = none) : p.mendable settings index = 0 := by
  rw [snapshot?] at hs
  simp [mendable, reports, hs]

/-! ### The turn of a document -/

theorem run'_fixFirst_of_mendable_eq_zero (hs : p.snapshot? index = some s)
    (h : p.mendable settings index = 0) :
    (p.fixFirst host index s (s.checked settings)).run' .live = (.ok none, .live) := by
  rw [mendable_eq hs, List.countP_eq_length_filter] at h
  rw [fixFirst, List.eq_nil_of_length_eq_zero h]
  rfl

/-- One of the findings that a check reports of a document is mended. -/
def MendsIn (settings : Settings) (host : ImportHost) (index : Nat) (p q : Project) : Prop :=
  ∃ s d, p.snapshot? index = some s ∧ q = p.replaceDocument index d ∧
    ∃ x ∈ s.checked settings, x.isFixable = true ∧ ∃ span, x.span = some span ∧
      (s.applyFix host span).run' .live = (.ok d, .live)

/-- Where there is something to mend, the first of it is mended. -/
theorem run'_fixFirst (hhost : host = .adding ∨ host = .absent) (hs : p.snapshot? index = some s)
    (h : p.mendable settings index ≠ 0) :
    ∃ q, (p.fixFirst host index s (s.checked settings)).run' .live = (.ok (some q), .live) ∧
      p.MendsIn settings host index q := by
  have hsome : (((s.checked settings).filter Diagnostic.isFixable).findSome? Diagnostic.span).isSome := by
    rw [mendable_eq hs, ← Nat.pos_iff_ne_zero, List.countP_pos_iff] at h
    obtain ⟨x, hx, hfixable⟩ := h
    simp only [Diagnostic.isFixable, Bool.and_eq_true] at hfixable
    rw [List.findSome?_isSome_iff]
    exact ⟨x, List.mem_filter.2 ⟨hx, by simp [Diagnostic.isFixable, hfixable]⟩, hfixable.2⟩
  obtain ⟨span, hspan⟩ := Option.isSome_iff_exists.1 hsome
  obtain ⟨x, hx, hxspan⟩ := List.exists_of_findSome?_eq_some hspan
  obtain ⟨hx, hfixable⟩ := List.mem_filter.1 hx
  have hfinds := Snapshot.findsAt_of_mem_checked hx hxspan
  obtain ⟨d, hd, hlonger, -⟩ := Snapshot.run'_applyFix (List.mem_of_getElem? hs) hhost span
  have hne : d.text ≠ s.document.text := fun heq => by simpa [heq] using hlonger hfinds
  refine ⟨p.replaceDocument index d, ?_, s, d, hs, rfl, x, hx, hfixable, span, hxspan, hd⟩
  rw [fixFirst, hspan]
  simp only [Run.run'_bind hd, if_neg hne]
  rfl

/-- The steps of the turn are the rounds of the bound: the turn ends where nothing is left to mend, or at the bound. -/
theorem run'_fixUpTo (hhost : host = .adding ∨ host = .absent) (index bound : Nat) (p : Project) :
    ∃ later : List Project, (p :: later).IsChain (MendsIn settings host index) ∧
      (fixUpTo settings host index bound p).run' .live = (.ok (later.getLastD p, later.length), .live) ∧
      ((later.getLastD p).mendable settings index = 0 ∨ later.length = bound) := by
  induction bound generalizing p with
  | zero => exact ⟨[], .singleton p, rfl, .inr rfl⟩
  | succ bound ih =>
    cases hs : p.snapshot? index with
    | none =>
      refine ⟨[], .singleton p, ?_, .inl (mendable_of_snapshot?_eq_none hs)⟩
      simp only [fixUpTo, hs]
      rfl
    | some s =>
      simp only [fixUpTo, hs, Run.run'_bind (s.run'_check settings), fixThen]
      by_cases h : p.mendable settings index = 0
      · refine ⟨[], .singleton p, ?_, .inl h⟩
        rw [Run.run'_bind (run'_fixFirst_of_mendable_eq_zero hs h)]
        rfl
      · obtain ⟨q, hq, hmends⟩ := run'_fixFirst hhost hs h
        obtain ⟨later, hchain, hrun, hsettled⟩ := ih q
        refine ⟨q :: later, List.isChain_cons_cons.2 ⟨hmends, hchain⟩, ?_, ?_⟩
        · rw [Run.run'_bind hq, List.getLastD_cons]
          exact Run.run'_bind hrun
        · rw [List.getLastD_cons]
          exact hsettled.imp_right (congrArg (· + 1))

/-- The turn of a document is as many rounds as there are findings in the beginning, and some more. -/
theorem run'_fixDocument_eq (settings : Settings) (host : ImportHost) (index : Nat) (p : Project) :
    (p.fixDocument settings host index).run' .live =
      (fixUpTo settings host index (p.mendable settings index + spareFixes) p).run' .live := by
  obtain ⟨bound, hbound⟩ : ∃ bound, p.mendable settings index + spareFixes = bound + 1 := ⟨_, rfl⟩
  rw [hbound]
  cases hs : p.snapshot? index with
  | none => simp only [fixDocument, fixUpTo, hs]
  | some s =>
    rw [mendable_eq hs] at hbound
    simp only [fixDocument, fixUpTo, hs, Run.run'_bind (s.run'_check settings), hbound, Nat.add_sub_cancel]

/-- The turn of a document mends at most as many findings as there are in the beginning and some more. -/
theorem run'_fixDocument (settings : Settings) (hhost : host = .adding ∨ host = .absent) (index : Nat) (p : Project) :
    ∃ later : List Project, (p :: later).IsChain (MendsIn settings host index) ∧
      (p.fixDocument settings host index).run' .live = (.ok (later.getLastD p, later.length), .live) ∧
      ((later.getLastD p).mendable settings index = 0 ∨
        later.length = p.mendable settings index + spareFixes) := by
  rw [run'_fixDocument_eq]
  exact run'_fixUpTo hhost index _ p

/-! ### One finding less -/

/-- Mending a finding leaves less to mend in the document, and nothing else to mend in the others. -/
theorem MendsIn.mendable {q : Project} (h : p.MendsIn settings host index q)
    (hhost : host = .adding ∨ host = .absent) (hformats : p.FormatsOnce) (hrenames : host = .adding → ¬ p.Renames q) :
    q.FormatsOnce ∧ (∀ i ≠ index, q.mendable settings i = p.mendable settings i) ∧
      q.mendable settings index < p.mendable settings index := by
  obtain ⟨s, d, hs, rfl, x, hx, -, span, hspan, hd⟩ := h
  have hchecked : s.checked settings = s.allFindings := by
    unfold Snapshot.checked at hx ⊢
    split at hx
    · exact if_pos ‹_›
    · cases hx
  obtain ⟨hsame, hothers, s', hs', hcount⟩ := mended hs (hchecked ▸ hx) hspan hhost hd hformats hrenames
  refine ⟨?_, fun i hi => ?_, ?_⟩
  · rw [FormatsOnce, hsame]
    exact hformats
  · cases hi' : p.snapshot? i with
    | none => rw [mendable_of_snapshot?_eq_none hi', mendable_of_snapshot?_eq_none ((hothers i hi).trans hi')]
    | some t => rw [mendable_eq hi', mendable_eq ((hothers i hi).trans hi')]
  · rw [mendable_eq hs, mendable_eq hs', hchecked, ← hcount]
    refine Nat.lt_succ_of_le ?_
    unfold Snapshot.checked
    split
    · exact Nat.le_refl _
    · exact Nat.zero_le _

/-- A struct whose values stay what they are when they are formatted, and a field that adds one to a string. -/
def lastingText : String :=
  "struct A\x7bA ToString(System.IFormatProvider p);\x7dclass P\x7bstatic A a;string f=\"\"+a;\x7d"

/-- A call that gives a value that could be formatted again leaves as much to mend as there was. -/
theorem mendsIn_lasting : ∃ p q : Project, p.MendsIn {} .absent 0 q ∧ p.mendable {} 0 ≠ 0 ∧
    q.mendable {} 0 = p.mendable {} 0 ∧ ¬ p.FormatsOnce := by
  have found : ((Document.parse "C.cs" lastingText).toOption.any fun d =>
      let p := Project.mk [.core, .globalization] [d]
      p.mendable {} 0 != 0 && (p.snapshot? 0).any fun s =>
        ((p.fixFirst .absent 0 s (s.checked {})).run' .live).1.toOption.any fun next =>
          next.any fun q => q.mendable {} 0 == p.mendable {} 0) = true := by decide +kernel
  obtain ⟨d, -, found⟩ := Option.any_eq_true _ _ |>.1 found
  generalize Project.mk [.core, .globalization] [d] = p at found
  simp only [Bool.and_eq_true, bne_iff_ne, ne_eq] at found
  obtain ⟨hne, found⟩ := found
  obtain ⟨s, hs, found⟩ := Option.any_eq_true _ _ |>.1 found
  obtain ⟨q, hrun, hmends⟩ := run'_fixFirst (.inr rfl : ImportHost.absent = .adding ∨ _) hs hne
  simp only [hrun, Except.toOption, Option.any_some, beq_iff_eq] at found
  refine ⟨p, q, hmends, hne, found, fun hformats => ?_⟩
  obtain ⟨-, -, hless⟩ := hmends.mendable (.inr rfl) hformats nofun
  omega

/-- The turn of a document makes nothing more to mend in the others, and each step mends one finding in the document. -/
theorem mendable_of_isChain (hhost : host = .adding ∨ host = .absent) {later : List Project}
    (hchain : (p :: later).IsChain (MendsIn settings host index)) (hformats : p.FormatsOnce)
    (hrenames : host = .adding → (p :: later).IsChain fun q q' => ¬ q.Renames q') :
    (later.getLastD p).FormatsOnce ∧
      (∀ i ≠ index, (later.getLastD p).mendable settings i = p.mendable settings i) ∧
      later.length + (later.getLastD p).mendable settings index ≤ p.mendable settings index := by
  induction later generalizing p with
  | nil => exact ⟨hformats, fun _ _ => rfl, by simp⟩
  | cons q later ih =>
    obtain ⟨hstep, hchain⟩ := List.isChain_cons_cons.1 hchain
    obtain ⟨hformats, hothers, hless⟩ := hstep.mendable hhost hformats
      fun h => (List.isChain_cons_cons.1 (hrenames h)).1
    obtain ⟨hlast, hothers', hcount⟩ := ih hchain hformats fun h => (List.isChain_cons_cons.1 (hrenames h)).2
    rw [List.getLastD_cons, List.length_cons]
    exact ⟨hlast, fun i hi => (hothers' i hi).trans (hothers i hi), by omega⟩

/-! ### All documents -/

theorem getLastD_append (p : Project) (qs rs : List Project) :
    (qs ++ rs).getLastD p = rs.getLastD (qs.getLastD p) := by
  induction qs generalizing p with
  | nil => rfl
  | cons q qs ih => rw [List.cons_append, List.getLastD_cons, List.getLastD_cons, ih]

theorem isChain_append {step : Project → Project → Prop} {p : Project} {qs rs : List Project} :
    (p :: (qs ++ rs)).IsChain step ↔ (p :: qs).IsChain step ∧ (qs.getLastD p :: rs).IsChain step := by
  induction qs generalizing p with
  | nil => simp
  | cons q qs ih =>
    rw [List.cons_append, List.isChain_cons_cons, List.isChain_cons_cons, ih, and_assoc, List.getLastD_cons]

/-- The turn of one more document, behind the turns of others. -/
def takeTurn (settings : Settings) (host : ImportHost) (done : Project × Nat) (index : Nat) : Run (Project × Nat) := do
  let (next, more) ← done.1.fixDocument settings host index
  return (next, done.2 + more)

/-- The turns of some documents one after the other. Where nothing is renamed, nothing is left to mend in them, and
nothing more in the others. -/
theorem run'_turns (settings : Settings) (hhost : host = .adding ∨ host = .absent) (indices : List Nat) (p : Project)
    (count : Nat) : ∃ later : List Project,
      (p :: later).IsChain (fun q q' => ∃ index, q.MendsIn settings host index q') ∧
      (indices.foldlM (takeTurn settings host) (p, count)).run' .live =
        (.ok (later.getLastD p, count + later.length), .live) ∧
      (p.FormatsOnce → (host = .adding → (p :: later).IsChain fun q q' => ¬ q.Renames q') → ∀ i,
        (later.getLastD p).mendable settings i ≤ p.mendable settings i ∧
          (i ∈ indices → (later.getLastD p).mendable settings i = 0)) := by
  induction indices generalizing p count with
  | nil => exact ⟨[], .singleton p, rfl, fun _ _ i => ⟨Nat.le_refl _, nofun⟩⟩
  | cons index indices ih =>
    obtain ⟨first, hfirst, hrun, hsettled⟩ := run'_fixDocument settings hhost index p
    obtain ⟨rest, hrest, hruns, hnext⟩ := ih (first.getLastD p) (count + first.length)
    refine ⟨first ++ rest, isChain_append.2 ⟨hfirst.imp fun q q' h => ⟨index, h⟩, hrest⟩, ?_,
      fun hformats hrenames i => ?_⟩
    · rw [getLastD_append, List.length_append, ← Nat.add_assoc, List.foldlM_cons, Run.run'_bind]
      · exact hruns
      · exact Run.run'_bind hrun
    · obtain ⟨hlast, hothers, hcount⟩ := mendable_of_isChain hhost hfirst hformats
        fun h => (isChain_append.1 (hrenames h)).1
      have hdone : (first.getLastD p).mendable settings index = 0 := hsettled.resolve_right fun hbound => by
        have : 0 < spareFixes := by decide
        omega
      obtain ⟨hle, hzero⟩ := hnext hlast (fun h => (isChain_append.1 (hrenames h)).2) i
      rw [getLastD_append]
      by_cases hi : i = index
      · subst hi
        rw [hdone] at hle
        exact ⟨Nat.le_trans hle (Nat.zero_le _), fun _ => Nat.le_zero.1 hle⟩
      · rw [hothers i hi] at hle
        exact ⟨hle, fun hmem => hzero ((List.mem_cons.1 hmem).resolve_left hi)⟩

theorem mendable_of_length_le {i : Nat} (hi : p.documents.length ≤ i) : p.mendable settings i = 0 := by
  refine mendable_of_snapshot?_eq_none ?_
  rw [snapshot?, snapshots]
  simp [hi]

/-- Where nothing is left to mend, nothing is done. -/
theorem run'_fixAll_of_mendable_eq_zero (hhost : host = .adding ∨ host = .absent)
    (h : ∀ i, p.mendable settings i = 0) : (p.fixAll settings host).run' .live = (.ok (p, 0), .live) := by
  obtain ⟨later, hchain, hrun, -⟩ := run'_turns settings hhost (List.range p.documents.length) p 0
  cases later with
  | nil => exact hrun
  | cons q later =>
    obtain ⟨index, s, d, hs, -, x, hx, hfixable, -⟩ := (List.isChain_cons_cons.1 hchain).1
    have hnone := h index
    rw [mendable_eq hs, List.countP_eq_zero] at hnone
    exact absurd hfixable (hnone x hx)

/-- A struct that can be written with a culture, and a field that adds the field of another document to a
string. -/
def earlierText : String :=
  "namespace System.Globalization\x7bstruct Z\x7bstring ToString(IFormatProvider p);\x7d\x7d" ++
    "class P\x7bstring f=\"\"+Q.F;\x7d"

/-- A document in which the name of the struct has a meaning as soon as the culture is imported. -/
def laterText : String := "class Q\x7bstatic Z F;string g=\"\"+1;\x7d"

end Project

end CultureLint
