import CultureLint.Proofs.Lint.AllOrNothing
import CultureLint.Proofs.Lint.Settling

/-! What mending a document is accounted for by. Mending a finding commits one edit, or two where a line is
added for the import; so from the number of findings that were mended in the turn of a document follow the
bounds of its version, and nothing but the document itself is touched. -/

namespace CultureLint

open Run

/-! ### Edits of a document -/

/-- The document after some edits: without any it is the same, and each counts in the version. -/
structure Document.EditedBy (d d' : Document) (edits : Nat) : Prop where
  path : d'.path = d.path
  version : d'.version = d.version + edits
  same : edits = 0 → d' = d

namespace Document

variable {d d' d'' : Document} {m n : Nat}

theorem EditedBy.refl (d : Document) : d.EditedBy d 0 := ⟨rfl, rfl, fun _ => rfl⟩

theorem EditedBy.trans (h : d.EditedBy d' m) (h' : d'.EditedBy d'' n) : d.EditedBy d'' (m + n) where
  path := h'.path.trans h.path
  version := by rw [h'.version, h.version, Nat.add_assoc]
  same hzero := by
    obtain ⟨rfl, rfl⟩ := Nat.add_eq_zero_iff.1 hzero
    rw [h'.same rfl, h.same rfl]

theorem gives_withText (d : Document) (text : String) :
    Gives (Run.ofRead (d.withText text)) fun d' => d.EditedBy d' 1 := by
  unfold withText Document.ofText
  split
  · exact .pure ⟨rfl, rfl, nofun⟩
  · exact .throw _

/-- A commit is an edit, and where the session failed there is none. -/
theorem gives_commitEdit {session : Option EditSession} (h : ∀ s ∈ session, s.document = d) :
    Gives (d.commitEdit session) fun d' => ∃ edits ≤ 1, d.EditedBy d' edits := by
  cases session with
  | none => exact .pure ⟨0, by omega, .refl d⟩
  | some session =>
    obtain rfl := h session rfl
    refine Gives.bind (.any _) fun _ _ token d' hd' => ?_
    exact ⟨1, by omega, session.document.gives_withText _ token d' hd'⟩

theorem gives_addImport (d : Document) (space : String) (position : Nat) :
    Gives (d.addImport space position) fun d' => ∃ edits ≤ 1, d.EditedBy d' edits := by
  refine gives_commitEdit fun s hs => ?_
  obtain ⟨_, -, rfl⟩ := Option.map_eq_some_iff.1 hs
  rfl

/-- An import that is added is an edit, and only where the surroundings can add one. -/
theorem gives_insertImport (d : Document) (host : ImportHost) (space : String) (position : Nat) :
    Gives (d.insertImport host space position) fun added => ∀ d', added = some d' →
      host ≠ .absent ∧ ∃ edits ≤ 1, d.EditedBy d' edits := by
  have hadd {host : ImportHost} (hne : host ≠ .absent) : Gives (some <$> d.addImport space position) fun added =>
      ∀ d', added = some d' → host ≠ .absent ∧ ∃ edits ≤ 1, d.EditedBy d' edits := by
    refine .map fun token d₁ hd₁ d' hd' => ⟨hne, ?_⟩
    obtain rfl := Option.some.inj hd'
    exact d.gives_addImport space position token _ hd₁
  induction host with
  | adding => exact hadd nofun
  | absent => exact .pure nofun
  | failing => exact .throw _
  | cancelThen answer ih =>
    refine Gives.bind (.any _) fun _ _ token added hd d' hd' => ⟨nofun, ?_⟩
    exact (ih token added hd d' hd').2

theorem gives_resolveImport (d : Document) (host : ImportHost) (space : String) (position : Nat) :
    Gives (d.resolveImport host space position) fun outcome => ∀ d', outcome = .inserted d' →
      host ≠ .absent ∧ ∃ edits ≤ 1, d.EditedBy d' edits := by
  unfold resolveImport
  refine Gives.bind (.any _) fun _ _ => .ite (fun _ => .pure nofun) fun _ => ?_
  refine (d.gives_insertImport host space position).bind fun added hadded => ?_
  cases added with
  | none => exact .pure nofun
  | some edited =>
    refine .pure fun d' hd' => hadded d' ?_
    rw [ImportOutcome.inserted.inj hd']

end Document

/-! ### One finding -/

/-- How many edits mending a finding takes at most. -/
def ImportHost.editsPerFinding : ImportHost → Nat
  | .absent => 1
  | .adding | .failing | .cancelThen _ => 2

namespace Snapshot

variable (s : Snapshot) (host : ImportHost)

theorem gives_replaceOperand (e : Expr) (culture : String) :
    Gives (s.replaceOperand e culture) fun d => ∃ edits ≤ 1, s.document.EditedBy d edits := by
  refine Document.gives_commitEdit fun session hsession => ?_
  obtain ⟨_, -, rfl⟩ := Option.map_eq_some_iff.1 hsession
  rfl

theorem gives_mendOperand (e : Expr) :
    Gives (s.mendOperand host e) fun d => ∃ edits ≤ host.editsPerFinding, s.document.EditedBy d edits := by
  have hone : 1 ≤ host.editsPerFinding := by
    cases host <;> simp [ImportHost.editsPerFinding]
  have hreplace (culture : String) : Gives (s.replaceOperand e culture) fun d =>
      ∃ edits ≤ host.editsPerFinding, s.document.EditedBy d edits := by
    intro token d hd
    obtain ⟨edits, hedits, hd⟩ := s.gives_replaceOperand e culture token d hd
    exact ⟨edits, by omega, hd⟩
  refine .ite (fun _ => hreplace _) fun _ => ?_
  refine (s.gives_replaceOperand e shortCulture).bind fun edited hedited => ?_
  obtain ⟨m, hm, hedited⟩ := hedited
  refine (edited.gives_resolveImport host _ _).bind fun outcome houtcome => ?_
  cases outcome with
  | alreadyInScope => exact .pure ⟨m, by omega, hedited⟩
  | inserted imported =>
    obtain ⟨hne, n, hn, himported⟩ := houtcome imported rfl
    have htwo : host.editsPerFinding = 2 := by
      cases host with
      | absent => exact absurd rfl hne
      | adding | failing | cancelThen => rfl
    exact .pure ⟨m + n, by omega, hedited.trans himported⟩
  | unavailable => exact hreplace _

theorem gives_applyFix (span : Span) : Gives (s.applyFix host span) fun d =>
    ∃ edits ≤ host.editsPerFinding, s.document.EditedBy d edits := by
  have hsame : Gives (pure s.document) fun d => ∃ edits ≤ host.editsPerFinding, s.document.EditedBy d edits :=
    .pure ⟨0, Nat.zero_le _, .refl _⟩
  refine .tryCatch ?_ fun failure => ?_
  · unfold mend
    refine Gives.bind (.any _) fun _ _ => ?_
    cases s.document.tree.expressionAt? span with
    | none => exact hsame
    | some e => exact .ite (fun _ => s.gives_mendOperand host e) fun _ => hsame
  · cases failure with
    | cancelled => exact .throw _
    | syntaxError e => exact hsame

end Snapshot

/-! ### The turn of a document -/

namespace Project

variable {settings : Settings} {host : ImportHost} {index : Nat} {p : Project} {s : Snapshot} {d : Document}

/-- Mending the first finding edits the document, and does so at least once. -/
theorem gives_fixFirst (p : Project) (s : Snapshot) (found : List Diagnostic) :
    Gives (p.fixFirst host index s found) fun next => ∀ p', next = some p' → ∃ d edits,
      p' = p.replaceDocument index d ∧ s.document.EditedBy d edits ∧ 1 ≤ edits ∧
        edits ≤ host.editsPerFinding := by
  unfold fixFirst
  cases (found.filter Diagnostic.isFixable).findSome? Diagnostic.span with
  | none => exact .pure nofun
  | some span =>
    refine (s.gives_applyFix host span).bind fun d hd => .ite (fun _ => .pure nofun) fun hne => ?_
    refine .pure fun p' hp' => ?_
    obtain ⟨edits, hle, hedited⟩ := hd
    refine ⟨d, edits, (Option.some.inj hp').symm, hedited, ?_, hle⟩
    -- without an edit the text would be the same
    refine Nat.pos_iff_ne_zero.2 fun hzero => hne ?_
    rw [hedited.same hzero]

/-- What became of a project in which findings of one document were mended: that document was edited, at
least once for each of them and at most as often as the surroundings make necessary. -/
def Mended (host : ImportHost) (index : Nat) (d : Document) (p p' : Project) (fixed : Nat) : Prop :=
  ∃ d' edits, p' = p.replaceDocument index d' ∧ d.EditedBy d' edits ∧ fixed ≤ edits ∧
    edits ≤ host.editsPerFinding * fixed

theorem replaceDocument_self (hd : p.document? index = some d) : p.replaceDocument index d = p := by
  obtain ⟨hlt, rfl⟩ := List.getElem?_eq_some_iff.1 hd
  rw [replaceDocument, List.set_getElem_self]

theorem document?_replaceDocument_self {d' : Document} (hd : p.document? index = some d) :
    (p.replaceDocument index d').document? index = some d' := by
  obtain ⟨hlt, -⟩ := List.getElem?_eq_some_iff.1 hd
  exact List.getElem?_set_self hlt

theorem Mended.refl (hd : p.document? index = some d) : Mended host index d p p 0 :=
  ⟨d, 0, (replaceDocument_self hd).symm, .refl d, Nat.le_refl _, Nat.le_refl _⟩

/-- One more finding is mended first. -/
theorem Mended.step {d' : Document} {p' : Project} {fixed edits : Nat} (hedited : d.EditedBy d' edits)
    (hone : 1 ≤ edits) (hle : edits ≤ host.editsPerFinding)
    (h : Mended host index d' (p.replaceDocument index d') p' fixed) :
    Mended host index d p p' (fixed + 1) := by
  obtain ⟨d'', more, rfl, hmore, hlow, hhigh⟩ := h
  refine ⟨d'', edits + more, ?_, hedited.trans hmore, by omega, ?_⟩
  · simp only [replaceDocument, List.set_set]
  · rw [Nat.mul_add]
    omega

/-- Each round mends a finding or ends the turn. -/
theorem gives_fixUpTo (bound : Nat) (hd : p.document? index = some d) :
    Gives (fixUpTo settings host index bound p) fun r => r.2 ≤ bound ∧ Mended host index d p r.1 r.2 := by
  induction bound generalizing p d with
  | zero => exact .pure ⟨Nat.le_refl _, .refl hd⟩
  | succ bound ih =>
    have hends : Gives (pure (p, 0)) fun r => r.2 ≤ bound + 1 ∧ Mended host index d p r.1 r.2 :=
      .pure ⟨Nat.zero_le _, .refl hd⟩
    unfold fixUpTo
    cases hs : p.snapshot? index with
    | none => exact hends
    | some s =>
      obtain rfl : d = s.document := Option.some.inj (hd.symm.trans (document?_of_snapshot? hs))
      refine Gives.bind (.any _) fun found _ => (p.gives_fixFirst s found).bind fun next hnext => ?_
      cases next with
      | none => exact hends
      | some next =>
        obtain ⟨d', edits, rfl, hedited, hone, hle⟩ := hnext next rfl
        refine (ih (document?_replaceDocument_self hd)).bind fun r hr => .pure ?_
        exact ⟨Nat.succ_le_succ hr.1, hr.2.step hedited hone hle⟩

theorem run'_fixDocument_of_mendable_eq_zero (h : p.mendable settings index = 0) :
    (p.fixDocument settings host index).run' .live = (.ok (p, 0), .live) := by
  cases hs : p.snapshot? index with
  | none =>
    simp only [fixDocument, hs]
    rfl
  | some s =>
    simp only [fixDocument, hs, run'_bind (s.run'_check settings), fixThen,
      run'_bind (run'_fixFirst_of_mendable_eq_zero hs h)]
    rfl

theorem exists_run'_fixDocument (settings : Settings) (hhost : ∀ answer, host ≠ .cancelThen answer) (index : Nat)
    (p : Project) : ∃ p' fixed, (p.fixDocument settings host index).run' .live = (.ok (p', fixed), .live) := by
  have hpatient : host.patient = host := by
    cases host with
    | cancelThen answer => exact absurd rfl (hhost answer)
    | adding | absent | failing => rfl
  obtain ⟨r, events, hrun, hr, -⟩ : Follows False _ _ := follows_fixDocument settings host index p
  rw [hpatient] at hrun
  cases r with
  | error e => exact (hr e rfl).2.elim
  | ok done => exact ⟨done.1, done.2, by rw [run', hrun]⟩

/-- The turn of a document comes to an end with a count of what was mended. The count is at most the number
of findings in the beginning that can be mended, and a hundred more; the version of the document grows with
it, and is not ahead of it where no import can be added; and all else stays as it was. -/
theorem fixDocument_accounts (settings : Settings) (hhost : ∀ answer, host ≠ .cancelThen answer) (index : Nat)
    (p : Project) :
    ∃ reports p' fixed, (p.check settings).run' .live = (.ok reports, .live) ∧
      (p.fixDocument settings host index).run' .live = (.ok (p', fixed), .live) ∧
      fixed ≤ (reports[index]?.getD []).countP Diagnostic.isFixable + 100 ∧
      ((reports[index]?.getD []).countP Diagnostic.isFixable = 0 → fixed = 0) ∧
      p'.references = p.references ∧
      (∀ j, j ≠ index → p'.document? j = p.document? j) ∧
      p'.documents.map Document.path = p.documents.map Document.path ∧
      (fixed = 0 → p' = p) ∧
      ∀ d, p.document? index = some d → ∃ d', p'.document? index = some d' ∧
        d.version + fixed ≤ d'.version ∧ d'.version ≤ d.version + 2 * fixed ∧
        (host = .absent → d'.version = d.version + fixed) := by
  obtain ⟨p', fixed, hrun⟩ := exists_run'_fixDocument settings hhost index p
  refine ⟨p.reports settings, p', fixed, p.run'_check settings, hrun, ?_⟩
  change fixed ≤ p.mendable settings index + spareFixes ∧ (p.mendable settings index = 0 → fixed = 0) ∧ _
  have hzero (h : p.mendable settings index = 0) : p' = p ∧ fixed = 0 := by
    rw [run'_fixDocument_of_mendable_eq_zero h] at hrun
    obtain ⟨rfl, rfl⟩ : p = p' ∧ 0 = fixed := by simpa using hrun
    exact ⟨rfl, rfl⟩
  cases hd : p.document? index with
  | none =>
    have hs : p.snapshot? index = none := by
      simpa [snapshot?, snapshots, document?] using hd
    obtain ⟨rfl, rfl⟩ := hzero (mendable_of_snapshot?_eq_none hs)
    exact ⟨Nat.zero_le _, fun _ => rfl, rfl, fun _ _ => rfl, rfl, fun _ => rfl, by simp⟩
  | some d =>
    rw [run'_fixDocument_eq] at hrun
    obtain ⟨hbound, d', edits, rfl, hedited, hlow, hhigh⟩ :=
      gives_fixUpTo _ hd .live (p', fixed) (by rw [hrun])
    dsimp only at hlow hhigh
    have hper : host.editsPerFinding ≤ 2 := by
      cases host <;> simp [ImportHost.editsPerFinding]
    refine ⟨hbound, fun h => (hzero h).2, rfl, fun j hj => List.getElem?_set_ne hj.symm, ?_, fun hnone => ?_, ?_⟩
    · rw [replaceDocument, List.map_set, hedited.path]
      obtain ⟨hlt, rfl⟩ := List.getElem?_eq_some_iff.1 hd
      rw [← List.getElem_map Document.path (h := by simpa using hlt), List.set_getElem_self]
    · subst hnone
      rw [hedited.same (by omega), replaceDocument_self hd]
    · rintro _ ⟨⟩
      have hversion := hedited.version
      have := Nat.mul_le_mul_right fixed hper
      refine ⟨d', document?_replaceDocument_self hd, by omega, by omega, ?_⟩
      rintro rfl
      simp only [ImportHost.editsPerFinding, Nat.one_mul] at hhigh
      omega

theorem fixDocument_accounts_adding : ∃ (p p' : Project) (d d' : Document) (fixed : Nat),
    p.document? 0 = some d ∧ (p.fixDocument {} .adding 0).run' .live = (.ok (p', fixed), .live) ∧
    0 < fixed ∧ p'.document? 0 = some d' ∧ d.version + fixed ≤ d'.version ∧ d'.version ≤ d.version + 2 * fixed ∧
      p'.documents.map Document.path = p.documents.map Document.path := by
  have found : ((Document.parse "C.cs" Snapshot.addingText).toOption.any fun d =>
      (Project.mk [.core, .globalization] [d]).mendable {} 0 != 0) = true := by decide +kernel
  obtain ⟨d, -, found⟩ := Option.any_eq_true _ _ |>.1 found
  obtain ⟨reports, p', fixed, -, hrun, -, -, -, -, hpaths, -, hversion⟩ :=
    fixDocument_accounts {} (nofun : ∀ answer, ImportHost.adding ≠ .cancelThen answer) 0 ⟨[.core, .globalization], [d]⟩
  obtain ⟨d', hd', hlow, hhigh, -⟩ := hversion d rfl
  refine ⟨_, p', d, d', fixed, rfl, hrun, ?_, hd', hlow, hhigh, hpaths⟩
  -- the turn would end where it began only if there were nothing to mend
  obtain ⟨later, -, hrun', hsettled⟩ :=
    run'_fixDocument {} (.inl rfl : ImportHost.adding = .adding ∨ _) 0 ⟨[.core, .globalization], [d]⟩
  obtain ⟨rfl, rfl⟩ : p' = later.getLastD _ ∧ fixed = later.length := by simpa [hrun] using hrun'
  refine Nat.pos_iff_ne_zero.2 fun hzero => ?_
  obtain rfl := List.length_eq_zero_iff.1 hzero
  obtain hdone | hbound := hsettled
  · exact absurd hdone (by simpa using found)
  · simp [spareFixes] at hbound

end Project

end CultureLint
