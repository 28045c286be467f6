import CultureLint.Lint.FixAll
import CultureLint.Proofs.Cancel

/-! Work that is called off leaves nothing half done. Mending all findings asks at many places whether it
should go on; wherever the signal comes in between, the work either does not hear it and ends as if there
were none, or hears it and has no result. It hears the signal just if it asks a question behind it, and it
does ask where there is a document to look at. -/

namespace CultureLint

open Run

/-- The same surroundings, except that they do not cancel the work. -/
def ImportHost.patient : ImportHost → ImportHost
  | .cancelThen answer => answer.patient
  | host => host

/-! ### Findings -/

namespace Snapshot

variable (s : Snapshot) {mayFail : Prop}

theorem follows_findings (types : WellKnownTypes) (map : SourceMap) (ids : List OperationId) :
    Follows mayFail (s.findings types map ids) (s.findings types map ids) := by
  induction ids with
  | nil => exact .pure []
  | cons id ids ih =>
    rw [findings]
    refine Follows.check.bind fun _ => ?_
    cases s.findingAt types map id with
    | none => exact ih
    | some d => exact ih.bind fun rest => .pure (d :: rest)

theorem follows_analyze : Follows mayFail s.analyze s.analyze := by
  rw [analyze]
  refine Follows.check.bind fun _ => ?_
  cases WellKnownTypes.of? s.compilation with
  | none => exact .pure []
  | some types => exact s.follows_findings types _ _

theorem follows_check (settings : Settings) : Follows mayFail (s.check settings) (s.check settings) :=
  .ite (.pure []) (.ite (.pure []) s.follows_analyze)

end Snapshot

/-! ### Edits -/

namespace Document

variable (d : Document)

theorem follows_commitEdit (session : Option EditSession) :
    Follows True (d.commitEdit session) (d.commitEdit session) := by
  cases session with
  | none => exact .pure d
  | some session => exact Follows.check.bind fun _ => .ofRead _

theorem follows_insertImport (host : ImportHost) (space : String) (position : Nat) :
    Follows True (d.insertImport host space position) (d.insertImport host.patient space position) := by
  induction host with
  | adding => exact Follows.map (d.follows_commitEdit _)
  | absent => exact .pure none
  | failing => exact .throwSyntaxError _
  | cancelThen answer ih => exact Follows.cancel.bind fun _ => ih

theorem follows_resolveImport (host : ImportHost) (space : String) (position : Nat) :
    Follows True (d.resolveImport host space position) (d.resolveImport host.patient space position) := by
  unfold resolveImport
  refine Follows.check.bind fun _ => .ite (.pure _) ?_
  refine (d.follows_insertImport host space position).bind fun edited => ?_
  cases edited with
  | none => exact .pure _
  | some edited => exact .pure _

end Document

namespace Snapshot

variable (s : Snapshot) (host : ImportHost)

theorem follows_mendOperand (e : Expr) : Follows True (s.mendOperand host e) (s.mendOperand host.patient e) := by
  have hreplace (culture : String) : Follows True (s.replaceOperand e culture) (s.replaceOperand e culture) :=
    s.document.follows_commitEdit _
  refine .ite (hreplace _) ?_
  refine (hreplace _).bind fun edited => (edited.follows_resolveImport host _ _).bind fun outcome => ?_
  cases outcome with
  | alreadyInScope => exact .pure edited
  | inserted imported => exact .pure imported
  | unavailable => exact hreplace _

theorem follows_mend (span : Span) : Follows True (s.mend host span) (s.mend host.patient span) := by
  unfold mend
  refine Follows.check.bind fun _ => ?_
  cases s.document.tree.expressionAt? span with
  | none => exact .pure _
  | some e => exact .ite (s.follows_mendOperand host e) (.pure _)

/-- Whatever else goes wrong in mending leaves the document as it is. -/
theorem follows_applyFix {mayFail : Prop} (span : Span) :
    Follows mayFail (s.applyFix host span) (s.applyFix host.patient span) := by
  refine (s.follows_mend host span).tryCatch (fun e he => ?_) rfl
  cases e with
  | cancelled => exact absurd rfl he
  | syntaxError e => exact .pure _

end Snapshot

/-! ### All findings -/

namespace Project

variable (settings : Settings) (host : ImportHost) (index : Nat) {mayFail : Prop}

theorem follows_fixFirst (p : Project) (s : Snapshot) (found : List Diagnostic) :
    Follows mayFail (p.fixFirst host index s found) (p.fixFirst host.patient index s found) := by
  unfold fixFirst
  cases (found.filter Diagnostic.isFixable).findSome? Diagnostic.span with
  | none => exact .pure none
  | some span => exact (s.follows_applyFix host span).bind fun d => .ite (.pure none) (.pure _)

theorem follows_fixThen (p : Project) (s : Snapshot) (found : List Diagnostic)
    {more more' : Project → Run (Project × Nat)} (hmore : ∀ p, Follows mayFail (more p) (more' p)) :
    Follows mayFail (p.fixThen host index s found more) (p.fixThen host.patient index s found more') := by
  refine (follows_fixFirst host index p s found).bind fun next => ?_
  cases next with
  | none => exact .pure (p, 0)
  | some next => exact (hmore next).bind fun done => .pure _

/-- Each round of the bound asks and edits once more, and the rounds behind it do as well. -/
theorem follows_fixUpTo (bound : Nat) (p : Project) :
    Follows mayFail (fixUpTo settings host index bound p) (fixUpTo settings host.patient index bound p) := by
  induction bound generalizing p with
  | zero => exact .pure (p, 0)
  | succ bound ih =>
    unfold fixUpTo
    cases p.snapshot? index with
    | none => exact .pure (p, 0)
    | some s => exact (s.follows_check settings).bind fun found => follows_fixThen host index p s found ih

theorem follows_fixDocument (p : Project) :
    Follows mayFail (p.fixDocument settings host index) (p.fixDocument settings host.patient index) := by
  unfold fixDocument
  cases p.snapshot? index with
  | none => exact .pure (p, 0)
  | some s =>
    exact (s.follows_check settings).bind fun found =>
      follows_fixThen host index p s found (follows_fixUpTo settings host index _)

theorem follows_fixAll (p : Project) :
    Follows mayFail (p.fixAll settings host) (p.fixAll settings host.patient) := by
  refine Follows.foldlM (fun done index => ?_) (p, 0) _
  exact (follows_fixDocument settings host index done.1).bind fun next => .pure _

end Project

/-! ### Questions -/

/-- Whether a document is looked at under some settings. -/
def Settings.looksAt (settings : Settings) (d : Document) : Bool :=
  settings.rules.contains .stringConcatConversion && (settings.includeGenerated || !d.isGenerated)

theorem Snapshot.check_eq (s : Snapshot) (settings : Settings) :
    s.check settings = if settings.looksAt s.document then s.analyze else pure [] := by
  unfold check Settings.looksAt
  cases settings.rules.contains .stringConcatConversion <;> cases settings.includeGenerated <;>
    cases s.document.isGenerated <;> rfl

namespace Project

variable (settings : Settings) (host : ImportHost) (index : Nat)

theorem document?_of_snapshot? {p : Project} {index : Nat} {s : Snapshot} (hs : p.snapshot? index = some s) :
    p.document? index = some s.document := by
  simp only [snapshot?, snapshots, List.getElem?_map, Option.map_eq_some_iff, List.getElem?_zipIdx] at hs
  obtain ⟨_, ⟨d, hd, rfl⟩, rfl⟩ := hs
  exact hd

/-- There is a document to look at. -/
def LooksAt (p : Project) : Prop := ∃ d, p.document? index = some d ∧ settings.looksAt d

/-- A turn in which no document is looked at asks nothing and leaves the project as it is. -/
theorem fixDocument_of_not_looksAt {p : Project} (h : ¬ p.LooksAt settings index) :
    p.fixDocument settings host index = pure (p, 0) := by
  cases hs : p.snapshot? index with
  | none => simp only [fixDocument, hs]
  | some s =>
    have hlooks : settings.looksAt s.document = false := by
      simpa [LooksAt, document?_of_snapshot? hs] using h
    simp only [fixDocument, hs, s.check_eq, hlooks]
    rfl

/-- The turn of a document that is looked at begins with a question. -/
theorem checks_fixDocument_pos {p : Project} (h : p.LooksAt settings index) (token : CancelToken) :
    0 < ((p.fixDocument settings host index).outcome token).checks := by
  obtain ⟨d, hd, hlooks⟩ := h
  obtain ⟨s, hs, rfl⟩ : ∃ s, p.snapshot? index = some s ∧ s.document = d := by
    simpa [snapshot?, snapshots, document?] using hd
  simp only [fixDocument, hs, s.check_eq, hlooks, if_true]
  refine Nat.lt_of_lt_of_le ?_ (checks_le_checks_bind _ _ token)
  refine Nat.lt_of_lt_of_le ?_ (checks_le_checks_bind _ _ token)
  rw [outcome_check]
  exact Nat.one_pos

/-- Mending all documents asks a question just if one of them is looked at. -/
theorem checks_fixAll_pos (p : Project) (token : CancelToken) :
    0 < ((p.fixAll settings host).outcome token).checks ↔ ∃ d ∈ p.documents, settings.looksAt d := by
  have hlooks : (∃ index ∈ List.range p.documents.length, p.LooksAt settings index) ↔
      ∃ d ∈ p.documents, settings.looksAt d := by
    simp only [LooksAt, document?, List.mem_range]
    constructor
    · rintro ⟨index, -, d, hd, hlooks⟩
      exact ⟨d, List.mem_of_getElem? hd, hlooks⟩
    · rintro ⟨d, hd, hlooks⟩
      obtain ⟨index, hindex, hd⟩ := List.getElem_of_mem hd
      exact ⟨index, hindex, d, by rw [List.getElem?_eq_getElem hindex, hd], hlooks⟩
  rw [← hlooks]
  refine checks_foldlM_pos (p.LooksAt settings) (fun done => done.1 = p) ?_ ?_ rfl _
  · rintro ⟨p, count⟩ index rfl hindex
    exact Nat.lt_of_lt_of_le (checks_fixDocument_pos settings host index hindex token)
      (checks_le_checks_bind _ _ token)
  · rintro ⟨p, count⟩ index rfl hindex
    exact ⟨(p, count), rfl, by simp [fixDocument_of_not_looksAt settings host index hindex]⟩

/-- Mending all documents is all or nothing. The undisturbed run asks some questions, and there are some where
a document is looked at. Whenever the signal to stop comes, from outside after any number of questions or from
the surroundings themselves, the work goes through all of these questions and ends with the project and the
count of the undisturbed run, or it stops on the way with no result; and it has no result exactly when it
asked a question behind the signal. Where the surroundings do not give it, that is when the signal comes before
the last question. -/
theorem fixAll_all_or_nothing (p : Project) :
    ∃ done total, (p.fixAll settings host.patient).run' .live = (.ok done, .live) ∧
      ((p.fixAll settings host.patient).outcome .live).checks = total ∧
      (0 < total ↔ ∃ d ∈ p.documents, settings.looksAt d) ∧
      ∀ liveChecks, let o := (p.fixAll settings host).outcome ⟨liveChecks⟩
        (o.value = .ok done ∧ o.checks = total ∨ o.value = .error .cancelled ∧ o.checks ≤ total) ∧
        (o.value = .error .cancelled ↔ CancelToken.Hears ⟨liveChecks⟩ o.events) ∧
        (host.patient = host → (o.value = .error .cancelled ↔ ∃ k, liveChecks = some k ∧ k < total)) := by
  obtain ⟨r, events, hlive, hr, hends⟩ : Follows False _ _ := follows_fixAll settings host p
  cases r with
  | error e => exact (hr e rfl).2.elim
  | ok done =>
    have htotal : ((p.fixAll settings host.patient).outcome .live).checks = events.count .asked := by
      rw [hlive, Outcome.checks, List.count_filter rfl]
    refine ⟨done, _, by rw [run', hlive], htotal, htotal ▸ checks_fixAll_pos settings _ p .live, ?_⟩
    intro liveChecks o
    obtain ⟨hall, hdone⟩ := (hends ⟨liveChecks⟩).cancelled_iff
    refine ⟨?_, hdone, fun hpatient => ?_⟩
    · cases hends ⟨liveChecks⟩ with
      | done h hheard => exact .inl ⟨congrArg _ h, congrArg _ h⟩
      | stopped token' here h hheard hpart =>
        have hle := hpart.sublist.count_le .asked
        exact .inr ⟨congrArg _ h, Nat.le_trans (Nat.le_of_eq (congrArg Outcome.checks h)) hle⟩
    · -- what such work has to do with the signal is only to ask
      have hasked : events.filter (· = .asked) = events := by
        cases hends .live with
        | done h _ =>
          rw [hpatient, h] at hlive
          exact (congrArg Outcome.events hlive).symm
        | stopped token' here h _ _ =>
          rw [hpatient, h] at hlive
          cases congrArg Outcome.value hlive
      have hnone : .given ∉ events := fun hmem => by simpa using List.filter_eq_self.1 hasked _ hmem
      exact hall.trans (CancelToken.hears_iff_lt hnone)

/-- A document in which a finding can be mended, for which a culture has to be imported. -/
def mendableText : String := "class C\x7bstring f=\"x\"+1;\x7d"

/-- Both endings: with a signal before the last question, or from surroundings that give it when the import is
asked for, the work has no result; with a signal behind the last question a finding is mended. -/
theorem fixAll_all_or_nothing_both : ∃ (p : Project) (total : Nat) (done : Project × Nat), 0 < total ∧
    ((p.fixAll {} .adding).outcome ⟨some (total - 1)⟩).value = .error .cancelled ∧
    ((p.fixAll {} .cancelling).outcome .live).value = .error .cancelled ∧
    ((p.fixAll {} .adding).outcome ⟨some total⟩).value = .ok done ∧ 0 < done.2 := by
  have found : ((Document.parse "C.cs" mendableText).toOption.any fun d =>
      let p : Project := ⟨[.core, .globalization], [d]⟩
      Settings.looksAt {} d && ((p.fixAll {} .adding).run' .live).1.toOption.any (0 < ·.2) &&
        ((p.fixAll {} .cancelling).run' .live).1.toOption.isNone) = true := by decide +kernel
  obtain ⟨d, -, found⟩ := Option.any_eq_true _ _ |>.1 found
  simp only [Bool.and_eq_true, and_assoc] at found
  obtain ⟨hlooks, hmended, hcancelling⟩ := found
  obtain ⟨done, total, hrun, -, hpos, hends⟩ := fixAll_all_or_nothing {} .adding ⟨[.core, .globalization], [d]⟩
  have hpos : 0 < total := hpos.2 ⟨d, List.mem_singleton_self d, hlooks⟩
  refine ⟨⟨[.core, .globalization], [d]⟩, total, done, hpos, ?_, ?_, ?_, ?_⟩
  · exact ((hends (some (total - 1))).2.2 rfl).2 ⟨_, rfl, by omega⟩
  · obtain ⟨done', total', -, -, -, hends'⟩ := fixAll_all_or_nothing {} .cancelling ⟨[.core, .globalization], [d]⟩
    obtain ⟨⟨hok, -⟩ | ⟨hcancelled, -⟩, -, -⟩ := hends' none
    · simp [run', CancelToken.live, hok, Except.toOption] at hcancelling
    · exact hcancelled
  · obtain ⟨⟨hok, -⟩ | ⟨hcancelled, -⟩, -, hlast⟩ := hends (some total)
    · exact hok
    · obtain ⟨k, hk, hlt⟩ := (hlast rfl).1 hcancelled
      obtain rfl := Option.some.inj hk
      exact absurd hlt (Nat.lt_irrefl _)
  · have hlive : ((fixAll {} .adding ⟨[.core, .globalization], [d]⟩).run' .live).1 = .ok done :=
      congrArg Prod.fst hrun
    simpa [hlive, Except.toOption] using hmended

end Project

end CultureLint
