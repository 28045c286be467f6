import CultureLint.Cancel
import Mathlib.Data.List.Induction

/-! Work that nobody calls off: it goes from step to step, and the signal stays as it was. Work that may be
called off ends as it would have otherwise, or has no result; which of them it is can be told from the
questions that it asked and from when the signal was given. And what a result must be is put together from
what the results of its steps must be. -/

namespace CultureLint

instance : LawfulMonad Watched := LawfulMonad.mk' Watched
  (fun x => funext fun token => by simp [Functor.map, Watched.bind, Watched.pure])
  (fun a f => funext fun token => by simp [Bind.bind, Pure.pure, Watched.bind, Watched.pure])
  (fun x f g => funext fun token => by simp [Bind.bind, Watched.bind])

/-! ### The signal -/

namespace CancelToken

variable {t : CancelToken} {events events' : List Event}

/-- The signal after one thing that work did with it. -/
def step (t : CancelToken) : Event → CancelToken
  | .asked => t.tick
  | .given => .cancelled

/-- The signal after all that work did with it. -/
def after (t : CancelToken) (events : List Event) : CancelToken := events.foldl step t

@[simp] theorem after_nil (t : CancelToken) : t.after [] = t := rfl

@[simp] theorem after_append (t : CancelToken) (events events' : List Event) :
    t.after (events ++ events') = (t.after events).after events' := List.foldl_append

@[simp] theorem tick_cancelled : cancelled.tick = .cancelled := rfl

theorem after_cancelled (events : List Event) : cancelled.after events = .cancelled := by
  induction events with
  | nil => rfl
  | cons event events ih => cases event <;> exact ih

theorem isCancelled_iff : t.isCancelled ↔ t.liveChecks = some 0 := decide_eq_true_iff

/-- A signal is given when the work gave it, or when it let pass as many questions as it was live for. -/
theorem isCancelled_after : (t.after events).isCancelled ↔
    .given ∈ events ∨ ∃ k, t.liveChecks = some k ∧ k ≤ events.count .asked := by
  induction events generalizing t with
  | nil => simp [isCancelled_iff]
  | cons event events ih =>
    cases event with
    | given =>
      have hgiven : (cancelled.after events).isCancelled := by
        rw [after_cancelled]
        rfl
      simpa [after, step] using hgiven
    | asked =>
      have hstep : t.after (.asked :: events) = t.tick.after events := rfl
      rw [hstep, ih]
      cases hk : t.liveChecks with
      | none => simp [tick, hk]
      | some k => simp [tick, hk]

/-- Work asks a question when the signal is given: the work gave it before the question, or it was given from
outside, since it was live for no more questions than stand before this one. -/
def Hears (t : CancelToken) (events : List Event) : Prop :=
  ∃ before behind, events = before ++ .asked :: behind ∧
    (.given ∈ before ∨ ∃ k, t.liveChecks = some k ∧ k ≤ before.count .asked)

theorem hears_iff : t.Hears events ↔
    ∃ before behind, events = before ++ .asked :: behind ∧ (t.after before).isCancelled := by
  simp only [Hears, isCancelled_after]

theorem not_hears_nil : ¬ t.Hears [] := by
  rintro ⟨before, behind, h, -⟩
  simp at h

theorem hears_append : t.Hears (events ++ events') ↔ t.Hears events ∨ (t.after events).Hears events' := by
  simp only [hears_iff]
  constructor
  · rintro ⟨before, behind, h, hgiven⟩
    -- the question stands in the first part or in the second one
    obtain ⟨more, rfl, hmore⟩ | ⟨more, rfl, hmore⟩ := List.append_eq_append_iff.1 h
    · exact .inr ⟨more, behind, hmore, by rwa [after_append] at hgiven⟩
    · cases more with
      | nil => exact .inr ⟨[], behind, hmore.symm, by simpa using hgiven⟩
      | cons event more =>
        obtain ⟨rfl, -⟩ := List.cons.inj hmore
        exact .inl ⟨before, more, rfl, hgiven⟩
  · rintro (⟨before, behind, rfl, hgiven⟩ | ⟨before, behind, rfl, hgiven⟩)
    · exact ⟨before, behind ++ events', by simp, hgiven⟩
    · exact ⟨events ++ before, behind, by simp, by rwa [after_append]⟩

/-- Where only others give the signal, it is heard when it comes before the last question. -/
theorem hears_iff_lt (h : .given ∉ events) :
    t.Hears events ↔ ∃ k, t.liveChecks = some k ∧ k < events.count .asked := by
  constructor
  · rintro ⟨before, behind, rfl, hgiven | ⟨k, hk, hle⟩⟩
    · exact absurd (List.mem_append_left _ hgiven) h
    · refine ⟨k, hk, ?_⟩
      rw [List.count_append, List.count_cons_self]
      omega
  · rintro ⟨k, hk, hlt⟩
    induction events using List.reverseRecOn with
    | nil => simp at hlt
    | append_singleton events event ih =>
      cases event with
      | given => simp at h
      | asked =>
        refine ⟨events, [], rfl, .inr ⟨k, hk, ?_⟩⟩
        simp only [List.count_append, List.count_singleton_self] at hlt
        omega

end CancelToken

/-- How many questions were asked. -/
def Outcome.checks {α : Type} (o : Outcome α) : Nat := o.events.count .asked

namespace Run

variable {α β : Type} {token token' : CancelToken} {events : List CancelToken.Event}

theorem run'_check : check.run' .live = (.ok (), .live) := rfl

/-! ### One piece of work behind another -/

theorem outcome_bind {x : Run α} {f : α → Run β} {a : α} (h : x.outcome token = ⟨.ok a, token', events⟩) :
    (x >>= f).outcome token =
      { (f a).outcome token' with events := events ++ ((f a).outcome token').events } := by
  change Watched.bind x (ExceptT.bindCont f) token = _
  have hx : x token = ⟨.ok a, token', events⟩ := h
  rw [Watched.bind, hx]
  rfl

theorem outcome_bind_error {x : Run α} {f : α → Run β} {e : Failure}
    (h : x.outcome token = ⟨.error e, token', events⟩) :
    (x >>= f).outcome token = ⟨.error e, token', events⟩ := by
  change Watched.bind x (ExceptT.bindCont f) token = _
  have hx : x token = ⟨.error e, token', events⟩ := h
  rw [Watched.bind, hx]
  simp [ExceptT.bindCont, pure, Watched.pure]

theorem outcome_check (token : CancelToken) : check.outcome token =
    ⟨if token.isCancelled then .error .cancelled else .ok (), token.after [.asked], [.asked]⟩ := by
  have hask : (liftM Watched.ask : Run Bool).outcome token = ⟨.ok token.isCancelled, token.tick, [.asked]⟩ := rfl
  rw [check, outcome_bind hask]
  cases token.isCancelled <;> rfl

theorem outcome_tryCatch {x : Run α} {f : Failure → Run α} {a : α}
    (h : x.outcome token = ⟨.ok a, token', events⟩) :
    (tryCatch x f).outcome token = ⟨.ok a, token', events⟩ := by
  change ExceptT.tryCatch x f token = _
  have hx : x token = ⟨.ok a, token', events⟩ := h
  simp [ExceptT.tryCatch, ExceptT.mk, bind, Watched.bind, hx, pure, Watched.pure]

theorem outcome_tryCatch_error {x : Run α} {f : Failure → Run α} {e : Failure}
    (h : x.outcome token = ⟨.error e, token', events⟩) :
    (tryCatch x f).outcome token =
      { (f e).outcome token' with events := events ++ ((f e).outcome token').events } := by
  change ExceptT.tryCatch x f token = _
  have hx : x token = ⟨.error e, token', events⟩ := h
  simp only [ExceptT.tryCatch, ExceptT.mk, bind, Watched.bind, hx]
  rfl

theorem outcome_of_run' {x : Run α} {r : Except Failure α} (h : x.run' token = (r, token')) :
    x.outcome token = ⟨r, token', (x.outcome token).events⟩ := by
  obtain ⟨rfl, rfl⟩ := Prod.mk.inj h
  rfl

theorem run'_bind {x : Run α} {f : α → Run β} {a : α} (h : x.run' token = (.ok a, token')) :
    (x >>= f).run' token = (f a).run' token' := by
  rw [run', outcome_bind (outcome_of_run' h)]
  rfl

theorem run'_bind_error {x : Run α} {f : α → Run β} {e : Failure} (h : x.run' token = (.error e, token')) :
    (x >>= f).run' token = (.error e, token') := by
  rw [run', outcome_bind_error (outcome_of_run' h)]

theorem run'_map {x : Run α} {f : α → β} {a : α} (h : x.run' token = (.ok a, token')) :
    (f <$> x).run' token = (.ok (f a), token') := by
  rw [← bind_pure_comp, run'_bind h]
  rfl

theorem run'_tryCatch {x : Run α} {f : Failure → Run α} {a : α} (h : x.run' token = (.ok a, token')) :
    (tryCatch x f).run' token = (.ok a, token') := by
  rw [run', outcome_tryCatch (outcome_of_run' h)]

theorem run'_tryCatch_error {x : Run α} {f : Failure → Run α} {e : Failure}
    (h : x.run' token = (.error e, token')) : (tryCatch x f).run' token = (f e).run' token' := by
  rw [run', outcome_tryCatch_error (outcome_of_run' h)]
  rfl

/-- What was done with the signal in the first piece of work was done in the whole. -/
theorem checks_le_checks_bind (x : Run α) (f : α → Run β) (token : CancelToken) :
    (x.outcome token).checks ≤ ((x >>= f).outcome token).checks := by
  obtain ⟨r, token', h⟩ : ∃ r token', x.run' token = (r, token') := ⟨_, _, rfl⟩
  cases r with
  | error e =>
    rw [outcome_bind_error (outcome_of_run' h)]
    exact Nat.le_refl _
  | ok a =>
    rw [outcome_bind (outcome_of_run' h), Outcome.checks, Outcome.checks, List.count_append]
    exact Nat.le_add_right _ _

/-- Work on a list asks a question just if the work on one of its items does, where the work on the others is
no work. -/
theorem checks_foldlM_pos {γ : Type} {f : β → γ → Run β} (P : γ → Prop) (keeps : β → Prop)
    (hpos : ∀ b c, keeps b → P c → 0 < ((f b c).outcome token).checks)
    (hpure : ∀ b c, keeps b → ¬ P c → ∃ b', keeps b' ∧ f b c = pure b') {b : β} (hb : keeps b) (cs : List γ) :
    0 < ((cs.foldlM f b).outcome token).checks ↔ ∃ c ∈ cs, P c := by
  induction cs generalizing b with
  | nil =>
    have hnone : ((([] : List γ).foldlM f b).outcome token).checks = 0 := rfl
    simp only [hnone, Nat.lt_irrefl, List.not_mem_nil, false_and, exists_false]
  | cons c cs ih =>
    rw [List.foldlM_cons]
    by_cases hc : P c
    · have hle := checks_le_checks_bind (f b c) (fun b => cs.foldlM f b) token
      exact iff_of_true (Nat.lt_of_lt_of_le (hpos b c hb hc) hle) ⟨c, List.mem_cons_self, hc⟩
    · obtain ⟨b', hb', hpure⟩ := hpure b c hb hc
      rw [hpure, pure_bind, ih hb']
      simp [hc]

/-! ### Work that may be called off -/

/-- The work goes through all it has to do with the signal, and ends as said, or it hears the signal on the
way and stops. -/
inductive EndsIn (x : Run α) (token : CancelToken) (r : Except Failure α) (events : List CancelToken.Event) : Prop
  | done (h : x.outcome token = ⟨r, token.after events, events⟩) (hheard : ¬ token.Hears events)
  | stopped (token' : CancelToken) (events' : List CancelToken.Event)
      (h : x.outcome token = ⟨.error .cancelled, token', events'⟩) (hheard : token.Hears events')
      (hpart : events' <+: events)

namespace EndsIn

variable {x : Run α} {f : α → Run β} {r : Except Failure α} {r' : Except Failure β} {a : α}
  {events events' : List CancelToken.Event}

/-- Work that goes on as other work does, with the signal as some questions left it. -/
theorem behind {y z : Run β} (hheard : ¬ token.Hears events) (hy : y.EndsIn (token.after events) r' events')
    (hz : z.outcome token = { y.outcome (token.after events) with
      events := events ++ (y.outcome (token.after events)).events }) :
    z.EndsIn token r' (events ++ events') := by
  cases hy with
  | done h hheard' =>
    refine .done ?_ ?_
    · rw [hz, h, CancelToken.after_append]
    · rw [CancelToken.hears_append]
      exact not_or_intro hheard hheard'
  | stopped token' here h hheard' hpart =>
    refine .stopped token' (events ++ here) ?_ ?_ ?_
    · rw [hz, h]
    · exact CancelToken.hears_append.2 (.inr hheard')
    · exact (List.prefix_append_right_inj events).2 hpart

theorem bind (hx : x.EndsIn token (.ok a) events) (hf : ∀ token, (f a).EndsIn token r' events') :
    (x >>= f).EndsIn token r' (events ++ events') := by
  cases hx with
  | done h hheard => exact behind hheard (hf _) (outcome_bind h)
  | stopped token' here h hheard hpart =>
    exact .stopped token' here (outcome_bind_error h) hheard (hpart.trans (List.prefix_append _ _))

theorem bind_error {e : Failure} (hx : x.EndsIn token (.error e) events) :
    (x >>= f).EndsIn token (.error e) events := by
  cases hx with
  | done h hheard => exact .done (outcome_bind_error h) hheard
  | stopped token' here h hheard hpart => exact .stopped token' here (outcome_bind_error h) hheard hpart

variable {g : Failure → Run α}

theorem stopped_tryCatch (hg : g .cancelled = throw .cancelled)
    (h : x.outcome token = ⟨.error .cancelled, token', events⟩) :
    Run.outcome (tryCatch x g) token = ⟨.error .cancelled, token', events⟩ := by
  have hthrow : (throw .cancelled : Run α).outcome token' = ⟨.error .cancelled, token', []⟩ := rfl
  rw [outcome_tryCatch_error h, hg, hthrow, List.append_nil]

theorem tryCatch_ok (hx : x.EndsIn token (.ok a) events) (hg : g .cancelled = throw .cancelled) :
    EndsIn (tryCatch x g) token (.ok a) events := by
  cases hx with
  | done h hheard => exact .done (outcome_tryCatch h) hheard
  | stopped token' here h hheard hpart => exact .stopped token' here (stopped_tryCatch hg h) hheard hpart

theorem tryCatch_error {e : Failure} (hx : x.EndsIn token (.error e) events)
    (he : ∀ token, (g e).EndsIn token r events') (hg : g .cancelled = throw .cancelled) :
    EndsIn (tryCatch x g) token r (events ++ events') := by
  cases hx with
  | done h hheard => exact behind hheard (he _) (outcome_tryCatch_error h)
  | stopped token' here h hheard hpart =>
    exact .stopped token' here (stopped_tryCatch hg h) hheard (hpart.trans (List.prefix_append _ _))

/-- Whether the work is cancelled can be told from what it has to do with the signal, and as well from what
it does with it. -/
theorem cancelled_iff (hx : x.EndsIn token (.ok a) events) :
    ((x.outcome token).value = .error .cancelled ↔ token.Hears events) ∧
      ((x.outcome token).value = .error .cancelled ↔ token.Hears (x.outcome token).events) := by
  cases hx with
  | done h hheard => simp [h, hheard]
  | stopped token' here h hheard hpart =>
    obtain ⟨rest, rfl⟩ := hpart
    simp [h, hheard, CancelToken.hears_append]

end EndsIn

/-- Whatever the signal, the first work ends as the second one does when nobody calls it off, and asks as many
questions, or it hears the signal and stops. The second one itself fails only where that is allowed, and never
by being cancelled. -/
def Follows (mayFail : Prop) (x y : Run α) : Prop :=
  ∃ r events, y.outcome .live = ⟨r, .live, events.filter (· = .asked)⟩ ∧
    (∀ e, r = .error e → e ≠ .cancelled ∧ mayFail) ∧ ∀ token, x.EndsIn token r events

namespace Follows

variable {mayFail : Prop} {x y : Run α} {f g : α → Run β}

theorem pure (a : α) : Follows mayFail (Pure.pure a) (Pure.pure a) :=
  ⟨.ok a, [], rfl, nofun, fun _ => .done rfl CancelToken.not_hears_nil⟩

theorem check : Follows mayFail Run.check Run.check := by
  refine ⟨.ok (), [.asked], rfl, nofun, fun token => ?_⟩
  have hrun := outcome_check token
  have hheard : token.Hears [.asked] ↔ token.isCancelled := by
    rw [CancelToken.hears_iff_lt (by decide), CancelToken.isCancelled_iff]
    simp
  cases hc : token.isCancelled with
  | true =>
    rw [hc] at hrun
    exact .stopped _ _ hrun (hheard.2 hc) (List.prefix_refl _)
  | false =>
    rw [hc] at hrun
    exact .done hrun (by simp [hheard, hc])

/-- To give the signal is not to ask for it. -/
theorem cancel : Follows mayFail Run.cancel (Pure.pure ()) :=
  ⟨.ok (), [.given], rfl, nofun, fun _ => .done rfl (by simp [CancelToken.Hears, List.singleton_eq_append_iff])⟩

theorem throwSyntaxError (e : SyntaxError) :
    Follows True (throw (.syntaxError e) : Run α) (throw (.syntaxError e)) := by
  refine ⟨.error (.syntaxError e), [], rfl, fun e' h => ?_, fun _ => .done rfl CancelToken.not_hears_nil⟩
  obtain rfl := Except.error.inj h
  exact ⟨nofun, trivial⟩

theorem ofRead (result : Except SyntaxError α) : Follows True (Run.ofRead result) (Run.ofRead result) := by
  cases result with
  | ok a => exact .pure a
  | error e => exact .throwSyntaxError e

theorem bind (hx : Follows mayFail x y) (hf : ∀ a, Follows mayFail (f a) (g a)) :
    Follows mayFail (x >>= f) (y >>= g) := by
  obtain ⟨r, events, hy, hr, hx⟩ := hx
  cases r with
  | error e =>
    exact ⟨.error e, events, outcome_bind_error hy, fun e' h => hr e' (congrArg _ (Except.error.inj h)),
      fun token => (hx token).bind_error⟩
  | ok a =>
    obtain ⟨r, events', hg, hr, hf⟩ := hf a
    refine ⟨r, events ++ events', ?_, hr, fun token => (hx token).bind hf⟩
    rw [outcome_bind hy, hg, List.filter_append]

theorem map {φ : α → β} (hx : Follows mayFail x y) : Follows mayFail (φ <$> x) (φ <$> y) := by
  rw [← bind_pure_comp, ← bind_pure_comp]
  exact hx.bind fun a => .pure (φ a)

theorem ite {c : Prop} [Decidable c] {x' y' : Run α} (h : Follows mayFail x y) (h' : Follows mayFail x' y') :
    Follows mayFail (if c then x else x') (if c then y else y') := by
  by_cases hc : c
  · rwa [if_pos hc, if_pos hc]
  · rwa [if_neg hc, if_neg hc]

/-- Work may make good what fails in it, as long as it passes on that it was cancelled. -/
theorem tryCatch {f g : Failure → Run α} (hx : Follows True x y)
    (hf : ∀ e, e ≠ .cancelled → Follows mayFail (f e) (g e)) (hc : f .cancelled = throw .cancelled) :
    Follows mayFail (MonadExcept.tryCatch x f) (MonadExcept.tryCatch y g) := by
  obtain ⟨r, events, hy, hr, hx⟩ := hx
  cases r with
  | ok a => exact ⟨.ok a, events, outcome_tryCatch hy, nofun, fun token => (hx token).tryCatch_ok hc⟩
  | error e =>
    obtain ⟨r, events', hg, hr', hf⟩ := hf e (hr e rfl).1
    refine ⟨r, events ++ events', ?_, hr', fun token => (hx token).tryCatch_error hf hc⟩
    rw [outcome_tryCatch_error hy, hg, List.filter_append]

theorem foldlM {γ : Type} {f g : β → γ → Run β} (h : ∀ b c, Follows mayFail (f b c) (g b c)) (b : β)
    (cs : List γ) : Follows mayFail (cs.foldlM f b) (cs.foldlM g b) := by
  induction cs generalizing b with
  | nil => exact .pure b
  | cons c cs ih =>
    rw [List.foldlM_cons, List.foldlM_cons]
    exact (h b c).bind ih

end Follows

/-! ### What comes of work -/

/-- Whatever the signal, a result of the work has the property. -/
def Gives (x : Run α) (P : α → Prop) : Prop := ∀ token a, (x.run' token).1 = .ok a → P a

namespace Gives

variable {x : Run α} {f : α → Run β} {P Q : α → Prop} {R : β → Prop}

theorem pure {a : α} (h : P a) : Gives (Pure.pure a) P := fun _ _ hb => Except.ok.inj hb ▸ h

theorem throw (e : Failure) : Gives (MonadExcept.throw e : Run α) P := nofun

theorem any (x : Run α) : Gives x fun _ => True := fun _ _ _ => trivial

theorem bind (hx : Gives x P) (hf : ∀ a, P a → Gives (f a) R) : Gives (x >>= f) R := by
  intro token b hb
  obtain ⟨r, token', h⟩ : ∃ r token', x.run' token = (r, token') := ⟨_, _, rfl⟩
  cases r with
  | error e =>
    rw [run'_bind_error h] at hb
    cases hb
  | ok a =>
    rw [run'_bind h] at hb
    exact hf a (hx token a (by rw [h])) token' b hb

theorem map {φ : α → β} (hx : Gives x fun a => R (φ a)) : Gives (φ <$> x) R := by
  rw [← bind_pure_comp]
  exact hx.bind fun a ha => .pure ha

theorem ite {c : Prop} [Decidable c] {y : Run α} (hx : c → Gives x P) (hy : ¬ c → Gives y P) :
    Gives (if c then x else y) P := by
  by_cases hc : c
  · rw [if_pos hc]
    exact hx hc
  · rw [if_neg hc]
    exact hy hc

theorem tryCatch {f : Failure → Run α} (hx : Gives x P) (hf : ∀ e, Gives (f e) P) :
    Gives (MonadExcept.tryCatch x f) P := by
  intro token b hb
  obtain ⟨r, token', h⟩ : ∃ r token', x.run' token = (r, token') := ⟨_, _, rfl⟩
  cases r with
  | error e =>
    rw [run'_tryCatch_error h] at hb
    exact hf e token' b hb
  | ok a =>
    rw [run'_tryCatch h] at hb
    exact hx token b (by rw [h]; exact hb)

end Gives

end Run

end CultureLint
