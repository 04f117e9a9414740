import FhdEngine.Runtime.SessionRules

/-!
# What holds of a running session

`Fit` is the invariant of a session between two of its calls, from the moment it has started until its
workers are drained. It has three groups of fields. The job is a reachable one, and it is still the
job the session started with, in the same generation and with the same number of attempts. The
workers and their leases agree with the segment map, no checkpoint is pending, and nothing is written
without a lane. And a stop that leads back to the queue has been paid for: a retry by an attempt below
the policy's maximum, anything else by giving up the generation.

Every routine of the session up to the drain keeps it. Its own calls on the job are never refused.
-/

namespace Fhd

open SegmentMap (Holds)

namespace Job

variable {j : Job} {command : JobCommand}

/-- The causes a session may stop its job for: a retry only below the maximum, and a pause only when
it was told. -/
def Stops (limit attempts : UInt8) (calm : Prop) : JobCommand → Prop
  | .requireAction _ | .fail _ | .representationChanged => True
  | .pause => ¬calm
  | .retry _ => attempts < limit
  | _ => False

/-- What a stop leaves of the job, and what it has been paid with. -/
def Stopped (limit attempts : UInt8) (calm : Prop) (j j' : Job) : Prop :=
  ∃ target replace, j' = { j with stop := some target, replaceOnDrain := replace, state := .stopping } ∧
    (∀ t, target = .retryWait t → attempts < limit) ∧ (target = .queued → replace = true) ∧
    (target = .paused → ¬calm ∨ j.stop = some .paused) ∧
    (target = .verifying → j.stop = some .verifying ∧ replace = j.replaceOnDrain)

theorem raise_eq_retryWait {a b : StopTarget} {t : ℕ} (h : a.raise b = .retryWait t) :
    (∃ t', a = .retryWait t') ∨ ∃ t', b = .retryWait t' := by
  unfold StopTarget.raise at h
  split at h
  · exact Or.inl ⟨_, rfl⟩
  · split at h
    · exact Or.inr ⟨t, h⟩
    · exact Or.inl ⟨t, h⟩

theorem raise_eq_queued {a b : StopTarget} (h : a.raise b = .queued) : a = .queued ∨ b = .queued := by
  unfold StopTarget.raise at h
  split at h
  · cases h
  · split at h
    · exact Or.inr h
    · exact Or.inl h

theorem raise_eq_paused {a b : StopTarget} (h : a.raise b = .paused) : a = .paused ∨ b = .paused := by
  unfold StopTarget.raise at h
  split at h
  · cases h
  · split at h
    · exact Or.inr h
    · exact Or.inl h

theorem raise_queued_ne (a : StopTarget) : a.raise .queued ≠ .verifying := by
  cases a <;> simp [StopTarget.raise, StopTarget.rank]

theorem raise_eq_verifying {a b : StopTarget} (h : a.raise b = .verifying) : a = .verifying := by
  unfold StopTarget.raise at h
  split at h
  · cases h
  · split at h
    next hrank =>
      rw [h] at hrank
      exact absurd hrank (Nat.not_lt_zero _)
    · exact h

/-- A running job begins to stop. -/
theorem execute_begin {limit attempts : UInt8} {calm : Prop}
    (hstate : j.state = .probing ∨ j.state = .transferring)
    (hcommand : Stops limit attempts calm command) :
    ∃ next, execute j command = .ok (true, next) ∧ Stopped limit attempts calm j next := by
  have hbegin : ∀ target replace, execute j command =
        .ok (true, { j with stop := some target, replaceOnDrain := replace, state := .stopping }) →
      (∀ t, target = .retryWait t → attempts < limit) → (target = .queued → replace = true) →
      (target = .paused → ¬calm) → target ≠ .verifying →
      ∃ next, execute j command = .ok (true, next) ∧ Stopped limit attempts calm j next :=
    fun target replace hexec hretry hqueued hpaused hverifying ↦
      ⟨_, hexec, target, replace, rfl, hretry, hqueued, fun ht ↦ Or.inl (hpaused ht),
        fun ht ↦ absurd ht hverifying⟩
  cases command with
  | pause =>
    refine hbegin .paused j.replaceOnDrain ?_ (by rintro _ ⟨⟩) (by rintro ⟨⟩) (fun _ ↦ hcommand) (by rintro ⟨⟩)
    rcases hstate with hs | hs <;> simp only [execute, hs, beginStop, moved]
  | requireAction reason =>
    refine hbegin (.needsAction reason) j.replaceOnDrain ?_ (by rintro _ ⟨⟩) (by rintro ⟨⟩) (by rintro ⟨⟩) (by rintro ⟨⟩)
    rcases hstate with hs | hs <;> simp only [execute, hs, beginStop, moved]
  | fail reason =>
    refine hbegin (.failed reason) j.replaceOnDrain ?_ (by rintro _ ⟨⟩) (by rintro ⟨⟩) (by rintro ⟨⟩) (by rintro ⟨⟩)
    rcases hstate with hs | hs <;> simp only [execute, hs, beginStop, moved]
  | retry atTick =>
    refine hbegin (.retryWait atTick) j.replaceOnDrain ?_ (fun _ _ ↦ hcommand) (by rintro ⟨⟩) (by rintro ⟨⟩) (by rintro ⟨⟩)
    rcases hstate with hs | hs <;> simp only [execute, hs, beginStop, moved]
  | representationChanged =>
    refine hbegin .queued true ?_ (by rintro _ ⟨⟩) (fun _ ↦ rfl) (by rintro ⟨⟩) (by rintro ⟨⟩)
    rcases hstate with hs | hs <;> simp only [execute, hs, beginStop, moved]
  | _ => exact hcommand.elim

/-- **A stop is accepted** while the job probes, transfers or stops already. -/
theorem execute_stop {limit attempts : UInt8} {calm : Prop} (hj : j.Inv)
    (hstate : j.state = .probing ∨ j.state = .transferring ∨ j.state = .stopping)
    (hcommand : Stops limit attempts calm command)
    (hretry : ∀ t, j.stop = some (.retryWait t) → attempts < limit)
    (hqueued : j.stop = some .queued → j.replaceOnDrain = true) :
    ∃ changed next, execute j command = .ok (changed, next) ∧
      (changed = false → j.state = .stopping) ∧
      (changed = true → Stopped limit attempts calm j next) := by
  rw [← or_assoc] at hstate
  rcases hstate with hs | hs
  · obtain ⟨next, hexec, hstopped⟩ := execute_begin hs hcommand
    exact ⟨true, next, hexec, (by rintro ⟨⟩), fun _ ↦ hstopped⟩
  · obtain ⟨current, hcurrent⟩ := Option.isSome_iff_exists.1 (hj.stop_iff.2 hs)
    have hraise : ∀ {cause : StopTarget}, Job.cause command = some cause →
        execute j command = raised j command → (∀ t, cause = .retryWait t → attempts < limit) →
        (cause = .paused → ¬calm) → cause ≠ .queued →
        ∃ changed next, execute j command = .ok (changed, next) ∧
          (changed = false → j.state = .stopping) ∧
          (changed = true → Stopped limit attempts calm j next) := by
      intro cause hcause hexec hlimit hcalm hne
      rw [hexec]
      simp only [raised, hcause, hcurrent]
      split
      · exact ⟨false, j, rfl, fun _ ↦ hs, (by rintro ⟨⟩)⟩
      · refine ⟨true, _, rfl, (by rintro ⟨⟩), fun _ ↦ ⟨_, j.replaceOnDrain, rfl, fun t ht ↦ ?_,
          fun ht ↦ ?_, fun ht ↦ ?_,
          fun ht ↦ ⟨hcurrent.trans (congrArg some (raise_eq_verifying ht)), rfl⟩⟩⟩
        · rcases raise_eq_retryWait ht with ⟨t', h⟩ | ⟨t', h⟩
          · exact hretry t' (hcurrent.trans (congrArg some h))
          · exact hlimit t' h
        · rcases raise_eq_queued ht with h | h
          · exact hqueued (hcurrent.trans (congrArg some h))
          · exact absurd h hne
        · rcases raise_eq_paused ht with h | h
          · exact Or.inr (hcurrent.trans (congrArg some h))
          · exact Or.inl (hcalm h)
    cases command with
    | pause =>
      exact hraise rfl (by simp only [execute, hs]) (fun t ht ↦ by cases ht) (fun _ ↦ hcommand) (by simp)
    | requireAction reason =>
      exact hraise rfl (by simp only [execute, hs]) (fun t ht ↦ by cases ht) (by rintro ⟨⟩) (by simp)
    | fail reason =>
      exact hraise rfl (by simp only [execute, hs]) (fun t ht ↦ by cases ht) (by rintro ⟨⟩) (by simp)
    | retry atTick =>
      exact hraise rfl (by simp only [execute, hs]) (fun _ _ ↦ hcommand) (by rintro ⟨⟩) (by simp)
    | representationChanged =>
      simp only [execute, hs, hcurrent, moved]
      split
      · exact ⟨false, j, rfl, fun _ ↦ trivial, (by rintro ⟨⟩)⟩
      · refine ⟨true, _, rfl, (by rintro ⟨⟩), fun _ ↦ ⟨_, true, rfl, fun t ht ↦ ?_, fun _ ↦ rfl, fun ht ↦ ?_,
          fun ht ↦ absurd ht (raise_queued_ne current)⟩⟩
        · rcases raise_eq_retryWait ht with ⟨t', h⟩ | ⟨t', h⟩
          · exact hretry t' (hcurrent.trans (congrArg some h))
          · cases h
        · rcases raise_eq_paused ht with h | h
          · exact Or.inr (hcurrent.trans (congrArg some h))
          · cases h
    | _ => exact hcommand.elim

/-- **A cancel is accepted** before publication. -/
theorem execute_cancel (hstate : j.state = .probing ∨ j.state = .transferring ∨ j.state = .stopping) :
    execute j .cancel = .ok (true,
      { j with stop := none, replaceOnDrain := false, retryAt := none, state := .cancelling }) := by
  rcases hstate with hs | hs | hs <;> simp only [execute, hs, moved]

/-- A segment that is not durable is one too many. -/
theorem not_allDurable {m : SegmentMap} {t : Segment} (hm : j.segments = some m) (ht : t ∈ m.segments)
    (hne : t.state ≠ .durable) : ¬j.allDurable = true := by
  rw [allDurable, hm]
  simpa [SegmentMap.allDurable] using ⟨t, ht, hne⟩

/-- The job was not told to stop, and it does not rest as one that was. -/
def Unforced (j : Job) : Prop :=
  j.stop ≠ some .paused ∧ j.state ≠ .paused ∧ j.state ≠ .cancelling ∧ j.state ≠ .cancelled

end Job

namespace Session

variable {c : Coordinator} {spec : JobSpec} {σ : Type}

/-- The counters of the map, or of a new one, have room for `n` more. -/
def Room (n : ℕ) (job : Job) : Prop := n + 2 ≤ u64Max ∧ ∀ m ∈ job.segments,
  m.nextId + n ≤ u64Max ∧ m.nextAttempt + n ≤ u64Max ∧ m.nextCheckpoint + n ≤ u64Max

/-- **The invariant of a running session.** -/
structure Fit (G : Ground c spec σ) (j₀ : Job) (n : ℕ) (s : Session) : Prop where
  inv : s.job.Inv
  spec_eq : s.job.spec = spec
  same : s.job.id = j₀.id ∧ s.job.generation = j₀.generation ∧ s.job.attempts = j₀.attempts
  kept : Kept G s.job
  held : Held s.job s.workers s.leases s.nextWorker
  unchecked : ∀ m ∈ s.job.segments, m.checkpoint = none
  lane : s.writer = false → s.workers = [] ∧ hasUnsynced s.job = false ∧ s.job.stop ≠ some .verifying
  width : s.workers.length ≤ s.connections ∧ 1 ≤ s.connections ∧ s.connections ≤ 16
  retry : ∀ t, s.job.stop = some (.retryWait t) → attempted j₀ < c.config.retry.maximumAttempts
  queued : s.job.stop = some .queued → s.job.replaceOnDrain = true
  whole : s.job.stop = some .verifying → s.job.replaceOnDrain = false ∧ s.job.allDurable = true
  calm : G.calm → s.job.Unforced
  room : G.excused (.domain .overflow) ∨ Room n s.job

variable {G : Ground c spec σ} {j₀ : Job} {n : ℕ} {s : Session}

namespace Fit

theorem mono {k : ℕ} (h : Fit G j₀ n s) (hk : k ≤ n) : Fit G j₀ k s :=
  { h with
    room := h.room.imp_right fun hr ↦
      ⟨by have := hr.1; omega, fun m hm ↦ by have := hr.2 m hm; omega⟩ }

/-- A command moved the job and left its map alone. -/
theorem moved (h : Fit G j₀ n s) {job : Job} (hinv : job.Inv) (hkept : Kept G job)
    (hspec : job.spec = s.job.spec) (hid : job.id = s.job.id)
    (hgen : job.generation = s.job.generation) (hattempts : job.attempts = s.job.attempts)
    (hseg : job.segments = s.job.segments)
    (hretry : ∀ t, job.stop = some (.retryWait t) → attempted j₀ < c.config.retry.maximumAttempts)
    (hqueued : job.stop = some .queued → job.replaceOnDrain = true)
    (hverifying : job.stop = some .verifying →
      s.writer = true ∧ job.replaceOnDrain = false ∧ s.job.allDurable = true)
    (hcalm : G.calm → job.Unforced) :
    Fit G j₀ n { s with job } where
  inv := hinv
  spec_eq := hspec.trans h.spec_eq
  same := ⟨hid.trans h.same.1, hgen.trans h.same.2.1, hattempts.trans h.same.2.2⟩
  kept := hkept
  held := h.held.moved hseg
  unchecked := by rw [hseg]; exact h.unchecked
  lane := fun hw ↦ by
    obtain ⟨h₁, h₂, -⟩ := h.lane hw
    refine ⟨h₁, by rw [hasUnsynced, hseg]; exact h₂, fun hstop ↦ ?_⟩
    rw [(hverifying hstop).1] at hw
    cases hw
  width := h.width
  retry := hretry
  queued := hqueued
  whole := fun hstop ↦ by
    rw [Job.allDurable, hseg]
    exact (hverifying hstop).2
  calm := hcalm
  room := h.room.imp_right fun hr ↦ by rw [Room, hseg]; exact hr

/-- A job that is to be verified has its lane, and all of its bytes. -/
theorem of_verifying (h : Fit G j₀ n s) (hstop : s.job.stop = some .verifying) :
    s.writer = true ∧ s.job.replaceOnDrain = false ∧ s.job.allDurable = true := by
  refine ⟨?_, h.whole hstop⟩
  by_contra hw
  exact (h.lane (by simpa using hw)).2.2 hstop

/-- The job moved to another state without being told to stop. -/
theorem carried (h : Fit G j₀ n s) {job : Job} (hinv : job.Inv) (hkept : Kept G job)
    (hspec : job.spec = s.job.spec) (hid : job.id = s.job.id)
    (hgen : job.generation = s.job.generation) (hattempts : job.attempts = s.job.attempts)
    (hseg : job.segments = s.job.segments) (hstop : job.stop = s.job.stop)
    (hreplace : job.replaceOnDrain = s.job.replaceOnDrain)
    (hcalm : G.calm → job.state ≠ .paused ∧ job.state ≠ .cancelling ∧ job.state ≠ .cancelled) :
    Fit G j₀ n { s with job } := by
  refine h.moved hinv hkept hspec hid hgen hattempts hseg ?_ ?_ ?_ fun hc ↦ ⟨?_, hcalm hc⟩
  · rw [hstop]
    exact h.retry
  · rw [hstop, hreplace]
    exact h.queued
  · rw [hstop, hreplace]
    exact h.of_verifying
  · rw [hstop]
    exact (h.calm hc).1

end Fit

/-- The job is on its way to rest. -/
def Halting (s : Session) : Prop := s.job.state = .stopping ∨ s.job.state = .cancelling

/-- A stop was asked for: it is under way, unless the job was being cancelled already. -/
def Halted (s s' : Session) : Prop :=
  s'.job.state = .stopping ∨ s.job.state = .cancelling ∧ s'.job.state = .cancelling

theorem Halted.halting {s' : Session} (h : Halted s s') : Halting s' := h.imp_right And.right

/-- A routine that only moves the job and raises flags. -/
structure Beside (s s' : Session) : Prop where
  workers : s'.workers = s.workers
  leases : s'.leases = s.leases
  writer : s'.writer = s.writer
  connections : s'.connections = s.connections
  unsynced : s'.unsynced = s.unsynced
  nextWorker : s'.nextWorker = s.nextWorker
  segments : s'.job.segments = s.job.segments
  storageFailed : s.storageFailed = true → s'.storageFailed = true

theorem Beside.refl (s : Session) : Beside s s := ⟨rfl, rfl, rfl, rfl, rfl, rfl, rfl, id⟩

theorem Beside.trans {s s' s'' : Session} (h : Beside s s') (h' : Beside s' s'') : Beside s s'' :=
  ⟨h'.workers.trans h.workers, h'.leases.trans h.leases, h'.writer.trans h.writer,
    h'.connections.trans h.connections, h'.unsynced.trans h.unsynced,
    h'.nextWorker.trans h.nextWorker, h'.segments.trans h.segments,
    fun hf ↦ h'.storageFailed (h.storageFailed hf)⟩

/-! ### Stopping -/

/-- **A stop is decided, committed and applied.** -/
theorem step_stop_at {β : Type} (command : JobCommand) (h : Fit G j₀ n s)
    (hstate : s.job.state = .probing ∨ s.job.state = .transferring ∨ s.job.state = .stopping)
    (hcommand : Job.Stops c.config.retry.maximumAttempts (attempted j₀) G.calm command)
    {f : Unit → SessionM β} {χ : β → Session → Prop}
    (hf : ∀ s', Fit G j₀ n s' → s'.job.state = .stopping → Beside s s' → At G s' (f ()) χ) :
    At G s (step command >>= f) χ := by
  obtain ⟨changed, next, hexec, hsame, hmoved⟩ :=
    Job.execute_stop h.inv hstate hcommand h.retry h.queued
  refine At.step h.kept hexec (fun hc ↦ hf s h (hsame hc) (Beside.refl s)) fun hc version hkept ↦ ?_
  obtain ⟨target, replace, rfl, hretry, hqueued, hpaused, hverifying⟩ := hmoved hc
  subst hc
  have hinv := (Job.execute_step hexec).inv h.inv
  refine hf _ ?_ rfl ⟨rfl, rfl, rfl, rfl, rfl, rfl, rfl, id⟩
  refine h.moved (hinv.setVersion version) hkept rfl rfl rfl rfl rfl
    (fun t ht ↦ hretry t (Option.some.inj ht)) (fun ht ↦ hqueued (Option.some.inj ht))
    (fun ht ↦ ?_) fun hcalm ↦ ⟨fun ht ↦ ?_, nofun, nofun, nofun⟩
  · obtain ⟨hstop, hreplace⟩ := hverifying (Option.some.inj ht)
    obtain ⟨hw, hr, hd⟩ := h.of_verifying hstop
    exact ⟨hw, hreplace.trans hr, hd⟩
  · rcases hpaused (Option.some.inj ht) with hforced | hstop
    · exact hforced hcalm
    · exact (h.calm hcalm).1 hstop

theorem stopWith_at (command : JobCommand) (h : Fit G j₀ n s)
    (hstate : s.job.state = .probing ∨ s.job.state = .transferring ∨ Halting s)
    (hcommand : Job.Stops c.config.retry.maximumAttempts (attempted j₀) G.calm command) :
    At G s (stopWith command) fun _ s' ↦ Fit G j₀ n s' ∧ Halted s s' ∧ Beside s s' := by
  unfold stopWith
  refine At.get ?_
  dsimp only
  split
  next hin =>
    refine step_stop_at command h hin hcommand fun s' hfit hstop hbeside ↦ ?_
    exact At.changed rfl ⟨{ hfit with }, Or.inl hstop, { hbeside with }⟩
  next hout =>
    rcases hstate with hs | hs | hs | hs
    · exact absurd (Or.inl hs) hout
    · exact absurd (Or.inr (Or.inl hs)) hout
    · exact absurd (Or.inr (Or.inr hs)) hout
    · exact At.changed rfl ⟨{ h with }, Or.inr ⟨hs, hs⟩, ⟨rfl, rfl, rfl, rfl, rfl, rfl, rfl, id⟩⟩

theorem step_cancel_at (h : Fit G j₀ n s) (hcalm : ¬G.calm)
    (hstate : s.job.state = .probing ∨ s.job.state = .transferring ∨ Halting s) {β : Type}
    {f : Unit → SessionM β} {χ : β → Session → Prop}
    (hf : ∀ s', Fit G j₀ n s' → s'.job.state = .cancelling → Beside s s' →
      s'.controlOpen = s.controlOpen → At G s' (f ()) χ) :
    At G s (step .cancel >>= f) χ := by
  rcases hstate with hs | hs | hs | hs
  case inr.inr.inr =>
    have hexec : Job.execute s.job .cancel = .ok (false, s.job) := by simp only [Job.execute, hs]
    exact At.step h.kept hexec (fun _ ↦ hf s h hs (Beside.refl s) rfl) (by rintro ⟨⟩)
  all_goals
    have hexec := Job.execute_cancel (j := s.job) (by simp [hs])
    refine At.step h.kept hexec (by rintro ⟨⟩) fun _ version hkept ↦ hf _ ?_ rfl
      ⟨rfl, rfl, rfl, rfl, rfl, rfl, rfl, id⟩ rfl
    exact h.moved (((Job.execute_step hexec).inv h.inv).setVersion version) hkept rfl rfl rfl rfl rfl
      (by rintro _ ⟨⟩) (by rintro ⟨⟩) (by rintro ⟨⟩) fun h ↦ absurd h hcalm

/-- The job still probes or transfers, or it halts; in any case work may be under way. -/
def Running (s : Session) : Prop :=
  s.job.state = .probing ∨ s.job.state = .transferring ∨ Halting s

theorem onControl_at (message : Option Control) (h : Fit G j₀ n s) (hstate : Running s)
    (hcalm : G.calm → message = none) :
    At G s (onControl message) fun _ s' ↦ Fit G j₀ n s' ∧ Beside s s' ∧
      (Halting s' ∨ message = none ∧ s'.job.state = s.job.state) := by
  cases message with
  | none => exact At.changed rfl ⟨{ h with }, ⟨rfl, rfl, rfl, rfl, rfl, rfl, rfl, id⟩, Or.inr ⟨rfl, rfl⟩⟩
  | some control =>
    cases control with
    | pause =>
      have hstop := stopWith_at .pause h hstate fun hc ↦ by cases hcalm hc
      exact hstop.mono fun _ s' ⟨hfit, hhalt, hbeside⟩ ↦ ⟨hfit, hbeside, Or.inl hhalt.halting⟩
    | cancel =>
      refine step_cancel_at h (fun hc ↦ by cases hcalm hc) hstate fun s' hfit hcancel hbeside _ ↦ ?_
      exact At.changed rfl ⟨{ hfit with }, { hbeside with }, Or.inl (Or.inr hcancel)⟩

/-! ### Failures -/

/-- What is asked for, once it is known what had failed and when. -/
theorem askRetry_at (error : TransportError) (now : ℕ) (h : Fit G j₀ n s) :
    At G s (do
      let (errorClass, deadline) := asked error now
      let jitter : ℕ ← call .jitter
      match c.config.retry.decide errorClass (attempted (← get).job) now deadline jitter with
      | .ok (.retryAt atTick) => pure (JobCommand.retry atTick)
      | _ => pure (.requireAction .network)) fun command s' ↦ s' = s ∧
      Job.Stops c.config.retry.maximumAttempts (attempted j₀) G.calm command := by
  have hattempted : attempted s.job = attempted j₀ := by rw [attempted, h.same.2.2, attempted]
  refine At.call (by simp) fun jitter _ ↦ At.get ?_
  split
  next atTick hdecide =>
    have hlt := RetryPolicy.lt_of_decide_retryAt hdecide
    rw [hattempted] at hlt
    exact At.pure ⟨rfl, hlt⟩
  · exact At.pure ⟨rfl, trivial⟩

/-- **A retry is asked for only below the maximum.** -/
theorem retryOrAsk_at (error : TransportError) (h : Fit G j₀ n s) :
    At G s (retryOrAsk c error) fun command s' ↦ s' = s ∧
      Job.Stops c.config.retry.maximumAttempts (attempted j₀) G.calm command := by
  unfold retryOrAsk
  refine At.call (by simp) fun now _ ↦ ?_
  have hrest := askRetry_at (c := c) error now h
  dsimp only
  split
  · cases error <;> exact At.get (At.call (by simp) fun _ _ ↦ hrest)
  · exact hrest

theorem onTransportError_at (error : TransportError) (h : Fit G j₀ n s) (hstate : Running s) :
    At G s (onTransportError c error) fun _ s' ↦ Fit G j₀ n s' ∧ Halted s s' ∧ Beside s s' := by
  cases error with
  | representationChanged => exact stopWith_at _ h hstate trivial
  | userAction reason => exact stopWith_at _ h hstate trivial
  | fatal reason => exact stopWith_at _ h hstate trivial
  | transient =>
    refine At.bind (retryOrAsk_at .transient h) fun command s' ⟨hs', hcommand⟩ ↦ ?_
    rw [hs']
    exact stopWith_at _ h hstate hcommand
  | throttled retryAfterMs =>
    refine At.bind (retryOrAsk_at (.throttled retryAfterMs) h) fun command s' ⟨hs', hcommand⟩ ↦ ?_
    rw [hs']
    exact stopWith_at _ h hstate hcommand

theorem onStorageFailure_at (h : Fit G j₀ n s) (hstate : Running s) :
    At G s onStorageFailure fun _ s' ↦ Fit G j₀ n s' ∧ Halted s s' ∧ Beside s s' ∧
      s'.storageFailed = true := by
  unfold onStorageFailure
  refine At.change rfl ?_
  have hfit : Fit G j₀ n { s with storageFailed := true } := { h with }
  refine (stopWith_at (.requireAction .storage) hfit hstate trivial).mono fun _ s' ⟨hfit', hhalt, hbeside⟩ ↦ ?_
  exact ⟨hfit', hhalt, { hbeside with storageFailed := fun _ ↦ hbeside.storageFailed rfl },
    hbeside.storageFailed rfl⟩

/-! ### Workers that end -/

/-- The map changed, and with it perhaps the workers and their leases. -/
theorem Fit.remap (h : Fit G j₀ n s) {s' : Session} {m : SegmentMap} {k : ℕ}
    (hjob : s'.job = { s.job with segments := some m }) (hwriter : s'.writer = s.writer)
    (hinv : s'.job.Inv)
    (hheld : Held s'.job s'.workers s'.leases s'.nextWorker) (hunchecked : m.checkpoint = none)
    (hlane : s'.writer = false → s'.workers = [] ∧ m.hasUnsynced = false)
    (hwidth : s'.workers.length ≤ s'.connections ∧ 1 ≤ s'.connections ∧ s'.connections ≤ 16)
    (hwhole : s.job.allDurable = true → m.allDurable = true)
    (hroom : G.excused (.domain .overflow) ∨ k + 2 ≤ u64Max ∧
      m.nextId + k ≤ u64Max ∧ m.nextAttempt + k ≤ u64Max ∧ m.nextCheckpoint + k ≤ u64Max) :
    Fit G j₀ k s' where
  inv := hinv
  spec_eq := by rw [hjob]; exact h.spec_eq
  same := by rw [hjob]; exact h.same
  kept := by rw [hjob]; exact h.kept
  held := hheld
  unchecked := fun m' hm' ↦ by
    rw [hjob] at hm'
    rw [← Option.some.inj hm', hunchecked]
  lane := fun hw ↦ by
    refine ⟨(hlane hw).1, by rw [hjob, hasUnsynced]; exact (hlane hw).2, ?_⟩
    rw [hjob]
    exact (h.lane (hwriter.symm.trans hw)).2.2
  width := hwidth
  retry := by rw [hjob]; exact h.retry
  queued := by rw [hjob]; exact h.queued
  whole := fun hstop ↦ by
    rw [hjob] at hstop ⊢
    exact ⟨(h.whole hstop).1, hwhole (h.whole hstop).2⟩
  calm := by rw [hjob]; exact h.calm
  room := hroom.imp_right fun hr ↦ ⟨hr.1, fun m' hm' ↦ by
    rw [hjob] at hm'
    rw [← Option.some.inj hm']
    exact hr.2⟩

theorem Fit.room_of (h : Fit G j₀ n s) {m : SegmentMap} (hm : s.job.segments = some m) :
    G.excused (.domain .overflow) ∨ n + 2 ≤ u64Max ∧
      m.nextId + n ≤ u64Max ∧ m.nextAttempt + n ≤ u64Max ∧ m.nextCheckpoint + n ≤ u64Max :=
  h.room.imp_right fun hr ↦ ⟨hr.1, hr.2 m hm⟩

/-- Work may still be under way. -/
def Active (s : Session) : Prop := Job.isActive s.job.state = true

theorem Halting.active (h : Halting s) : Active s := by
  rcases h with h | h <;> rw [Active, h] <;> rfl

theorem Active.running (h : Active s) : Running s := by
  unfold Active at h
  unfold Running Halting
  revert h
  cases s.job.state <;> simp [Job.isActive]

theorem Active.halting (h : Active s) (hne : s.job.state ≠ .transferring) : Halting s := by
  unfold Active at h
  unfold Halting
  revert h hne
  cases s.job.state <;> simp [Job.isActive]

/-- What joining one worker leaves. -/
structure Joined (s s' : Session) : Prop where
  count : s'.workers.length + 1 = s.workers.length
  writer : s'.writer = s.writer
  halting : Halting s → Halting s'

/-- Once a lease is settled and its worker gone, the rest of the session goes on as before. -/
theorem Fit.settle (h : Fit G j₀ n s) {w : ℕ} (hw : w ∈ s.workers) {l : Lease}
    (hl : s.leases.lookup w = some l) {m : SegmentMap} (hm : s.job.segments = some m)
    {pre post : List Segment} {t t' : Segment} (hseg : m.segments = pre ++ t :: post)
    (hold : Holds t l) (ht' : t'.state.isInFlight = false)
    (hinv : Job.Inv { s.job with segments := some { m with segments := pre ++ t' :: post } }) :
    Fit G j₀ n
      { s with
        workers := s.workers.erase w, leases := s.leases.filter (·.1 ≠ w)
        job := { s.job with segments := some { m with segments := pre ++ t' :: post } } } := by
  have hlength : (s.workers.erase w).length ≤ s.workers.length := List.erase_sublist.length_le
  have hroom := h.room_of hm
  refine h.remap rfl rfl hinv (h.held.settle hm (h.inv.map m hm) hw hl hseg hold ht')
    (h.unchecked m hm) (fun hwriter ↦ ?_) ⟨hlength.trans h.width.1, h.width.2⟩ (fun hall ↦ ?_) hroom
  · have := (h.lane hwriter).1
    rw [this] at hw
    exact absurd hw List.not_mem_nil
  · have hin := Job.not_allDurable hm (by rw [hseg]; exact List.mem_append_right _ List.mem_cons_self)
      (by rw [hold.2.2]; nofun)
    exact absurd hall hin

/-- **A worker that ends settles its lease.** -/
theorem onWorker_at (done : WorkerDone s.workers) (h : Fit G j₀ n s) (hactive : Active s) :
    At G s (onWorker c done) fun _ s' ↦ Fit G j₀ n s' ∧ Active s' ∧ Joined s s' := by
  obtain ⟨place, outcome⟩ := done
  have herase : s.workers.eraseIdx place = s.workers.erase (s.workers.get place) :=
    (h.held.nodup.erase_get place).symm
  have hw : s.workers.get place ∈ s.workers := List.get_mem _ _
  generalize hworker : s.workers.get place = w at herase hw
  have hlength : (s.workers.erase w).length + 1 = s.workers.length := by
    rw [List.length_erase_of_mem hw]
    have := place.pos
    omega
  obtain ⟨l, hl, -, m, hm, hold⟩ := h.held.lease w hw
  have hjoined : ∀ {s' : Session}, s'.workers = s.workers.erase w → s'.writer = s.writer →
      (Halting s → Halting s') → Joined s s' :=
    fun h₁ h₂ h₃ ↦ ⟨by rw [h₁]; exact hlength, h₂, h₃⟩
  unfold onWorker
  refine At.change rfl ?_
  rw [hworker, herase]
  have htake : ∀ {f : Lease → SessionM Unit} {χ : Unit → Session → Prop},
      At G { s with workers := s.workers.erase w, leases := s.leases.filter (·.1 ≠ w) } (f l) χ →
      At G { s with workers := s.workers.erase w } (takeLease w >>= f) χ := by
    intro f χ hf
    refine At.bind (ψ := fun l' s' ↦ l' = l ∧ s' =
      { s with workers := s.workers.erase w, leases := s.leases.filter (·.1 ≠ w) }) ?_
      fun l' s' htaken ↦ by rw [htaken.1, htaken.2]; exact hf
    unfold takeLease
    refine At.get ?_
    simp only [hl]
    exact At.set rfl (At.pure ⟨rfl, rfl⟩)
  refine htake ?_
  cases outcome with
  | ok _ =>
    obtain ⟨pre, t, post, hseg, ht, heq⟩ := Job.markWritten_of_holding h.inv hactive hm hold
    have hinv := h.inv.perform (.markWritten l)
    rw [Job.perform, heq] at hinv
    refine At.onJob heq (Job.plan_of (m := m) hm) (At.changed rfl ?_)
    refine ⟨{ h.settle hw hl hm hseg ht rfl hinv with }, hactive, ?_⟩
    exact hjoined rfl rfl id
  | error failure =>
    obtain ⟨pre, t, post, hseg, ht, heq⟩ := Job.release_of_holding h.inv hactive hm hold
    have hinv := h.inv.perform (.release l)
    rw [Job.perform, heq] at hinv
    have hfit := h.settle hw hl hm hseg ht rfl hinv
    refine At.onJob heq (Job.plan_of (m := m) hm) ?_
    have hstays : ∀ {s' : Session}, Fit G j₀ n s' → Halting s' → s'.workers = s.workers.erase w →
        s'.writer = s.writer → Fit G j₀ n s' ∧ Active s' ∧ Joined s s' :=
      fun h₁ h₂ h₃ h₄ ↦ ⟨h₁, h₂.active, hjoined h₃ h₄ fun _ ↦ h₂⟩
    cases failure with
    | cancelled => exact At.pure ⟨hfit, hactive, hjoined rfl rfl id⟩
    | transport error =>
      exact (onTransportError_at error hfit (Active.running hactive)).mono
        fun _ s' hs' ↦ hstays hs'.1 hs'.2.1.halting hs'.2.2.workers hs'.2.2.writer
    | writer error =>
      have hstop := onStorageFailure_at hfit (Active.running hactive)
      cases error with
      | cancelled => exact At.pure ⟨hfit, hactive, hjoined rfl rfl id⟩
      | _ => exact hstop.mono fun _ s' hs' ↦
          hstays hs'.1 hs'.2.1.halting hs'.2.2.1.workers hs'.2.2.1.writer
    | panicked =>
      exact (stopWith_at (.fail .unknown) hfit (Active.running hactive) trivial).mono
        fun _ s' hs' ↦ hstays hs'.1 hs'.2.1.halting hs'.2.2.workers hs'.2.2.writer

/-! ### Opening the part -/

/-- A session that verifies or publishes found its part unusable. -/
theorem requireAction_at {β : Type} (reason : StopReason) (h : Fit G j₀ n s)
    (hstate : s.job.state = .verifying ∨ s.job.state = .publishing) {f : Unit → SessionM β}
    {χ : β → Session → Prop}
    (hf : ∀ s', Fit G j₀ n s' → s'.job.state = .needsAction → s'.writer = s.writer → At G s' (f ()) χ) :
    At G s (step (.requireAction reason) >>= f) χ := by
  have hexec : Job.execute s.job (.requireAction reason) =
      .ok (true, { s.job with reason := some reason, state := .needsAction }) := by
    rcases hstate with hs | hs <;> simp only [Job.execute, hs, Job.moved]
  refine At.step h.kept hexec (by rintro ⟨⟩) fun _ version hkept ↦ hf _ ?_ rfl rfl
  exact h.carried (((Job.execute_step hexec).inv h.inv).setVersion version) hkept rfl rfl rfl rfl rfl
    rfl rfl fun _ ↦ ⟨(by rintro ⟨⟩), (by rintro ⟨⟩), (by rintro ⟨⟩)⟩

/-- **The part is opened**, or the job is on its way to ask for help. -/
theorem openPart_at (h : Fit G j₀ n s) (hplan : s.job.segments.isSome = true)
    (hwriter : s.writer = false)
    (hstate : s.job.state = .transferring ∨ s.job.state = .verifying ∨ s.job.state = .publishing) :
    At G s (openPart c) fun _ s' ↦ Fit G j₀ n s' ∧
      (s'.writer = true ∧ s'.job = s.job ∧ s'.workers = [] ∨
        s'.writer = false ∧ (s.job.state = .transferring ∧ Halting s' ∨
          s.job.state ≠ .transferring ∧ s'.job.state = .needsAction)) := by
  obtain ⟨m, hm⟩ := Option.isSome_iff_exists.1 hplan
  have hworkers := (h.lane hwriter).1
  unfold openPart
  refine At.get ?_
  simp only [Job.plan_of hm]
  refine At.orElse (fun e he ↦ ?_) fun part _ ↦ ?_
  · have hle := (h.inv.map m hm).total_le
    rw [PartSpec.new, dif_neg (by omega)] at he
    cases he
  refine At.call (by simp) fun answer hanswer ↦ At.orElse (fun e he ↦ ?_) fun extents _ ↦ ?_
  · subst he
    obtain ⟨w, w', -, hw⟩ := hanswer
    exact G.durable_error hw
  refine At.call (by simp) fun answer hanswer ↦ At.orElse (fun e he ↦ ?_) fun directory _ ↦ ?_
  · subst he
    obtain ⟨w, w', hlink, hw⟩ := hanswer
    exact G.parts_error hlink hstate hw
  refine At.call (by simp) fun answer hanswer ↦ ?_
  split
  next =>
    obtain ⟨w, w', -, hw⟩ := hanswer
    exact At.throw (G.obtain_panic hw)
  next =>
    refine At.call (by simp) fun answer hanswer ↦ At.orElse (fun e he ↦ ?_) fun _ _ ↦ ?_
    · subst he
      obtain ⟨w, w', -, hw⟩ := hanswer
      exact G.start_error hw
    · exact At.changed rfl ⟨{ h with lane := nofun }, Or.inl ⟨rfl, rfl, hworkers⟩⟩
  next error =>
    refine At.change rfl (At.get ?_)
    have hfit : Fit G j₀ n { s with storageFailed := true } := { h with }
    dsimp only
    split
    next hin =>
      refine At.last (requireAction_at _ hfit hin fun s' hfit' hneeds hw ↦ At.pure ⟨hfit', Or.inr ?_⟩)
      refine ⟨hw.trans hwriter, Or.inr ⟨?_, hneeds⟩⟩
      rcases hin with hs | hs <;> simp [show s.job.state = _ from hs]
    next hout =>
      have htransfer : s.job.state = .transferring := by
        rcases hstate with hs | hs | hs
        · exact hs
        · exact absurd (Or.inl hs) hout
        · exact absurd (Or.inr hs) hout
      refine (stopWith_at (.requireAction _) hfit (Or.inr (Or.inl htransfer)) trivial).mono ?_
      intro _ s' ⟨hfit', hhalt, hbeside⟩
      exact ⟨hfit', Or.inr ⟨hbeside.writer.trans hwriter, Or.inl ⟨htransfer, hhalt.halting⟩⟩⟩

end Session

end Fhd
