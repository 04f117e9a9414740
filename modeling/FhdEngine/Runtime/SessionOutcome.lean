import FhdEngine.Runtime.SessionWork

/-!
# How a session ends

From the drain on. The workers are joined, the last controls are read, and a stopping job is carried
over to where it was told to stop; a job that is complete is verified and published. `Ended` says what
a session that returns has made of its job: it rests in one of the states nothing runs in, it is the
same job with the same attempts, it waits for a retry only if the policy allowed one, and it is queued
again only in the next generation.
-/

namespace Fhd

/-- **What a session leaves of the job it started with.** -/
structure Ended (c : Coordinator) (spec : JobSpec) (calm : Prop) (j₀ j : Job) : Prop where
  inv : j.Inv
  rests : j.removable = true
  spec_eq : j.spec = spec
  attempts : j.attempts = j₀.attempts
  retry : j.state = .retryWait → Session.attempted j₀ < c.config.retry.maximumAttempts
  generation : j.generation = j₀.generation ∧ j.state ≠ .queued ∨ j₀.generation.next = .ok j.generation
  /-- A job that nobody told to stop has not been stopped. -/
  calm : calm → j.state ≠ .paused ∧ j.state ≠ .cancelled

/-- The end a session reports is where its job is. -/
def SessionEnd.Reports (ended : SessionEnd) (j : Job) : Prop :=
  match ended with
  | .settled state => j.state = state
  | .published _ => j.state = .completed

namespace Session

variable {c : Coordinator} {spec : JobSpec} {σ : Type} {G : Ground c spec σ} {j₀ : Job} {n : ℕ}
  {s : Session}

/-- The session is over, and the job is where it is reported to be. -/
def Over (c : Coordinator) (spec : JobSpec) (calm : Prop) (j₀ : Job) (ended : SessionEnd)
    (s : Session) : Prop :=
  Ended c spec calm j₀ s.job ∧ ended.Reports s.job

/-! ### The drain -/

theorem joinAll_at (left : ℕ) (h : Fit G j₀ n s) (hhalt : Halting s) (hleft : s.workers.length = left) :
    At G s (joinAll c left) fun _ s' ↦ Fit G j₀ n s' ∧ Halting s' ∧ s'.workers = [] := by
  induction left generalizing s with
  | zero => exact At.pure ⟨h, hhalt, List.eq_nil_of_length_eq_zero hleft⟩
  | succ left ih =>
    rw [joinAll]
    refine At.get (At.call (by simp) fun done _ ↦ ?_)
    refine At.bind (onWorker_at done h hhalt.active) fun _ t ⟨hfit, _, hjoined⟩ ↦ ?_
    refine ih hfit (hjoined.halting hhalt) ?_
    have := hjoined.count
    omega

theorem drainControls_at (fuel : ℕ) (h : Fit G j₀ n s) (hhalt : Halting s) (hworkers : s.workers = []) :
    At G s (drainControls fuel) fun _ s' ↦ Fit G j₀ n s' ∧ Halting s' ∧ s'.workers = [] := by
  induction fuel generalizing s with
  | zero => exact At.call (by simp) fun never _ ↦ nomatch never
  | succ fuel ih =>
    rw [drainControls]
    refine At.get ?_
    split
    · refine At.call (by simp) fun message hmessage ↦ ?_
      cases message with
      | none => exact At.pure ⟨h, hhalt, hworkers⟩
      | some control =>
        have hforced : ¬G.calm := fun hc ↦ by
          obtain ⟨w, w', -, hw⟩ := hmessage
          cases G.quiet hc hw
        cases control with
        | pause => exact ih h hhalt hworkers
        | cancel =>
          refine At.get ?_
          dsimp only
          split
          · refine step_cancel_at h hforced (Or.inr (Or.inr hhalt)) fun t hfit hcancel hbeside _ ↦ ?_
            exact ih hfit (Or.inr hcancel) (hbeside.workers.trans hworkers)
          · exact ih h hhalt hworkers
    · exact At.pure ⟨h, hhalt, hworkers⟩

/-- Discarding is accepted as no checkpoint is pending. -/
theorem discardUnsynced_at (h : Fit G j₀ n s) (hstate : s.job.state = .stopping)
    (hplanned : s.job.segments.isSome = true) :
    At G s (domain Job.discardUnsynced) fun _ s' ↦ Fit G j₀ n s' ∧ s'.job.state = .stopping ∧
      s'.workers = s.workers ∧ hasUnsynced s'.job = false := by
  obtain ⟨m, hm⟩ := Option.isSome_iff_exists.1 hplanned
  have heq : s.job.discardUnsynced = (.ok (), { s.job with
      segments := some { m with
        segments := m.segments.map fun s ↦
          if s.state.isWritten then { s with state := .pending } else s } }) := by
    rw [Job.discardUnsynced, if_neg (by simp [hstate]),
      Job.onMap_eq (by rw [hstate]; rfl) hm (SegmentMap.discardUnsynced_of_idle (h.unchecked m hm))]
  have hj := h.inv.perform .discardUnsynced
  rw [Job.perform, heq] at hj
  have hnone : ∀ t ∈ m.segments.map (fun s : Segment ↦
      if s.state.isWritten then { s with state := .pending } else s), ¬t.state.isWritten = true := by
    intro t ht
    obtain ⟨u, -, rfl⟩ := List.mem_map.1 ht
    split
    · simp
    next hw => exact hw
  refine At.last (At.onJob heq (Job.plan_of (m := m) hm) (At.pure ⟨?_, hstate, rfl, List.any_eq_false.2 hnone⟩))
  refine h.remap rfl rfl hj (h.held.mapped hm rfl rfl rfl rfl fun _ ↦ rfl) (h.unchecked m hm)
    (fun hw ↦ ⟨(h.lane hw).1, List.any_eq_false.2 hnone⟩) h.width (fun hall ↦ ?_) (h.room_of (m := m) hm)
  rw [Job.allDurable, hm, Option.any_some, SegmentMap.allDurable, List.all_eq_true] at hall
  refine List.all_eq_true.2 fun t ht ↦ ?_
  obtain ⟨u, hu, rfl⟩ := List.mem_map.1 ht
  have hdurable : u.state = .durable := by simpa using hall u hu
  simp [hdurable]

/-- **Everything written is committed or given up** before a job that keeps its bytes is drained. -/
theorem settleUnsynced_at (h : Fit G j₀ (n + 1) s) (hstate : s.job.state = .stopping)
    (hworkers : s.workers = []) :
    At G s settleUnsynced fun _ s' ↦ Fit G j₀ n s' ∧ s'.job.state = .stopping ∧ s'.workers = [] ∧
      (s'.job.replaceOnDrain = true ∨ hasUnsynced s'.job = false) := by
  unfold settleUnsynced
  refine At.get ?_
  split
  next hdue =>
    have hplanned : s.job.segments.isSome = true := by
      have := hdue.1
      unfold hasUnsynced at this
      cases hm : s.job.segments with
      | none => rw [hm] at this; cases this
      | some m => rfl
    split
    · refine (discardUnsynced_at (h.mono (Nat.le_succ n)) hstate hplanned).mono ?_
      exact fun _ t ⟨hfit, hst, hw, hu⟩ ↦ ⟨hfit, hst, hw.trans hworkers, Or.inr hu⟩
    · refine At.bind (checkpoint_at h (by rw [Active, hstate]; rfl)) fun _ t ⟨hfit, hcheck⟩ ↦ ?_
      have hstate' : t.job.state = .stopping := by
        rcases hcheck.state with hs | hs | ⟨hs, -⟩
        · exact hs.trans hstate
        · exact hs
        · rw [hstate] at hs
          cases hs
      refine At.get ?_
      split
      · refine (discardUnsynced_at hfit hstate' (hcheck.planned hplanned)).mono ?_
        exact fun _ u ⟨hfit', hst, hw, hu⟩ ↦
          ⟨hfit', hst, hw.trans (hcheck.workers.trans hworkers), Or.inr hu⟩
      next hsafe =>
        exact At.pure ⟨hfit, hstate', hcheck.workers.trans hworkers,
          Or.inr (hcheck.done.resolve_right hsafe)⟩
  next hdue =>
    refine At.pure ⟨h.mono (Nat.le_succ n), hstate, hworkers, ?_⟩
    by_cases hr : s.job.replaceOnDrain = true
    · exact Or.inl hr
    · exact Or.inr (by simpa [hr] using hdue)

/-! ### Where a drained job lands -/

theorem Fit.quiescent (h : Fit G j₀ n s) (hworkers : s.workers = []) : s.job.quiescent = true := by
  have hheld := h.held
  rw [hworkers] at hheld
  exact Job.quiescent_iff.2 fun m hm ↦ ⟨fun _ ↦ hheld.quiet hm, h.unchecked m hm⟩

/-- **A drained job** rests, or goes on to be verified. -/
theorem drained_at {β : Type} {f : Unit → SessionM β} {χ : β → Session → Prop} (h : Fit G j₀ n s)
    (hstate : s.job.state = .stopping) (hworkers : s.workers = [])
    (hsettled : s.job.replaceOnDrain = true ∨ hasUnsynced s.job = false)
    (hf : ∀ s', Ended c spec G.calm j₀ s'.job ∨
      Fit G j₀ n s' ∧ s'.job.state = .verifying ∧ s'.writer = true → At G s' (f ()) χ) :
    At G s (step .workersDrained >>= f) χ := by
  obtain ⟨target, htarget⟩ := Option.isSome_iff_exists.1 (h.inv.stop_iff.2 hstate)
  have hquiet := h.quiescent hworkers
  have hretry : ∀ {t}, target = .retryWait t → attempted j₀ < c.config.retry.maximumAttempts :=
    fun ht ↦ h.retry _ (htarget.trans (congrArg some ht))
  have hpaused : G.calm → target ≠ .paused :=
    fun hc ht ↦ (h.calm hc).1 (htarget.trans (congrArg some ht))
  cases hreplace : s.job.replaceOnDrain with
  | true =>
    have hset : s.job.settled = true := by
      rw [Job.settled, hquiet, hreplace]
      rfl
    cases hnext : s.job.generation.next with
    | error e =>
      have hexec : Job.execute s.job .workersDrained = .error e := by
        simp [Job.execute, hstate, Job.drained, hset, htarget, hreplace, hnext]
      have hover : e = .overflow ∧ u64Max < s.job.generation.get + 1 := by
        unfold Generation.next at hnext
        split at hnext
        · cases hnext
        · cases hnext
          exact ⟨rfl, by omega⟩
      refine At.step_error hexec ?_
      rw [hover.1]
      refine h.kept.resolve_right fun hk ↦ ?_
      have := hk.2
      have := hover.2
      unfold i64Max u64Max at *
      omega
    | ok next =>
      have hexec : Job.execute s.job .workersDrained = .ok (true, Job.land
          { s.job with
            stop := none, replaceOnDrain := false, generation := next, segments := none
            validator := none } target) := by
        simp [Job.execute, hstate, Job.drained, hset, htarget, hreplace, hnext]
      have hinv := (Job.execute_step hexec).inv h.inv
      refine At.step h.kept hexec (by rintro ⟨⟩) fun _ version _ ↦ hf _ (Or.inl ?_)
      obtain ⟨state, retryAt, reason, hland⟩ := Job.land_eq
        { s.job with
          stop := none, replaceOnDrain := false, generation := next, segments := none
          validator := none } target
      rcases Job.land_cases
        { s.job with
          stop := none, replaceOnDrain := false, generation := next, segments := none
          validator := none } target with ⟨hd, -, -⟩ | ⟨hrem, hwait, -⟩
      · cases hd
      · refine ⟨hinv.setVersion version, hrem, ?_, ?_, fun hs ↦ ?_, Or.inr ?_, fun hc ↦
          Job.land_forced (hpaused hc) fun ht ↦ ?_⟩
        · rw [hland]
          exact h.spec_eq
        · rw [hland]
          exact h.same.2.2
        · obtain ⟨t, ht⟩ := hwait hs
          exact hretry ht
        · rw [hland, ← h.same.2.1]
          exact hnext
        · rw [(h.whole (htarget.trans (congrArg some ht))).1] at hreplace
          cases hreplace
  | false =>
    have hunsynced : hasUnsynced s.job = false := hsettled.resolve_left (by simp [hreplace])
    have hset : s.job.settled = true := by
      rw [hasUnsynced] at hunsynced
      rw [Job.settled, hquiet, hunsynced]
      simp
    have hexec : Job.execute s.job .workersDrained =
        .ok (true, Job.land { s.job with stop := none } target) := by
      simp [Job.execute, hstate, Job.drained, hset, htarget, hreplace]
    have hinv := (Job.execute_step hexec).inv h.inv
    refine At.step h.kept hexec (by rintro ⟨⟩) fun _ version hkept ↦ hf _ ?_
    rcases Job.land_cases { s.job with stop := none } target with
      ⟨-, rfl, hland⟩ | ⟨hrem, hwait, hqueue⟩
    · rw [hland] at hinv hkept ⊢
      refine Or.inr ⟨?_, rfl, (h.of_verifying htarget).1⟩
      exact h.moved (hinv.setVersion version) hkept rfl rfl rfl rfl rfl (by rintro _ ⟨⟩) (by rintro ⟨⟩) (by rintro ⟨⟩)
        fun _ ↦ ⟨(by rintro ⟨⟩), (by rintro ⟨⟩), (by rintro ⟨⟩), (by rintro ⟨⟩)⟩
    · obtain ⟨state, retryAt, reason, hland⟩ := Job.land_eq { s.job with stop := none } target
      refine Or.inl ⟨hinv.setVersion version, hrem, ?_, ?_, fun hs ↦ ?_, Or.inl ⟨?_, fun hs ↦ ?_⟩,
        fun hc ↦ Job.land_forced (hpaused hc) fun ht ↦
          (h.whole (htarget.trans (congrArg some ht))).2⟩
      · rw [hland]
        exact h.spec_eq
      · rw [hland]
        exact h.same.2.2
      · obtain ⟨t, ht⟩ := hwait hs
        exact hretry ht
      · rw [hland]
        exact h.same.2.1
      · have := h.queued (htarget.trans (congrArg some (hqueue hs)))
        rw [hreplace] at this
        cases this

/-! ### Publication -/

/-- A job that has stopped for good within its generation. -/
theorem Fit.ended (h : Fit G j₀ n s)
    (hstate : s.job.state = .needsAction ∨ s.job.state = .completed ∨ s.job.state = .cancelled) :
    Ended c spec G.calm j₀ s.job where
  inv := h.inv
  rests := by rcases hstate with hs | hs | hs <;> rw [Job.removable, hs]
  spec_eq := h.spec_eq
  attempts := h.same.2.2
  retry := fun hs ↦ by rcases hstate with hs' | hs' | hs' <;> simp [hs'] at hs
  generation := Or.inl ⟨h.same.2.1, by rcases hstate with hs | hs | hs <;> simp [hs]⟩
  calm := fun hc ↦ ⟨(h.calm hc).2.1, (h.calm hc).2.2.2⟩

/-- Dropping a part never moves the job. -/
theorem dropPart_ensures {w : σ} (job : Job) (hw : G.link job w) :
    Process.Ensures G.env (fun _ ↦ True) (fun _ w' ↦ G.link job w') w
      (Session.lift (Coordinator.dropPart job)) := by
  unfold Coordinator.dropPart
  split
  · exact hw
  · split
    · exact hw
    · intro answer w' hcall
      have hw' := G.link_call _ answer (by simp) hcall hw
      refine ⟨trivial, ?_⟩
      cases answer with
      | error _ => exact hw'
      | ok directory =>
        exact fun answer w'' hcall' ↦ ⟨trivial, G.link_call _ answer (by simp) hcall' hw'⟩

theorem releasePart_at (abandon : Bool) : At G s (releasePart abandon) fun _ s' ↦ s' = s := by
  unfold releasePart
  refine At.get ?_
  split
  · exact At.call (by simp) fun _ _ ↦ At.pure rfl
  · intro w hw
    exact (dropPart_ensures s.job hw).bind fun _ w' hw' ↦ ⟨⟨rfl, rfl⟩, hw'⟩

theorem publishBlocked_at (reason : StopReason) (h : Fit G j₀ n s)
    (hstate : s.job.state = .verifying ∨ s.job.state = .publishing) :
    At G s (publishBlocked reason) (Over c spec G.calm j₀) := by
  unfold publishBlocked
  refine At.get ?_
  dsimp only
  rw [if_pos hstate.symm]
  refine requireAction_at reason h hstate fun s' hfit hneeds _ ↦ At.get (At.pure ⟨?_, rfl⟩)
  exact hfit.ended (Or.inl hneeds)

/-- The file is in its place: the job is completed. -/
theorem publishCommitted_at {β : Type} {f : Unit → SessionM β} {χ : β → Session → Prop}
    (h : Fit G j₀ n s) (hstate : s.job.state = .publishing)
    (hf : ∀ s', Ended c spec G.calm j₀ s'.job → s'.job.state = .completed → At G s' (f ()) χ) :
    At G s (step .publishCommitted >>= f) χ := by
  have hexec : Job.execute s.job .publishCommitted = .ok (true, { s.job with state := .completed }) := by
    simp only [Job.execute, hstate, Job.moved]
  refine At.step h.kept hexec (by rintro ⟨⟩) fun _ version hkept ↦ hf _ ?_ rfl
  have hfit := h.carried (((Job.execute_step hexec).inv h.inv).setVersion version) hkept rfl rfl rfl rfl
    rfl rfl rfl fun _ ↦ ⟨(by rintro ⟨⟩), (by rintro ⟨⟩), (by rintro ⟨⟩)⟩
  exact hfit.ended (Or.inr (Or.inl rfl))

theorem publishFile_at (destination : Path) (h : Fit G j₀ n s) (hstate : s.job.state = .publishing) :
    At G s (publishFile destination) (Over c spec G.calm j₀) := by
  unfold publishFile
  refine At.call (by simp) fun answer _ ↦ ?_
  split
  · refine publishCommitted_at h hstate fun s' hended hcompleted ↦ ?_
    exact At.bind (releasePart_at false) fun _ t ht ↦ At.pure (by rw [ht]; exact ⟨hended, hcompleted⟩)
  · exact publishBlocked_at _ h (Or.inr hstate)
  · exact publishBlocked_at _ h (Or.inr hstate)

/-- Reading the committed extents changes nothing. -/
theorem committedRecord_at {β : Type} {f : List (ByteRange × Digest) → SessionM β}
    {χ : β → Session → Prop} (hf : ∀ record, At G s (f record) χ) :
    At G s (committedRecord >>= f) χ := by
  refine At.bind (ψ := fun _ s' ↦ s' = s) ?_ fun record s' hs' ↦ by rw [hs']; exact hf record
  refine At.get (At.call (by simp) fun answer hanswer ↦ At.orElse (fun e he ↦ ?_) fun _ _ ↦ At.pure rfl)
  subst he
  obtain ⟨w, w', -, hw⟩ := hanswer
  exact G.durable_error hw

theorem proveAgain_at (intent : PublishIntent) (destination : Path) (h : Fit G j₀ n s)
    (hstate : s.job.state = .publishing) :
    At G s (proveAgain intent destination) (Over c spec G.calm j₀) := by
  unfold proveAgain
  refine At.call (by simp) fun answer _ ↦ ?_
  cases answer with
  | error _ => exact publishBlocked_at _ h (Or.inr hstate)
  | ok _ =>
    refine committedRecord_at fun record ↦ At.get (At.call (by simp) fun answer _ ↦ ?_)
    split
    · split
      · exact publishFile_at _ h hstate
      · exact publishBlocked_at _ h (Or.inr hstate)
    · exact publishBlocked_at _ h (Or.inr hstate)
    · exact publishBlocked_at _ h (Or.inr hstate)

theorem occupant_at {β : Type} {f : Option Occupant → SessionM β} {χ : β → Session → Prop}
    (destination : Path) (size : ℕ) (hf : ∀ found, At G s (f found) χ) :
    At G s (occupant destination size >>= f) χ := by
  refine At.bind (ψ := fun _ s' ↦ s' = s) ?_ fun found s' hs' ↦ by rw [hs']; exact hf found
  unfold occupant
  refine At.call (by simp) fun answer hanswer ↦ ?_
  obtain ⟨w, w', -, hw⟩ := hanswer
  split
  · exact At.throw (G.inspect_panic hw)
  · refine At.last (At.orElse (fun e he ↦ ?_) fun _ _ ↦ At.pure rfl)
    subst he
    exact G.inspect_error hw

theorem attemptPublish_at (intent : PublishIntent) (h : Fit G j₀ n s)
    (hstate : s.job.state = .publishing) :
    At G s (attemptPublish c intent) (Over c spec G.calm j₀) := by
  unfold attemptPublish
  refine At.get ?_
  split
  · exact publishBlocked_at _ h (Or.inr hstate)
  refine At.call (by simp) fun answer hanswer ↦ At.orElse (fun e he ↦ ?_) fun destination _ ↦ ?_
  · subst he
    obtain ⟨w, w', -, hw⟩ := hanswer
    exact G.resolve_error hw
  refine occupant_at _ _ fun found ↦ ?_
  split
  · split
    · refine publishCommitted_at h hstate fun s' hended hcompleted ↦ ?_
      exact At.bind (releasePart_at true) fun _ t ht ↦
        At.pure (by rw [ht]; exact ⟨hended, hcompleted⟩)
    · exact publishBlocked_at _ h (Or.inr hstate)
  · exact publishBlocked_at _ h (Or.inr hstate)
  · split
    · exact publishFile_at _ h hstate
    next hwriter =>
      have hplanned := h.inv.planned (Or.inr (by rw [hstate]; rfl))
      refine At.bind (openPart_at h hplanned (by simpa using hwriter) (Or.inr (Or.inr hstate)))
        fun _ t ⟨hfit, hopen⟩ ↦ At.get ?_
      rcases hopen with ⟨hw, hjob, -⟩ | ⟨hw, ⟨htransfer, -⟩ | ⟨-, hneeds⟩⟩
      · rw [if_pos hw]
        exact proveAgain_at _ _ hfit (by rw [hjob]; exact hstate)
      · rw [hstate] at htransfer
        cases htransfer
      · rw [if_neg (by simp [hw])]
        exact At.get (At.pure ⟨hfit.ended (Or.inl hneeds), rfl⟩)

theorem publish_at (digest : Digest) (h : Fit G j₀ n s) (hstate : s.job.state = .verifying) :
    At G s (publish c digest) (Over c spec G.calm j₀) := by
  unfold publish
  refine At.get ?_
  refine At.call (by simp) fun answer hanswer ↦ At.orElse (fun e he ↦ ?_) fun previous _ ↦ ?_
  · subst he
    obtain ⟨w, w', -, hw⟩ := hanswer
    exact G.previous_error hw
  refine At.call (by simp) fun answer hanswer ↦ At.orElse (fun e he ↦ ?_) fun _ _ ↦ ?_
  · subst he
    obtain ⟨w, w', -, hw⟩ := hanswer
    exact G.intent_error hw
  have hexec : Job.execute s.job .verificationPassed = .ok (true, { s.job with state := .publishing }) := by
    simp only [Job.execute, hstate, Job.moved]
  refine At.step h.kept hexec (by rintro ⟨⟩) fun _ version hkept ↦ attemptPublish_at (n := n) _ ?_ rfl
  exact h.carried (((Job.execute_step hexec).inv h.inv).setVersion version) hkept rfl rfl rfl rfl
    rfl rfl rfl fun _ ↦ ⟨(by rintro ⟨⟩), (by rintro ⟨⟩), (by rintro ⟨⟩)⟩

theorem resumePublish_at (h : Fit G j₀ n s) (hstate : s.job.state = .publishing) :
    At G s (resumePublish c) (Over c spec G.calm j₀) := by
  unfold resumePublish
  refine At.get (At.call (by simp) fun answer hanswer ↦ At.orElse (fun e he ↦ ?_) fun intent _ ↦ ?_)
  · subst he
    obtain ⟨w, w', -, hw⟩ := hanswer
    exact G.previous_error hw
  · cases intent with
    | none =>
      refine requireAction_at _ h (Or.inr hstate) fun s' hfit hneeds _ ↦ At.get (At.pure ⟨?_, rfl⟩)
      exact hfit.ended (Or.inl hneeds)
    | some intent => exact attemptPublish_at _ h hstate

/-- **A complete job is verified** and published, or asks for help. -/
theorem verify_at (h : Fit G j₀ n s) (hstate : s.job.state = .verifying) (hwriter : s.writer = true) :
    At G s (verify c) (Over c spec G.calm j₀) := by
  have hblocked : ∀ reason, At G s (do
      step (.requireAction reason)
      return .settled (← get).job.state) (Over c spec G.calm j₀) := fun reason ↦ by
    refine requireAction_at reason h (Or.inl hstate) fun s' hfit hneeds _ ↦ At.get (At.pure ⟨?_, rfl⟩)
    exact hfit.ended (Or.inl hneeds)
  unfold verify
  refine At.get ?_
  rw [if_neg (by simp [hwriter])]
  refine At.call (by simp) fun answer _ ↦ ?_
  cases answer with
  | error _ => exact hblocked _
  | ok _ =>
    refine committedRecord_at fun record ↦ At.get (At.call (by simp) fun answer _ ↦ ?_)
    cases answer with
    | ok digest => exact publish_at digest h hstate
    | error error => exact hblocked _

/-! ### The whole session -/

theorem finish_at (fuel : ℕ) (h : Fit G j₀ (n + 1) s) (hhalt : Halting s) :
    At G s (finish c fuel) (Over c spec G.calm j₀) := by
  -- what a finish does once the job has landed
  have hlast : ∀ {t : Session}, Ended c spec G.calm j₀ t.job ∨
      Fit G j₀ n t ∧ t.job.state = .verifying ∧ t.writer = true →
      At G t (do
        if (← get).job.state = .verifying then verify c else return .settled (← get).job.state)
        (Over c spec G.calm j₀) := by
    intro t ht
    refine At.get ?_
    rcases ht with hended | ⟨hfit, hverifying, hwriter⟩
    · rw [if_neg fun hs ↦ by have := hended.rests; rw [Job.removable, hs] at this; cases this]
      exact At.get (At.pure ⟨hended, rfl⟩)
    · rw [if_pos hverifying]
      exact verify_at hfit hverifying hwriter
  unfold finish
  refine At.get (At.bind (joinAll_at _ h hhalt rfl) fun _ t ⟨hfit, hhalt', hworkers⟩ ↦ ?_)
  refine At.bind (drainControls_at fuel hfit hhalt' hworkers) fun _ u ⟨hfit', hhalt'', hworkers'⟩ ↦ ?_
  refine At.get ?_
  rcases hhalt'' with hstop | hcancel
  · simp only [hstop]
    refine At.bind (settleUnsynced_at hfit' hstop hworkers') fun _ v ⟨hfit'', hst, hw, hset⟩ ↦ ?_
    exact drained_at hfit'' hst hw hset fun s' hs' ↦ hlast hs'
  · simp only [hcancel]
    refine At.bind (releasePart_at true) fun _ v hv ↦ ?_
    rw [hv]
    have hexec : Job.execute u.job .cleanupFinished = .ok (true, { u.job with state := .cancelled }) := by
      simp [Job.execute, hcancel, hfit'.quiescent hworkers', Job.moved]
    refine At.step hfit'.kept hexec (by rintro ⟨⟩) fun _ version hkept ↦ hlast (Or.inl ?_)
    have hcancelled := hfit'.carried (((Job.execute_step hexec).inv hfit'.inv).setVersion version) hkept
      rfl rfl rfl rfl rfl rfl rfl fun hc ↦ absurd hcancel (hfit'.calm hc).2.2.1
    exact hcancelled.ended (Or.inr (Or.inr rfl))

/-- What a session needs counters for, beyond what it is left with. -/
def cost (fuel : ℕ) : ℕ := 33 * fuel + 262145

/-- **The answer to a probe is taken over**, as the representation is new or still the same. -/
theorem probeSucceeded_at {β : Type} {f : Unit → SessionM β} {χ : β → Session → Prop} (probe : Probe)
    (maximum : ℕ) (h : Fit G j₀ n s) (hstate : s.job.state = .probing) (hworkers : s.workers = [])
    (hsame : changed s.job probe = false) (hmaximum : 1 ≤ maximum ∧ maximum ≤ maxSegments)
    (hprobe : s.job.segments = none →
      G.excused (.domain .invalidInput) ∨ probe.total ≤ spec.maxBytes)
    (hf : ∀ s', Fit G j₀ n s' → s'.job.state = .transferring → s'.writer = s.writer →
      At G s' (f ()) χ) :
    At G s (step (.probeSucceeded probe.total maximum probe.validator) >>= f) χ := by
  by_cases htotal : probe.total ≤ s.job.spec.maxBytes
  swap
  · have hexec : Job.execute s.job (.probeSucceeded probe.total maximum probe.validator) =
        .error .invalidInput := by
      simp only [Job.execute, hstate, Job.probed]
      rw [if_pos (Or.inl (not_le.1 htotal))]
    refine At.step_error hexec ((hprobe ?_).resolve_right (by rwa [h.spec_eq] at htotal))
    cases hm : s.job.segments with
    | none => rfl
    | some m =>
      -- a plan that is kept is one that fitted before
      have hle := h.inv.total_le m hm
      simp only [changed, Job.plan, hm, Option.map_some, Option.any_some, decide_eq_false_iff_not,
        not_or, not_not] at hsame
      omega
  have hbounds : ¬(probe.total > s.job.spec.maxBytes ∨ ¬(1 ≤ maximum ∧ maximum ≤ maxSegments)) := by
    omega
  cases hm : s.job.segments with
  | some m =>
    have hexec : Job.execute s.job (.probeSucceeded probe.total maximum probe.validator) =
        .ok (true, { s.job with state := .transferring }) := by
      have hkeep : ¬(m.total ≠ probe.total ∨ m.generation ≠ s.job.generation ∨
          probe.validator.isNone ∨ probe.validator ≠ s.job.validator) := by
        have hgen := h.inv.generation m hm
        simp only [changed, Job.plan, hm, Option.map_some, Option.any_some, decide_eq_false_iff_not,
          not_or, not_not] at hsame
        simpa [hgen] using hsame
      simp only [Job.execute, hstate, Job.probed, if_neg hbounds, hm, if_neg hkeep, Job.moved]
    refine At.step h.kept hexec (by rintro ⟨⟩) fun _ version hkept ↦ hf _ ?_ rfl rfl
    have hinv := (Job.execute_step hexec).inv h.inv
    exact h.carried (hinv.setVersion version) hkept rfl rfl rfl rfl rfl rfl rfl
      fun _ ↦ ⟨(by rintro ⟨⟩), (by rintro ⟨⟩), (by rintro ⟨⟩)⟩
  | none =>
    obtain ⟨m, hnew, hpending⟩ :
        ∃ m, SegmentMap.new s.job.id s.job.generation probe.total maximum = .ok m ∧
          ∀ t ∈ m.segments, t.state = .pending :=
      SegmentMap.new_of_le (htotal.trans s.job.spec.maxBytes_le) hmaximum
    have hexec : Job.execute s.job (.probeSucceeded probe.total maximum probe.validator) =
        .ok (true, { s.job with
          validator := probe.validator, segments := some m, state := .transferring }) := by
      simp only [Job.execute, hstate, Job.probed, if_neg hbounds, hm, hnew, Job.moved]
    have hinv := (Job.execute_step hexec).inv h.inv
    obtain ⟨-, -, -, hshape, -⟩ := SegmentMap.new_eq_ok hnew
    have hquiet : ∀ m' ∈ some m, ∀ t ∈ m'.segments, t.state = .pending := by
      rintro m' hm' t ht
      obtain rfl := Option.some.inj hm'
      exact hpending t ht
    refine At.step h.kept hexec (by rintro ⟨⟩) fun _ version hkept ↦ hf _ ?_ rfl rfl
    exact {
      inv := hinv.setVersion version
      spec_eq := h.spec_eq
      same := h.same
      kept := hkept
      held := by
        rw [hworkers]
        exact Held.of_quiet fun m' hm' t ht ↦ by rw [hquiet m' hm' t ht]; rfl
      unchecked := fun m' hm' ↦ by
        rw [← Option.some.inj hm', hshape]
      lane := fun hw ↦ by
        refine ⟨hworkers, List.any_eq_false.2 fun t ht ↦ ?_, (h.lane hw).2.2⟩
        rw [hpending t ht]
        simp
      width := h.width
      retry := h.retry
      queued := h.queued
      whole := fun hstop ↦ by
        have hstopping := h.inv.stop_iff.1 (by rw [show s.job.stop = _ from hstop]; rfl)
        rw [hstate] at hstopping
        cases hstopping
      calm := fun hc ↦ ⟨(h.calm hc).1, (by rintro ⟨⟩), (by rintro ⟨⟩), (by rintro ⟨⟩)⟩
      room := h.room.imp_right fun hr ↦ ⟨hr.1, fun m' hm' ↦ by
        rw [← Option.some.inj hm', hshape]
        have := hr.1
        dsimp only
        omega⟩ }

theorem onProbe_at (fuel : ℕ) (probe : Probe) (h : Fit G j₀ (n + cost fuel) s)
    (hstate : s.job.state = .probing) (hworkers : s.workers = []) (hwriter : s.writer = false)
    (hprobe : s.job.segments = none →
      G.excused (.domain .invalidInput) ∨ probe.total ≤ spec.maxBytes) :
    At G s (onProbe c fuel probe) (Over c spec G.calm j₀) := by
  -- from the moment the number of connections is known
  have hrest : ∀ (t : Session) (maximum : ℕ), 1 ≤ maximum ∧ maximum ≤ maxSegments →
      Fit G j₀ (n + cost fuel) t → t.workers = [] → t.writer = false → t.job = s.job →
      changed s.job probe = false → At G t (do
        step (.probeSucceeded probe.total maximum probe.validator)
        openPart c
        if (← get).job.state ≠ .transferring then finish c fuel
        else
          initialSplit c
          transfer c fuel
          finish c fuel) (Over c spec G.calm j₀) := by
    intro t maximum hmaximum hfit hw hlane hjob hsame
    rw [← hjob] at hstate hprobe hsame
    refine probeSucceeded_at probe _ hfit hstate hw hsame hmaximum hprobe fun u hu hut huw ↦ ?_
    have hplanned := hu.inv.planned (Or.inl hut)
    refine At.bind (openPart_at hu hplanned (huw.trans hlane) (Or.inl hut)) fun _ v ⟨hv, hopen⟩ ↦ ?_
    refine At.get ?_
    rcases hopen with ⟨hvw, hjob, -⟩ | ⟨-, ⟨-, hhalt⟩ | ⟨hne, -⟩⟩
    · rw [if_neg (by rw [hjob]; simpa using hut)]
      rw [← hjob] at hplanned hut
      obtain ⟨m, hm⟩ := Option.isSome_iff_exists.1 hplanned
      have hle := (hv.inv.map m hm).maximum_le
      refine At.bind (initialSplit_at (n := n + 1 + 33 * fuel) hm
        (hv.mono (by unfold cost; unfold maxSegments at hle; omega)) hut) fun _ x ⟨hx, m', hm'⟩ ↦ ?_
      have hxs : x.job.state = .transferring := by rw [hm']; exact hut
      refine At.bind (transfer_at (n := n + 1) fuel hx (by rw [hm']; exact hvw)
        (by rw [Active, hxs]; rfl)) fun _ y ⟨hy, hhalt⟩ ↦ ?_
      exact finish_at fuel hy hhalt
    · rw [if_pos (by rcases hhalt with hs | hs <;> simp [hs])]
      exact finish_at (n := n) fuel (hv.mono (by unfold cost; omega)) hhalt
    · exact absurd hut hne
  unfold onProbe
  refine At.get ?_
  split
  next hchanged =>
    refine step_stop_at .representationChanged h (Or.inl hstate) trivial fun s' hfit hstop _ ↦ ?_
    exact finish_at (n := n) fuel (hfit.mono (by unfold cost; omega)) (Or.inl hstop)
  next hsame =>
    have hsame' : changed s.job probe = false := by simpa using hsame
    have hnarrow : At G s (do
        if ¬probe.ranges then modify fun s ↦ { s with connections := 1 }
        let maxSegments := if probe.ranges then c.config.maxSegments else 1
        step (.probeSucceeded probe.total maxSegments probe.validator)
        openPart c
        if (← get).job.state ≠ .transferring then finish c fuel
        else
          initialSplit c
          transfer c fuel
          finish c fuel) (Over c spec G.calm j₀) := by
      dsimp only
      split
      · refine At.change rfl (hrest _ 1 ⟨le_rfl, by decide⟩ { h with width := ?_ } hworkers hwriter rfl
          hsame')
        rw [hworkers]
        exact ⟨Nat.zero_le _, le_rfl, Nat.le_add_left 1 15⟩
      next hranges =>
        rw [if_pos (not_not.1 hranges)]
        refine hrest s c.config.maxSegments ?_ h hworkers hwriter rfl hsame'
        have := c.config_valid
        simp only [CoordinatorConfig.valid, decide_eq_true_eq] at this
        exact ⟨by omega, this.2.1.2⟩
    dsimp only
    split
    · exact At.call (by simp) fun now _ ↦ At.get (At.call (by simp) fun _ _ ↦ hnarrow)
    · exact hnarrow

/-- The job a session works on: one that is queued makes a new attempt. -/
def started (job : Job) : Job :=
  if job.state = .queued then
    { job with attempts := saturatingSucc job.attempts, state := .probing }
  else job

/-- A job in one of the states a session takes it up from, and its first session. -/
theorem Fit.of_start {job : Job} {connections : ℕ} {origin : OriginId} (hinv : job.Inv)
    (hspec : job.spec = spec) (hkept : Kept G job)
    (hstate : job.state = .queued ∨ job.state = .verifying ∨ job.state = .publishing)
    (hconnections : connections ≠ 0 ∧ connections ≤ c.config.connections)
    (hroom : G.excused (.domain .overflow) ∨ Room n job)
    (hj₀ : j₀.id = job.id ∧ j₀.generation = job.generation ∧ j₀.attempts = job.attempts) :
    Fit G j₀ n (start job connections origin) := by
  have hquiet := hinv.quiet (by rcases hstate with hs | hs | hs <;> rw [hs] <;> rfl)
    (by rcases hstate with hs | hs | hs <;> simp [hs])
  have hstop : job.stop = none := by
    rw [← Option.not_isSome_iff_eq_none, hinv.stop_iff]
    rcases hstate with hs | hs | hs <;> simp [hs]
  have hconfig := c.config_valid
  simp only [CoordinatorConfig.valid, decide_eq_true_eq] at hconfig
  exact {
    inv := hinv
    spec_eq := hspec
    same := ⟨hj₀.1.symm, hj₀.2.1.symm, hj₀.2.2.symm⟩
    kept := hkept
    held := Held.of_quiet fun m hm t ht ↦ ((hquiet m hm).1 t ht).1
    unchecked := fun m hm ↦ (hquiet m hm).2
    lane := fun _ ↦ by
      refine ⟨rfl, ?_, by simp [start, hstop]⟩
      show hasUnsynced job = false
      unfold hasUnsynced
      cases hm : job.segments with
      | none => rfl
      | some m =>
        refine List.any_eq_false.2 fun t ht ↦ ?_
        rw [((hquiet m hm).1 t ht).2]
        simp
    width := ⟨Nat.zero_le _, Nat.one_le_iff_ne_zero.2 hconnections.1,
      hconnections.2.trans hconfig.1.2⟩
    retry := fun t ht ↦ by
      simp [start, hstop] at ht
    queued := fun ht ↦ by
      simp [start, hstop] at ht
    whole := fun ht ↦ by
      simp [start, hstop] at ht
    calm := fun _ ↦ by
      refine ⟨by simp [start, hstop], ?_⟩
      rcases hstate with hs | hs | hs <;> simp [start, hs]
    room := hroom }

theorem awaitProbe_at : At G s awaitProbe fun r s' ↦
    (s' = s ∨ s' = { s with controlOpen := false }) ∧
      (∀ probe, r = .inr (.ok probe) → s.job.segments = none →
        G.excused (.domain .invalidInput) ∨ probe.total ≤ spec.maxBytes) ∧
      (G.calm → ∀ control, r ≠ .inl control) := by
  have hprobe : ∀ {controlOpen result}, Answered G s.job (.awaitProbe s.source controlOpen)
      (ProbeEvent.probe result : ProbeEvent controlOpen) → ∀ probe,
      (Sum.inr result : Control ⊕ Except TransportError Probe) = .inr (.ok probe) →
        s.job.segments = none → G.excused (.domain .invalidInput) ∨ probe.total ≤ spec.maxBytes := by
    rintro controlOpen result ⟨w, w', hlink, hw⟩ probe heq hnone
    obtain rfl := Sum.inr.inj heq
    exact G.probe_ok hlink hnone hw
  unfold awaitProbe
  refine At.get (At.call (by simp) fun event hevent ↦ ?_)
  cases event with
  | probe result => exact At.pure ⟨Or.inl rfl, hprobe hevent, fun _ ↦ nofun⟩
  | control isOpen message =>
    cases message with
    | some control =>
      refine At.pure ⟨Or.inl rfl, nofun, fun hc ↦ ?_⟩
      obtain ⟨w, w', -, hw⟩ := hevent
      cases G.quiet hc hw
    | none =>
      refine At.change rfl (At.call (by simp) fun event hevent ↦ ?_)
      cases event with
      | probe result => exact At.pure ⟨Or.inr rfl, hprobe hevent, fun _ ↦ nofun⟩
      | control isOpen message => cases isOpen

/-- From a started attempt to the end of the session. -/
theorem probing_at (fuel : ℕ) (h : Fit G j₀ (n + cost fuel) s) (hstate : s.job.state = .probing)
    (hworkers : s.workers = []) (hwriter : s.writer = false) :
    At G s (do
      match ← awaitProbe with
      | .inl control =>
        onControl (some control)
        finish c fuel
      | .inr (.error error) =>
        onTransportError c error
        finish c fuel
      | .inr (.ok probe) => onProbe c fuel probe) (Over c spec G.calm j₀) := by
  refine At.bind awaitProbe_at fun r t ⟨ht, hprobe, hquiet⟩ ↦ ?_
  have hfit : Fit G j₀ (n + cost fuel) t := by
    rcases ht with rfl | rfl
    · exact h
    · exact { h with }
  have hsame : t.job = s.job ∧ t.workers = s.workers ∧ t.writer = s.writer := by
    rcases ht with rfl | rfl <;> exact ⟨rfl, rfl, rfl⟩
  have hrunning : Running t := Or.inl (by rw [hsame.1]; exact hstate)
  have hfinish : ∀ {u : Session}, Fit G j₀ (n + cost fuel) u → Halting u →
      At G u (finish c fuel) (Over c spec G.calm j₀) :=
    fun hu hhalt ↦ finish_at (n := n) fuel (hu.mono (by unfold cost; omega)) hhalt
  cases r with
  | inl control =>
    have hforced : ¬G.calm := fun hc ↦ hquiet hc control rfl
    refine At.bind (onControl_at (some control) hfit hrunning fun hc ↦ absurd hc hforced) fun _ u ⟨hu, _, hhalt⟩ ↦ ?_
    exact hfinish hu (hhalt.resolve_right fun hnone ↦ by cases hnone.1)
  | inr result =>
    cases result with
    | error error =>
      refine At.bind (onTransportError_at error hfit hrunning) fun _ u ⟨hu, hhalt, _⟩ ↦ ?_
      exact hfinish hu hhalt.halting
    | ok probe =>
      exact onProbe_at fuel probe hfit (by rw [hsame.1]; exact hstate) (hsame.2.1.trans hworkers)
        (hsame.2.2.trans hwriter) (by rw [hsame.1]; exact hprobe probe rfl)

/-- **A session that returns leaves its job at rest.** -/
theorem drive_at {job : Job} {connections : ℕ} {origin : OriginId} (fuel : ℕ) (hinv : job.Inv)
    (hspec : job.spec = spec) (hkept : Kept G job)
    (hstate : job.state = .queued ∨ job.state = .verifying ∨ job.state = .publishing)
    (hconnections : connections ≠ 0 ∧ connections ≤ c.config.connections)
    (hroom : G.excused (.domain .overflow) ∨ Room (cost fuel) job) :
    At G (start job connections origin) (drive c fuel) (Over c spec G.calm (started job)) := by
  have hfit : Fit G job (cost fuel) (start job connections origin) :=
    Fit.of_start hinv hspec hkept hstate hconnections hroom ⟨rfl, rfl, rfl⟩
  unfold drive
  refine At.get ?_
  rcases hstate with hs | hs | hs
  · have hexec : Job.execute job .start =
        .ok (true, { job with attempts := saturatingSucc job.attempts, state := .probing }) := by
      simp only [Job.execute, hs, Job.moved]
    have hj₀ : started job =
        { job with attempts := saturatingSucc job.attempts, state := .probing } := if_pos hs
    rw [hj₀]
    simp only [start, hs]
    refine At.step (s := start job connections origin) hkept hexec (by rintro ⟨⟩) fun _ version hkept' ↦ ?_
    refine probing_at (n := 0) fuel ?_ rfl rfl rfl
    rw [Nat.zero_add]
    have hinv' := (Job.execute_step hexec).inv hinv
    exact { hfit with
      inv := hinv'.setVersion version
      same := ⟨rfl, rfl, rfl⟩
      kept := hkept'
      held := hfit.held.moved rfl
      calm := fun hc ↦ ⟨(hfit.calm hc).1, (by rintro ⟨⟩), (by rintro ⟨⟩), (by rintro ⟨⟩)⟩
      retry := fun t ht ↦ by
        have hstopping := hinv.stop_iff.1 (by rw [show job.stop = _ from ht]; rfl)
        rw [hs] at hstopping
        cases hstopping }
  · have hj₀ : started job = job := if_neg (by simp [hs])
    rw [hj₀]
    simp only [start, hs]
    have hplanned := hinv.planned (Or.inr (by rw [hs]; rfl))
    refine At.bind (openPart_at hfit hplanned rfl (Or.inr (Or.inl hs))) ?_
    rintro _ t ⟨ht, ⟨hw, hjob, -⟩ | ⟨hw, ⟨htransfer, -⟩ | ⟨-, hneeds⟩⟩⟩
    · exact verify_at ht (by rw [hjob]; exact hs) hw
    · rw [show job.state = _ from htransfer] at hs
      cases hs
    · unfold verify
      refine At.get ?_
      rw [if_pos (by simp [hw])]
      exact At.get (At.pure ⟨ht.ended (Or.inl hneeds), rfl⟩)
  · have hj₀ : started job = job := if_neg (by simp [hs])
    rw [hj₀]
    simp only [start, hs]
    exact resumePublish_at hfit hs

/-- Closing a session leaves its job alone. -/
theorem close_ensures (s : Session) (w : σ) :
    Process.Ensures G.env (fun _ ↦ True)
      (fun r w' ↦ r.2.job = s.job ∧ (G.link s.job w → G.link s.job w')) w (close.run.run s) := by
  intro a w' hcall
  refine ⟨trivial, ?_⟩
  have hlink : G.link s.job w → G.link s.job w' := G.link_call _ a (by simp) hcall
  obtain ⟨source, origin, job, controlOpen, writer, workers⟩ := s
  cases writer with
  | false => exact ⟨rfl, hlink⟩
  | true =>
    exact fun a' w'' hcall' ↦ ⟨trivial, rfl, fun hw ↦ G.link_call _ a' (by simp) hcall' (hlink hw)⟩

end Session

open Session in
/-- **Every way a session can end.** Either its job rests, or the error is one that is excused. -/
theorem Coordinator.runWith_ensures {c : Coordinator} {spec : JobSpec} {σ : Type} {G : Ground c spec σ}
    {job : Job} {connections : ℕ} {origin : OriginId} {w : σ} (fuel : ℕ) (hinv : job.Inv)
    (hspec : job.spec = spec) (hkept : Kept G job)
    (hstate : job.state = .queued ∨ job.state = .verifying ∨ job.state = .publishing)
    (hconnections : connections ≠ 0 ∧ connections ≤ c.config.connections)
    (hroom : G.excused (.domain .overflow) ∨ Room (cost fuel) job) (hlink : G.link job w) :
    Process.Ensures G.env (fun _ ↦ True) (fun r w' ↦ r.1.id = job.id ∧
      match r.2 with
      | .ok ended => (Ended c spec G.calm (started job) r.1 ∧ ended.Reports r.1) ∧ G.link r.1 w'
      | .error e => G.excused e) w (c.runWith fuel job connections origin) := by
  unfold runWith
  rw [if_neg (by omega), if_neg (not_not.2 hstate)]
  refine (drive_at fuel hinv hspec hkept hstate hconnections hroom w hlink).bind fun r w' hr ↦ ?_
  obtain ⟨r, s⟩ := r
  refine (close_ensures (G := G) s w').bind fun r' w'' hr' ↦ ?_
  obtain ⟨r', s'⟩ := r'
  obtain ⟨hjob, hlink'⟩ := hr'
  cases r with
  | ok ended =>
    obtain ⟨⟨hover, hid⟩, hlinked⟩ := hr
    refine ⟨by rw [hjob]; exact hid, ?_⟩
    dsimp only
    rw [hjob]
    exact ⟨hover, hlink' hlinked⟩
  | error e => exact ⟨by rw [hjob]; exact hr.2, hr.1⟩

end Fhd
