import FhdEngine.Runtime.Leases

/-!
# Executing a session step by step

`At s x ψ`: from the session `s`, the routine `x` ends in a session that satisfies `ψ`, or with an error
that is excused. What surrounds the session is a `Ground`: an environment, the errors that are not the
session's own fault, and a relation `link` between the job in memory and the world, which only a commit
moves. Every rule takes the session as it stands, so a proof reads as an execution of the code.
-/

namespace Fhd

open Process (Prog Environment Ensures Post)

/-- The lease size the configuration asks for. -/
def CoordinatorConfig.leaseCap (c : CoordinatorConfig) : ℕ :=
  wrap64 (divCeil (max c.checkpointBytes c.minSegment) c.minSegment * c.minSegment)

/-- The sizes of the configuration fit the arithmetic that is done with them: neither twice the split
granularity nor the lease size comes out as zero. -/
def CoordinatorConfig.Fits (c : CoordinatorConfig) : Prop :=
  c.minSegment ≠ 2 ^ 63 ∧ c.leaseCap ≠ 0

/-- **What a session runs in.** Errors of others are excused; only a commit moves what is linked. -/
structure Ground (c : Coordinator) (spec : JobSpec) (σ : Type) where
  env : Environment σ Port Answer
  /-- Errors that are no fault of the session. -/
  excused : RunError → Prop
  /-- How the job in memory and the world belong together. -/
  link : Job → σ → Prop
  commit_error : ∀ {w w' event error}, env w (.job (.commitTransition event))
    (Except.error error : Except CommitError Unit) w' → excused (.commit error)
  commit_ok : ∀ {w w' event}, env w (.job (.commitTransition event))
    (Except.ok () : Except CommitError Unit) w' →
    excused (.domain .overflow) ∨ event.version ≤ i64Max ∧ event.outcome.generation.get ≤ i64Max
  extents_error : ∀ {w w' job generation extents error}, env w (.commitExtents job generation extents)
    (Except.error error : Except CommitError Unit) w' → excused (.commit error)
  intent_error : ∀ {w w' intent error}, env w (.recordPublishIntent intent)
    (Except.error error : Except CommitError Unit) w' → excused (.commit error)
  durable_error : ∀ {w w' job error}, env w (.durableExtents job)
    (Except.error error : Except AppError (List DurableExtent)) w' → excused .repository
  previous_error : ∀ {w w' job error}, env w (.publishIntent job)
    (Except.error error : Except AppError (Option PublishIntent)) w' → excused .repository
  resolve_error : ∀ {w w' destination error}, env w (.resolve destination)
    (Except.error error : Except AppError Path) w' → excused .repository
  parts_error : ∀ {w w' job destination error}, link job w →
    job.state = .transferring ∨ job.state = .verifying ∨ job.state = .publishing →
    env w (.job (.partsFor destination)) (Except.error error : Except AppError Path) w' →
    excused (.storage .invalidInput)
  obtain_panic : ∀ {w w' directory part extents}, env w (.obtainPart directory part extents)
    (none : Blocking Unit) w' → excused (.writer .workerFailed)
  inspect_panic : ∀ {w w' destination size}, env w (.inspect destination size)
    (none : Blocking (Option Occupant)) w' → excused (.writer .workerFailed)
  inspect_error : ∀ {w w' destination size error}, env w (.inspect destination size)
    (some (Except.error error) : Blocking (Option Occupant)) w' → excused (.storage error)
  start_error : ∀ {w w' capacity error}, env w (.startWriter capacity)
    (Except.error error : Except WriterError Unit) w' → excused (.writer error)
  probe_ok : ∀ {w w' job source controlOpen probe}, link job w → job.segments = none →
    env w (.awaitProbe source controlOpen)
      (ProbeEvent.probe (Except.ok probe) : ProbeEvent controlOpen) w' →
    excused (.domain .invalidInput) ∨ probe.total ≤ spec.maxBytes
  fits : excused (.domain .invalidInput) ∨ c.config.Fits
  /-- Nobody tells the session to stop. -/
  calm : Prop
  quiet : ∀ {w w' op} {a : Answer op}, calm → env w op a w' → brings op a = none
  link_commit : ∀ {w w' job command event}, link job w → job.decide command = .ok [event] →
    env w (.job (.commitTransition event)) (Except.ok () : Except CommitError Unit) w' →
    link (job.apply event).2 w'
  link_call : ∀ {w w' job} (op : Port) (a : Answer op), (∀ event, op ≠ .job (.commitTransition event)) →
    env w op a w' → link job w → link job w'
  link_segments : ∀ {w job} (m : SegmentMap), job.plan = some (m.total, m.maximum) → link job w →
    link { job with segments := some m } w

namespace Session

variable {c : Coordinator} {spec : JobSpec} {σ α β : Type} (G : Ground c spec σ)

/-- **From this session on.** However it ends, the job is the same one. -/
def At (s : Session) (x : SessionM α) (ψ : α → Session → Prop) : Prop :=
  ∀ w, G.link s.job w → Ensures G.env (fun _ ↦ True)
    (Post (fun a s' w' ↦ (ψ a s' ∧ s'.job.id = s.job.id) ∧ G.link s'.job w')
      fun e s' _ ↦ G.excused e ∧ s'.job.id = s.job.id) w (x.run.run s)

/-- The call was answered this way somewhere the job belongs to. -/
def Answered (job : Job) (op : Port) (a : Answer op) : Prop := ∃ w w', G.link job w ∧ G.env w op a w'

variable {G} {s : Session} {x : SessionM α} {f : α → SessionM β} {ψ : α → Session → Prop}
  {χ : β → Session → Prop}

/-- A call on the job, written out. -/
theorem domain_run (g : Job → Except DomainError α × Job) (s : Session) :
    (Session.domain g).run.run s =
      match g s.job with
      | (Except.ok a, job) => Prog.done (Except.ok a, { s with job })
      | (Except.error e, job) => Prog.done (Except.error (RunError.domain e), { s with job }) := rfl

namespace At

theorem pure {a : α} (h : ψ a s) : At G s (Pure.pure a) ψ := fun _ hw ↦ ⟨⟨h, rfl⟩, hw⟩

theorem throw {e : RunError} (h : G.excused e) : At G s (MonadExcept.throw e : SessionM α) ψ :=
  fun _ _ ↦ ⟨h, rfl⟩

theorem bind (hx : At G s x ψ) (hf : ∀ a s', ψ a s' → At G s' (f a) χ) :
    At G s (x >>= f) χ := by
  refine fun w hw ↦ Ensures.bind (hx w hw) fun r w' hr ↦ ?_
  obtain ⟨r, s'⟩ := r
  cases r with
  | ok a =>
    have hnext := hf a s' hr.1.1 w' hr.2
    rwa [hr.1.2] at hnext
  | error e => exact hr

theorem mono {ψ' : α → Session → Prop} (h : At G s x ψ) (hψ : ∀ a s', ψ a s' → ψ' a s') :
    At G s x ψ' := by
  refine fun w hw ↦ (h w hw).mono fun r w' hr ↦ ?_
  obtain ⟨r, s'⟩ := r
  cases r with
  | ok a => exact ⟨⟨hψ a s' hr.1.1, hr.1.2⟩, hr.2⟩
  | error e => exact hr

theorem map {g : α → β} (h : At G s x fun a s' ↦ χ (g a) s') : At G s (g <$> x) χ := by
  refine fun w hw ↦ Ensures.bind (h w hw) fun r w' hr ↦ ?_
  obtain ⟨r, s'⟩ := r
  cases r with
  | ok a => exact hr
  | error e => exact hr

theorem get {f : Session → SessionM β} (h : At G s (f s) χ) :
    At G s (MonadState.get >>= f) χ :=
  bind (ψ := fun a s' ↦ a = s ∧ s' = s) (fun _ hw ↦ ⟨⟨⟨rfl, rfl⟩, rfl⟩, hw⟩)
    fun a s' ⟨ha, hs'⟩ ↦ by rw [ha, hs']; exact h

theorem set {s' : Session} {f : PUnit → SessionM β} (hjob : s'.job = s.job)
    (h : At G s' (f ⟨⟩) χ) : At G s (MonadStateOf.set s' >>= f) χ :=
  bind (ψ := fun _ t ↦ t = s') (fun _ hw ↦ ⟨⟨rfl, by rw [hjob]⟩, by rw [hjob]; exact hw⟩)
    fun a t ht ↦ by rw [ht]; exact h

theorem change {g : Session → Session} {f : PUnit → SessionM β} (hjob : (g s).job = s.job)
    (h : At G (g s) (f ⟨⟩) χ) : At G s (modify g >>= f) χ :=
  bind (ψ := fun _ t ↦ t = g s) (fun _ hw ↦ ⟨⟨rfl, by rw [hjob]⟩, by rw [hjob]; exact hw⟩)
    fun a t ht ↦ by rw [ht]; exact h

/-- A change as the last thing a routine does. -/
theorem changed {g : Session → Session} {ψ : PUnit → Session → Prop} (hjob : (g s).job = s.job)
    (h : ψ ⟨⟩ (g s)) : At G s (modify g) ψ :=
  fun _ hw ↦ ⟨⟨h, congrArg Job.id hjob⟩, by rw [hjob]; exact hw⟩

/-- Any call but a commit. -/
theorem call {op : Port} {f : Answer op → SessionM β}
    (hop : ∀ event, op ≠ .job (.commitTransition event))
    (h : ∀ a, Answered G s.job op a → At G s (f a) χ) : At G s (Session.call op >>= f) χ := by
  refine bind (ψ := fun a s' ↦ Answered G s.job op a ∧ s' = s) ?_ fun a s' ⟨ha, hs'⟩ ↦ by
    rw [hs']
    exact h a ha
  exact fun w hw a w' hcall ↦
    ⟨trivial, ⟨⟨⟨w, w', hw, hcall⟩, rfl⟩, rfl⟩, G.link_call op a hop hcall hw⟩

/-- A call on the segments that is accepted. -/
theorem onJob {g : Job → Except DomainError α × Job} {a : α} {m : SegmentMap}
    {f : α → SessionM β} (hg : g s.job = (.ok a, { s.job with segments := some m }))
    (hplan : s.job.plan = some (m.total, m.maximum))
    (h : At G { s with job := { s.job with segments := some m } } (f a) χ) :
    At G s (Session.domain g >>= f) χ := by
  refine bind (ψ := fun b s' ↦ b = a ∧ s' = { s with job := { s.job with segments := some m } }) ?_
    fun b s' ⟨hb, hs'⟩ ↦ by
      rw [hb, hs']
      exact h
  intro w hw
  rw [domain_run, hg]
  exact ⟨⟨⟨rfl, rfl⟩, rfl⟩, G.link_segments m hplan hw⟩

/-- A new map under the same job. -/
theorem setMap {m : SegmentMap} {f : PUnit → SessionM β}
    (hplan : s.job.plan = some (m.total, m.maximum))
    (h : At G { s with job := { s.job with segments := some m } } (f ⟨⟩) χ) :
    At G s (MonadStateOf.set { s with job := { s.job with segments := some m } } >>= f) χ :=
  bind (ψ := fun _ t ↦ t = { s with job := { s.job with segments := some m } })
    (fun _ hw ↦ ⟨⟨rfl, rfl⟩, G.link_segments m hplan hw⟩) fun _ t ht ↦ by rw [ht]; exact h

/-- A call on the job that is refused, through no fault of the session. -/
theorem onJob_error {g : Job → Except DomainError α × Job} {e : DomainError} {m : SegmentMap}
    {f : α → SessionM β} (hg : g s.job = (.error e, { s.job with segments := some m }))
    (he : G.excused (.domain e)) :
    At G s (Session.domain g >>= f) χ := by
  refine bind (ψ := fun _ _ ↦ False) ?_ fun _ _ hfalse ↦ hfalse.elim
  intro w _
  rw [domain_run, hg]
  exact ⟨he, rfl⟩

/-- `map_err(error)?`. -/
theorem orElse {ε : Type} {result : Except ε α} {error : ε → RunError}
    (herror : ∀ e, result = .error e → G.excused (error e))
    (h : ∀ a, result = .ok a → At G s (f a) χ) : At G s (Session.orElse result error >>= f) χ := by
  cases result with
  | ok a => exact h a rfl
  | error e => exact fun _ _ ↦ ⟨herror e rfl, rfl⟩

/-- A command, with nothing left to do after it. -/
theorem last {x : SessionM α} (h : At G s (x >>= Pure.pure) ψ) : At G s x ψ := by
  have hx : (x >>= Pure.pure) = x := by
    funext t
    have hbind : ∀ p : Prog Port Answer (Except RunError α × Session),
        (p >>= fun r ↦ ((ExceptT.bindCont Pure.pure r.1 :
          StateT Session (Prog Port Answer) (Except RunError α)) r.2)) = p := by
      intro p
      induction p with
      | done r =>
        obtain ⟨r, t'⟩ := r
        cases r <;> rfl
      | call op next ih => exact congrArg (Prog.call op) (funext ih)
    exact hbind (x t)
  rwa [hx] at h

end At

end Session

/-! ### Moving the job -/

namespace Job

variable {j : Job} {command : JobCommand}

/-- An event that was just decided is applied, and does what the command does. -/
theorem apply_decided {event : JobEvent} (h : j.decide command = .ok [event]) :
    ∃ next, execute j command = .ok (true, next) ∧
      event = ⟨j.id, j.version + 1, j.state, next.state, j.generation, command, next.projection⟩ ∧
      j.apply event = (.ok (), { next with version := j.version + 1 }) := by
  obtain ⟨next, hexec, hle, rfl⟩ := decide_eq_ok h (List.mem_singleton_self event)
  have hadd : checkedAdd j.version 1 = some (j.version + 1) := checkedAdd_eq_some.2 ⟨hle, rfl⟩
  exact ⟨next, hexec, rfl, by simp [apply, hadd, hexec]⟩

theorem decide_of_execute_false {next : Job} (h : execute j command = .ok (false, next)) :
    j.decide command = .ok [] := by
  unfold decide
  rw [h]

theorem decide_of_execute_true {next : Job} (h : execute j command = .ok (true, next)) :
    j.decide command = .error .overflow ∧ u64Max < j.version + 1 ∨
      ∃ event, j.decide command = .ok [event] := by
  unfold decide
  rw [h]
  simp only
  split
  next hnone =>
    left
    refine ⟨rfl, ?_⟩
    unfold checkedAdd at hnone
    split at hnone
    · cases hnone
    · omega
  · exact Or.inr ⟨_, rfl⟩

end Job

namespace Session

variable {c : Coordinator} {spec : JobSpec} {σ β : Type} {G : Ground c spec σ} {s : Session}

/-- The counters a repository keeps have room for one more. -/
def Kept (G : Ground c spec σ) (job : Job) : Prop :=
  G.excused (.domain .overflow) ∨ job.version ≤ i64Max ∧ job.generation.get ≤ i64Max

/-- A command that is refused, through no fault of the session. -/
theorem At.step_error {command : JobCommand} {e : DomainError} {f : Unit → SessionM β}
    {χ : β → Session → Prop} (hexec : Job.execute s.job command = .error e)
    (he : G.excused (.domain e)) : At G s (Session.step command >>= f) χ := by
  have hrun : (Session.step command).run.run s =
      (Session.lift (stepJob s.job command) >>= fun r ↦ Prog.done (r.1, { s with job := r.2 })) := rfl
  have hdecide : s.job.decide command = .error e := by
    unfold Job.decide
    rw [hexec]
  refine At.bind (ψ := fun _ _ ↦ False) ?_ fun _ _ hfalse ↦ hfalse.elim
  intro w hw
  rw [hrun, stepJob, hdecide]
  exact ⟨he, rfl⟩

/-- The event that was committed applies. -/
theorem ensures_applied {ω γ : Type} {E : Environment ω Port Answer} {I : ω → Prop} {Q : γ → ω → Prop} {w : ω}
    {job next : Job} {event : JobEvent} (happly : job.apply event = (.ok (), next))
    {g : Except RunError Unit × Job → Prog Port Answer γ} (h : Ensures E I Q w (g (.ok (), next))) :
    Ensures E I Q w (Session.lift (match job.apply event with
      | (.error error, job') => Pure.pure (Except.error (RunError.domain error), job')
      | (.ok _, job') => commitAll job' []) >>= g) := by
  rw [happly]
  exact h

/-- **A command that is accepted** is committed and applied, or the commit is refused. -/
theorem At.step {command : JobCommand} {changed : Bool} {next : Job} {f : Unit → SessionM β}
    {χ : β → Session → Prop} (hkept : Kept G s.job)
    (hexec : Job.execute s.job command = .ok (changed, next))
    (hsame : changed = false → At G s (f ()) χ)
    (hmoved : changed = true → ∀ version, Kept G { next with version := version } →
      At G { s with job := { next with version := version } } (f ()) χ) :
    At G s (Session.step command >>= f) χ := by
  have hrun : (Session.step command).run.run s =
      (Session.lift (stepJob s.job command) >>= fun r ↦ Prog.done (r.1, { s with job := r.2 })) := rfl
  cases changed with
  | false =>
    refine At.bind (ψ := fun _ s' ↦ s' = s) ?_ fun _ s' hs' ↦ by
      rw [hs']
      exact hsame rfl
    intro w hw
    rw [hrun, stepJob, Job.decide_of_execute_false hexec]
    exact ⟨⟨rfl, rfl⟩, hw⟩
  | true =>
    rcases Job.decide_of_execute_true hexec with ⟨hover, hlt⟩ | ⟨event, hdecide⟩
    · refine At.bind (ψ := fun _ _ ↦ False) ?_ fun _ _ hfalse ↦ hfalse.elim
      intro w hw
      rw [hrun, stepJob, hover]
      rcases hkept with hok | ⟨hle, -⟩
      · exact ⟨hok, rfl⟩
      · unfold i64Max at hle
        unfold u64Max at hlt
        omega
    · obtain ⟨next', hexec', hevent, happly⟩ := Job.apply_decided hdecide
      obtain rfl : next = next' := by
        rw [hexec] at hexec'
        cases hexec'
        rfl
      refine At.bind (ψ := fun _ s' ↦ s' = { s with job := { next with version := s.job.version + 1 } } ∧
        Kept G { next with version := s.job.version + 1 }) ?_ fun _ s' hmove ↦ by
          rw [hmove.1]
          exact hmoved rfl _ hmove.2
      intro w hw
      rw [hrun, stepJob, hdecide]
      intro a w' hcall
      refine ⟨trivial, ?_⟩
      cases a with
      | error error => exact ⟨G.commit_error hcall, rfl⟩
      | ok _ =>
        have hlink := G.link_commit hw hdecide hcall
        rw [happly] at hlink
        have hcommit := G.commit_ok hcall
        rw [hevent] at hcommit
        refine ensures_applied happly ?_
        exact ⟨⟨⟨rfl, hcommit⟩, (Job.execute_step hexec).identity.1⟩, hlink⟩

end Session

end Fhd
