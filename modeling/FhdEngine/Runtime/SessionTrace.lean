import FhdEngine.Runtime.SessionRules

/-!
# What a session keeps along the record of its calls

A session may be given any answer to any call, and what it was given is `recorded`. `Keeps T X x` says of
a piece of a session that it keeps `T`, a relation between its job and the record, and that `X` is left of
it where the piece ends with an error.

A relation that plain calls and the allowed commands keep (`Steady`) is kept by every piece that issues no
other command, whatever that piece is for. So the pieces are gone through once, here.
-/

namespace Fhd

open Process (Prog Environment Ensures Returns Does Post)

/-- One call and its answer. -/
abbrev Called := (op : Port) × Answer op

/-- The newest call stands first. -/
def recorded : Environment (List Called) Port Answer := fun l op a l' ↦ l' = ⟨op, a⟩ :: l

/-- A call that neither commits a transition nor draws the jitter of a retry. -/
def Port.plain : Port → Bool
  | .jitter | .job (.commitTransition _) => false
  | _ => true

/-- What may hold between a job and a record. -/
abbrev OfRecord := Job → List Called → Prop

/-- A relation that plain calls, new segments and the allowed commands keep. -/
structure Steady (allowed : JobCommand → Prop) (T X : OfRecord) : Prop where
  excuse : ∀ {j l}, T j l → X j l
  segments : ∀ {j l} segments, T j l → T { j with segments := segments } l
  call : ∀ {j l} (op : Port) (a : Answer op), op.plain = true → T j l → T j (⟨op, a⟩ :: l)
  refused : ∀ {j l} (event : JobEvent) (error : CommitError), allowed event.command → T j l →
    X j (⟨.job (.commitTransition event), (Except.error error : Except CommitError Unit)⟩ :: l)
  moved : ∀ {j next l} (event : JobEvent), allowed event.command →
    Job.execute j event.command = .ok (true, next) → T j l →
    ∀ version, T { next with version := version }
      (⟨.job (.commitTransition event), (Except.ok () : Except CommitError Unit)⟩ :: l)

/-- A call on the map changes nothing but the map. -/
theorem Job.onMap_snd {α : Type} (j : Job) (f : SegmentMap → Except DomainError α × SegmentMap) :
    ∃ segments, (j.onMap f).2 = { j with segments := segments } := by
  unfold Job.onMap
  split
  · exact ⟨j.segments, rfl⟩
  · split
    · exact ⟨j.segments, rfl⟩
    · exact ⟨_, rfl⟩

namespace Session

variable {allowed : JobCommand → Prop} {T X : OfRecord} {α β : Type} {x : SessionM α}
  {f : α → SessionM β} {c : Coordinator}

/-- **A command** fails, changes nothing, or is handed to the repository as a transition. -/
theorem step_does {command : JobCommand} {s : Session} {l : List Called} (herror : X s.job l)
    (hsame : (∃ next, Job.execute s.job command = .ok (false, next)) → T s.job l)
    (hrefused : ∀ (event : JobEvent) (error : CommitError), event.command = command →
      X s.job (⟨.job (.commitTransition event), (Except.error error : Except CommitError Unit)⟩ :: l))
    (hmoved : ∀ (event : JobEvent) (next : Job) (version : ℕ), event.command = command →
      Job.execute s.job command = .ok (true, next) → T { next with version := version }
        (⟨.job (.commitTransition event), (Except.ok () : Except CommitError Unit)⟩ :: l)) :
    Does recorded (fun _ ↦ True) s l (step command) (fun _ s' l' ↦ T s'.job l')
      fun _ s' l' ↦ X s'.job l' := by
  show Ensures _ _ _ l (lift (stepJob s.job command) >>= fun r ↦ Prog.done (r.1, { s with job := r.2 }))
  cases hexec : Job.execute s.job command with
  | error e =>
    have hdecide : s.job.decide command = .error e := by rw [Job.decide, hexec]
    rw [stepJob, hdecide]
    exact herror
  | ok r =>
    obtain ⟨changed, next⟩ := r
    cases changed with
    | false =>
      rw [stepJob, Job.decide_of_execute_false hexec]
      exact hsame ⟨next, hexec⟩
    | true =>
      rcases Job.decide_of_execute_true hexec with ⟨hover, -⟩ | ⟨event, hdecide⟩
      · rw [stepJob, hover]
        exact herror
      obtain ⟨next', hexec', hevent, happly⟩ := Job.apply_decided hdecide
      rw [hexec] at hexec'
      cases hexec'
      have hcommand : event.command = command := by rw [hevent]
      rw [stepJob, hdecide]
      rintro a l' rfl
      refine ⟨trivial, ?_⟩
      cases a with
      | error error => exact hrefused event error hcommand
      | ok _ =>
        refine ensures_applied happly ?_
        exact hmoved event next _ hcommand hexec

/-- A call on the job changes its segments at most, and calls nothing. -/
theorem domain_does {g : Job → Except DomainError α × Job} {s : Session} {l : List Called}
    (hg : ∀ j, ∃ segments, (g j).2 = { j with segments := segments }) :
    Does recorded (fun _ ↦ True) s l (domain g)
      (fun _ s' l' ↦ (∃ segments, s'.job = { s.job with segments := segments }) ∧ l' = l)
      fun _ s' l' ↦ (∃ segments, s'.job = { s.job with segments := segments }) ∧ l' = l := by
  have hkept := hg s.job
  show Ensures _ _ _ l ((domain g).run.run s)
  rw [domain_run]
  generalize g s.job = r at hkept ⊢
  obtain ⟨r, job⟩ := r
  cases r with
  | ok a => exact ⟨hkept, rfl⟩
  | error e => exact ⟨hkept, rfl⟩

/-- From any session and record that are related by `T`, the piece leads to one related by `T'`. -/
def Leads (T T' X : OfRecord) (x : SessionM α) : Prop :=
  ∀ (s : Session) (l : List Called), T s.job l → Does recorded (fun _ ↦ True) s l x
    (fun _ s' l' ↦ T' s'.job l') fun _ s' l' ↦ X s'.job l'

/-- The piece keeps the relation. -/
abbrev Keeps (T X : OfRecord) (x : SessionM α) : Prop := Leads T T X x

namespace Leads

variable {T' T'' : OfRecord}

theorem bind (hx : Leads T T' X x) (hf : ∀ a, Leads T' T'' X (f a)) : Leads T T'' X (x >>= f) :=
  fun s l h ↦ (hx s l h).bind fun a s' l' h' ↦ hf a s' l' h'

theorem get {f : Session → SessionM β} (hf : ∀ s, Leads T T' X (f s)) :
    Leads T T' X (MonadState.get >>= f) := fun s l h ↦ hf s s l h

theorem start {T₀ : OfRecord} (hx : Leads T T' X x) (h : ∀ j l, T₀ j l → T j l) : Leads T₀ T' X x :=
  fun s l hT ↦ hx s l (h _ _ hT)

end Leads

namespace Keeps

theorem pure {a : α} : Keeps T X (Pure.pure a : SessionM α) := fun _ _ h ↦ h

theorem bind (hx : Keeps T X x) (hf : ∀ a, Keeps T X (f a)) : Keeps T X (x >>= f) := Leads.bind hx hf

theorem map {g : α → β} (hx : Keeps T X x) : Keeps T X (g <$> x) :=
  bind (f := fun a ↦ Pure.pure (g a)) hx fun _ ↦ pure

theorem get {f : Session → SessionM β} (hf : ∀ s, Keeps T X (f s)) :
    Keeps T X (MonadState.get >>= f) := Leads.get hf

theorem change {g : Session → Session} (hg : ∀ s, (g s).job = s.job) : Keeps T X (modify g) := by
  intro s l h
  show T (g s).job l
  rwa [hg]

end Keeps

end Session

namespace Steady

open Session

variable {allowed : JobCommand → Prop} {T X : OfRecord} {α β : Type} {x : SessionM α}
  {f : α → SessionM β} {c : Coordinator} (h : Steady allowed T X)
include h

theorem throw {e : RunError} : Keeps T X (MonadExcept.throw e : SessionM α) :=
  fun _ _ hT ↦ h.excuse hT

theorem orElse {ε : Type} {result : Except ε α} {error : ε → RunError} :
    Keeps T X (Session.orElse result error) := by
  cases result with
  | ok a => exact .pure
  | error e => exact h.throw

theorem ask (op : Port) (hop : op.plain = true) : Keeps T X (Session.call op) := by
  rintro s l hT a l' rfl
  exact ⟨trivial, h.call op a hop hT⟩

/-- A call on the job that leaves everything but its segments as it was. -/
theorem onJob {g : Job → Except DomainError α × Job}
    (hg : ∀ j, ∃ segments, (g j).2 = { j with segments := segments }) : Keeps T X (Session.domain g) := by
  refine fun s l hT ↦ (domain_does hg).mono ?_ ?_
  · rintro a s' l' ⟨⟨segments, hjob⟩, rfl⟩
    rw [hjob]
    exact h.segments segments hT
  · rintro e s' l' ⟨⟨segments, hjob⟩, rfl⟩
    rw [hjob]
    exact h.excuse (h.segments segments hT)

/-- **An allowed command.** -/
theorem step {command : JobCommand} (hc : allowed command) : Keeps T X (Session.step command) :=
  fun _ _ hT ↦ step_does (h.excuse hT) (fun _ ↦ hT) (fun event error he ↦ h.refused event error (he ▸ hc) hT)
    fun event _ version he hexec ↦ h.moved event (he ▸ hc) (he ▸ hexec) hT version

theorem stopWith {command : JobCommand} (hc : allowed command) : Keeps T X (Session.stopWith command) := by
  unfold Session.stopWith
  refine .get fun s ↦ ?_
  dsimp only
  split
  · exact .bind (h.step hc) fun _ ↦ .change fun _ ↦ rfl
  · exact .change fun _ ↦ rfl

/-! ### The pieces -/

theorem onControl {message : Option Control} (hpause : allowed .pause) (hcancel : allowed .cancel) :
    Keeps T X (Session.onControl message) := by
  cases message with
  | none => exact .change fun _ ↦ rfl
  | some control =>
    cases control with
    | pause => exact h.stopWith hpause
    | cancel => exact .bind (h.step hcancel) fun _ ↦ .change fun _ ↦ rfl

theorem onStorageFailure (hc : allowed (.requireAction .storage)) :
    Keeps T X Session.onStorageFailure :=
  .bind (.change fun _ ↦ rfl) fun _ ↦ h.stopWith hc

theorem openPart (hstorage : allowed (.requireAction .storage))
    (hintegrity : allowed (.requireAction .integrity)) : Keeps T X (Session.openPart c) := by
  unfold Session.openPart
  refine .get fun s ↦ ?_
  dsimp only
  split
  · exact h.throw
  refine .bind h.orElse fun spec ↦ .bind (h.ask _ rfl) fun extents ↦ .bind h.orElse fun extents ↦
    .bind (h.ask _ rfl) fun directory ↦ .bind h.orElse fun directory ↦
    .bind (h.ask _ rfl) fun answer ↦ ?_
  split
  · exact h.throw
  · exact .bind (h.ask _ rfl) fun started ↦ .bind h.orElse fun _ ↦ .change fun _ ↦ rfl
  next error =>
    have hcommand : allowed (.requireAction (if error = .integrity then .integrity else .storage)) := by
      split
      · exact hintegrity
      · exact hstorage
    refine .bind (.change fun _ ↦ rfl) fun _ ↦ .get fun s ↦ ?_
    split
    · exact h.step hcommand
    · exact h.stopWith hcommand

/-- A new map under the same job. -/
theorem splitPending (id : SegmentId) (at' : ℕ) : Keeps T X (Session.splitPending id at') := by
  intro s l hT
  obtain ⟨segments, hsegments⟩ : ∃ segments, (s.job.splitPending id at').2 =
      { s.job with segments := segments } := by
    unfold Job.splitPending
    split
    · exact ⟨s.job.segments, rfl⟩
    · exact Job.onMap_snd _ _
  have hkept := h.segments segments hT
  rw [← hsegments] at hkept
  unfold Session.splitPending
  refine Does.get ?_
  split
  next heq => rwa [heq] at hkept
  next heq => rwa [heq] at hkept
  next heq =>
    rw [heq] at hkept
    exact h.excuse hkept

theorem splitFrom (total size fuel : ℕ) (current : SegmentId) (at' : ℕ) :
    Keeps T X (Session.splitFrom total size fuel current at') := by
  induction fuel generalizing current at' with
  | zero => exact .pure
  | succ fuel ih =>
    rw [Session.splitFrom]
    split
    · refine .bind (h.splitPending _ _) fun right ↦ ?_
      split
      · exact .pure
      · exact ih _ _
    · exact .pure

theorem initialSplit : Keeps T X (Session.initialSplit c) := by
  unfold Session.initialSplit
  refine .get fun s ↦ ?_
  split
  · exact .pure
  split
  · dsimp only
    split
    · split
      · exact h.splitFrom _ _ _ _ _
      · exact .pure
    · exact .pure
  · exact .pure

theorem capLease (id : SegmentId) : Keeps T X (Session.capLease c id) := by
  unfold Session.capLease
  refine .get fun s ↦ ?_
  dsimp only
  split
  · exact .pure
  · split
    · exact .bind (h.splitPending _ _) fun _ ↦ .pure
    · exact .pure

theorem nextPending : Keeps T X (Session.nextPending c) := by
  unfold Session.nextPending
  refine .get fun s ↦ ?_
  dsimp only
  split
  · split
    · refine .bind (h.splitPending _ _) fun right ↦ ?_
      split
      · exact .pure
      · exact .map (h.capLease _)
    · exact .map (h.capLease _)
  · exact .pure

theorem spawnUpTo (idle : ℕ) : Keeps T X (Session.spawnUpTo c idle) := by
  induction idle with
  | zero => exact .pure
  | succ idle ih =>
    rw [Session.spawnUpTo]
    refine .get fun s ↦ ?_
    dsimp only
    split
    · refine .bind h.nextPending fun next ↦ ?_
      split
      · exact .pure
      next id =>
        refine .bind (.change fun _ ↦ rfl) fun _ ↦ .get fun s ↦ .bind (h.onJob fun j ↦ ?_) fun lease ↦
          .get fun s ↦ ?_
        · unfold Job.leaseSegment
          split
          · exact ⟨j.segments, rfl⟩
          · exact Job.onMap_snd _ _
        · split
          · exact .get fun s ↦ .bind (h.ask _ rfl) fun _ ↦ .bind (.change fun _ ↦ rfl) fun _ ↦ ih
          · exact h.throw
    · exact .pure

theorem spawnWorkers : Keeps T X (Session.spawnWorkers c) := .get fun _ ↦ h.spawnUpTo _

theorem abandon (hc : allowed (.requireAction .storage)) : Keeps T X Session.abandon :=
  .bind (h.onJob fun j ↦ Job.onMap_snd j _) fun _ ↦ h.onStorageFailure hc

theorem hashAll (hc : allowed (.requireAction .storage)) (ranges : List ByteRange) :
    Keeps T X (Session.hashAll ranges) := by
  induction ranges with
  | nil => exact .pure
  | cons range ranges ih =>
    rw [Session.hashAll]
    refine .bind (h.ask _ rfl) fun answer ↦ ?_
    split
    · exact .bind (h.abandon hc) fun _ ↦ .pure
    · refine .bind ih fun rest ↦ ?_
      split
      · exact .pure
      · exact .pure

theorem refuse (error : CommitError) : Keeps T X (Session.refuse error) :=
  .bind (h.onJob fun j ↦ Job.onMap_snd j _) fun _ ↦ h.throw

theorem commitExtents (batch : CommitBatch) (extents : List DurableExtent) (retries : ℕ) :
    Keeps T X (Session.commitExtents batch extents retries) := by
  induction retries with
  | zero =>
    rw [Session.commitExtents]
    refine .bind (h.ask _ rfl) fun answer ↦ ?_
    split
    · exact .pure
    · exact h.refuse _
  | succ retries ih =>
    rw [Session.commitExtents]
    refine .bind (h.ask _ rfl) fun answer ↦ ?_
    split
    · exact .pure
    · exact ih
    · exact h.refuse _

/-- A checkpoint, once it is known that there is a writer. -/
theorem checkpointOpen (hc : allowed (.requireAction .storage)) : Keeps T X (do
    let ticket ← Session.domain Job.prepareSync
    match ← Session.call .sync with
    | Except.error _ => Session.abandon
    | Except.ok _ =>
      let batch ← Session.domain (·.acknowledgeSync ticket)
      match ← Session.hashAll batch.ranges with
      | none => pure ()
      | some extents =>
        Session.commitExtents batch extents 2
        Session.domain (·.acknowledgeCommit batch)
        modify fun s ↦ { s with unsynced := 0 }) := by
  refine .bind (h.onJob fun j ↦ Job.onMap_snd j _) fun ticket ↦ .bind (h.ask _ rfl) fun answer ↦ ?_
  split
  · exact h.abandon hc
  · refine .bind (h.onJob fun j ↦ Job.onMap_snd j _) fun batch ↦ .bind (h.hashAll hc _) fun extents ↦ ?_
    split
    · exact .pure
    · exact .bind (h.commitExtents _ _ _) fun _ ↦ .bind (h.onJob fun j ↦ Job.onMap_snd j _) fun _ ↦
        .change fun _ ↦ rfl

theorem checkpoint (hc : allowed (.requireAction .storage)) : Keeps T X Session.checkpoint := by
  unfold Session.checkpoint
  refine .get fun s ↦ ?_
  split
  · dsimp only
    split
    · exact .bind h.throw fun _ ↦ h.checkpointOpen hc
    · exact h.checkpointOpen hc
  · exact .pure

/-- What drops a part where no lane is open calls nothing but plain calls. -/
theorem releasePart (abandon : Bool) : Keeps T X (Session.releasePart abandon) := by
  unfold Session.releasePart
  refine .get fun s ↦ ?_
  split
  · exact .bind (h.ask _ rfl) fun _ ↦ .pure
  · intro s l hT
    show Ensures _ _ _ l (Session.lift (Coordinator.dropPart s.job) >>= fun _ ↦ Prog.done (Except.ok (), s))
    unfold Coordinator.dropPart
    split
    · exact hT
    split
    · exact hT
    rintro a l' rfl
    refine ⟨trivial, ?_⟩
    have hask := h.call (.job _) a rfl hT
    cases a with
    | error error => exact hask
    | ok directory =>
      rintro b l' rfl
      exact ⟨trivial, h.call (.job _) b rfl hask⟩

theorem drainControls (hc : allowed .cancel) (fuel : ℕ) : Keeps T X (Session.drainControls fuel) := by
  induction fuel with
  | zero =>
    rw [Session.drainControls]
    exact .bind (h.ask _ rfl) fun never ↦ nomatch never
  | succ fuel ih =>
    rw [Session.drainControls]
    refine .get fun s ↦ ?_
    dsimp only
    split
    · refine .bind (h.ask _ rfl) fun message ↦ ?_
      split
      · refine .get fun s ↦ ?_
        split
        · exact .bind (h.step hc) fun _ ↦ ih
        · exact ih
      · exact ih
      · exact .pure
    · exact .pure

theorem settleUnsynced (hc : allowed (.requireAction .storage)) : Keeps T X Session.settleUnsynced := by
  have hdiscard : Keeps T X (Session.domain Job.discardUnsynced) := h.onJob fun j ↦ by
    unfold Job.discardUnsynced
    split
    · exact ⟨j.segments, rfl⟩
    · exact Job.onMap_snd _ _
  unfold Session.settleUnsynced
  refine .get fun s ↦ ?_
  split
  · split
    · exact hdiscard
    · refine .bind (h.checkpoint hc) fun _ ↦ .get fun s ↦ ?_
      split
      · exact hdiscard
      · exact .pure
  · exact .pure

theorem awaitProbe : Keeps T X Session.awaitProbe := by
  unfold Session.awaitProbe
  refine .get fun s ↦ .bind (h.ask _ rfl) fun event ↦ ?_
  split
  · exact .pure
  · exact .pure
  · refine .bind (.change fun _ ↦ rfl) fun _ ↦ .bind (h.ask _ rfl) fun event ↦ ?_
    split
    exact .pure

/-! ### Publication -/

section Publication

variable (hrequire : ∀ reason, allowed (.requireAction reason))
include hrequire

theorem publishBlocked (reason : StopReason) : Keeps T X (Session.publishBlocked reason) := by
  unfold Session.publishBlocked
  refine .get fun s ↦ ?_
  dsimp only
  split
  · exact .bind (h.step (hrequire reason)) fun _ ↦ .get fun _ ↦ .pure
  · exact .get fun _ ↦ .pure

omit hrequire in
theorem committedRecord : Keeps T X Session.committedRecord :=
  .get fun _ ↦ .bind (h.ask _ rfl) fun _ ↦ .bind h.orElse fun _ ↦ .pure

variable (hcommitted : allowed .publishCommitted)
include hcommitted

theorem publishFile (destination : Path) : Keeps T X (Session.publishFile destination) := by
  unfold Session.publishFile
  refine .bind (h.ask _ rfl) fun answer ↦ ?_
  split
  · exact .bind (h.step hcommitted) fun _ ↦ .bind (h.releasePart _) fun _ ↦ .pure
  · exact h.publishBlocked hrequire _
  · exact h.publishBlocked hrequire _

theorem proveAgain (intent : PublishIntent) (destination : Path) :
    Keeps T X (Session.proveAgain intent destination) := by
  unfold Session.proveAgain
  refine .bind (h.ask _ rfl) fun answer ↦ ?_
  split
  · exact h.publishBlocked hrequire _
  · refine .bind h.committedRecord fun record ↦ .get fun s ↦ .bind (h.ask _ rfl) fun answer ↦ ?_
    split
    · split
      · exact h.publishFile hrequire hcommitted _
      · exact h.publishBlocked hrequire _
    · exact h.publishBlocked hrequire _
    · exact h.publishBlocked hrequire _

omit hrequire hcommitted in
theorem occupant (destination : Path) (expectedSize : ℕ) :
    Keeps T X (Session.occupant destination expectedSize) := by
  unfold Session.occupant
  refine .bind (h.ask _ rfl) fun answer ↦ ?_
  split
  · exact h.throw
  · exact h.orElse

theorem attemptPublish (intent : PublishIntent) : Keeps T X (Session.attemptPublish c intent) := by
  unfold Session.attemptPublish
  refine .get fun s ↦ ?_
  split
  · exact h.publishBlocked hrequire _
  · refine .bind (h.ask _ rfl) fun answer ↦ .bind h.orElse fun destination ↦
      .bind (h.occupant _ _) fun found ↦ ?_
    split
    · split
      · exact .bind (h.step hcommitted) fun _ ↦ .bind (h.releasePart _) fun _ ↦ .pure
      · exact h.publishBlocked hrequire _
    · exact h.publishBlocked hrequire _
    · split
      · exact h.publishFile hrequire hcommitted _
      · refine .bind (h.openPart (hrequire _) (hrequire _)) fun _ ↦ .get fun s ↦ ?_
        split
        · exact h.proveAgain hrequire hcommitted _ _
        · exact .get fun _ ↦ .pure

theorem resumePublish : Keeps T X (Session.resumePublish c) := by
  unfold Session.resumePublish
  refine .get fun s ↦ .bind (h.ask _ rfl) fun answer ↦ .bind h.orElse fun intent ↦ ?_
  split
  · exact .bind (h.step (hrequire _)) fun _ ↦ .get fun _ ↦ .pure
  · exact h.attemptPublish hrequire hcommitted _

variable (hpassed : allowed .verificationPassed)
include hpassed

theorem publish (digest : Digest) : Keeps T X (Session.publish c digest) := by
  unfold Session.publish
  exact .get fun s ↦ .bind (h.ask _ rfl) fun answer ↦ .bind h.orElse fun previous ↦
    .bind (h.ask _ rfl) fun answer ↦ .bind h.orElse fun _ ↦ .bind (h.step hpassed) fun _ ↦
    h.attemptPublish hrequire hcommitted _

theorem verify : Keeps T X (Session.verify c) := by
  unfold Session.verify
  refine .get fun s ↦ ?_
  split
  · exact .get fun _ ↦ .pure
  · refine .bind (h.ask _ rfl) fun answer ↦ ?_
    split
    · exact .bind (h.step (hrequire _)) fun _ ↦ .get fun _ ↦ .pure
    · refine .bind h.committedRecord fun record ↦ .get fun s ↦ .bind (h.ask _ rfl) fun answer ↦ ?_
      split
      · exact h.publish hrequire hcommitted hpassed _
      · exact .bind (h.step (hrequire _)) fun _ ↦ .get fun _ ↦ .pure

end Publication

end Steady

end Fhd
