import FhdEngine.Domain.Retry
import FhdEngine.Library.Routine
import FhdEngine.Runtime.Ports

/-!
# One job session

`crates/runtime/src/coordinator.rs`. The coordinator alone owns the job: every transition is decided,
committed and then applied. Workers only fetch and hand buffers to the writer lane. A checkpoint is
prepare, sync, hash each range, commit the extents, acknowledge.

A session is a program over `Port` that changes a `Session` and may return early with a `RunError`;
what it had changed by then stays changed, as the job is handed back however the session ended. Loops
that end only when the world lets them (the transfer, the last look into the control channel) take
fuel, and one that runs out of it is still `pending`: it gets no answer, so nothing is ever concluded
from it. Telemetry is left out, as nothing in the session reads it.

Offsets are computed as a release build does, modulo `2 ^ 64`, where the code does not check them.
-/

namespace Fhd

open Process (Prog Routine)

/-- `MAX_BUFFER`. -/
def maxBuffer : ℕ := 256 * 1024

/-- `u64` arithmetic that is not checked. -/
def wrap64 (n : ℕ) : ℕ := n % 2 ^ 64

/-- `u64::div_ceil`. -/
def divCeil (a b : ℕ) : ℕ := (a + (b - 1)) / b

structure CoordinatorConfig where
  connections : ℕ
  maxSegments : ℕ
  /-- Split granularity; initial and stolen splits align to it. -/
  minSegment : ℕ
  /-- Written but unsynced bytes that trigger a checkpoint. -/
  checkpointBytes : ℕ
  writerCapacity : ℕ
  retry : RetryPolicy
  minSegment_le : minSegment ≤ u64Max
  checkpointBytes_le : checkpointBytes ≤ u64Max
deriving DecidableEq, Repr

def CoordinatorConfig.valid (c : CoordinatorConfig) : Bool :=
  (1 ≤ c.connections ∧ c.connections ≤ 16) ∧
    (c.connections ≤ c.maxSegments ∧ c.maxSegments ≤ 262144) ∧ c.minSegment > 0 ∧
    c.checkpointBytes > 0 ∧ (1 ≤ c.writerCapacity ∧ c.writerCapacity ≤ 256)

structure Coordinator where
  config : CoordinatorConfig
  /-- What the buffer pool holds. -/
  buffers : ℕ
  /-- Whether origin outcomes are reported to a governor. -/
  governed : Bool
  config_valid : config.valid
  buffers_le : config.connections * min maxBuffer buffers ≤ buffers

/-- `new` and `with_governor`. -/
def Coordinator.new (config : CoordinatorConfig) (buffers : ℕ) (governed : Bool) :
    Except RunError Coordinator :=
  if h : ¬config.valid ∨ buffers < config.connections * min maxBuffer buffers then
    .error .invalidConfig
  else .ok ⟨config, buffers, governed, by simpa using fun hv ↦ h (Or.inl hv), by omega⟩

structure Session where
  source : SourceRef
  origin : OriginId
  job : Job
  controlOpen : Bool
  /-- Whether the writer lane is open. -/
  writer : Bool
  /-- The network workers that run. -/
  workers : List ℕ
  leases : List (ℕ × Lease)
  /-- Whether the network workers were told to stop. -/
  stopWorkers : Bool
  unsynced : ℕ
  storageFailed : Bool
  connections : ℕ
  nextWorker : ℕ

/-- Changes the session, calls ports, and may return early. -/
abbrev SessionM := Routine RunError Session Port Answer

/-! ### Transitions -/

/-- Commits and applies decided events, in order. -/
def commitAll (job : Job) : List JobEvent → Prog JobPort JobAnswer (Except RunError Unit × Job)
  | [] => pure (.ok (), job)
  | event :: events => do
    let answer : Except CommitError Unit ← Prog.ask (JobPort.commitTransition event)
    match answer with
    | .error error => pure (.error (.commit error), job)
    | .ok _ =>
      match job.apply event with
      | (.error error, job') => pure (.error (.domain error), job')
      | (.ok _, job') => commitAll job' events

/-- **Decide, commit, apply**: the only way a job is ever moved. -/
def stepJob (job : Job) (command : JobCommand) : Prog JobPort JobAnswer (Except RunError Unit × Job) :=
  match job.decide command with
  | .error error => pure (.error (.domain error), job)
  | .ok events => commitAll job events

namespace Coordinator

/-- One command outside any session. -/
def command (job : Job) (command : JobCommand) : Prog JobPort JobAnswer (Except RunError Job) := do
  match ← stepJob job command with
  | (.error error, _) => pure (.error error)
  | (.ok _, job') => pure (.ok job')

/-- Drops a job's part where no lane is open. Whether that worked is only reported. -/
def dropPart (job : Job) : Prog JobPort JobAnswer Unit :=
  match job.plan with
  | none => pure ()
  | some (total, _) =>
    match PartSpec.new job.id job.generation total with
    | .error _ => pure ()
    | .ok spec => do
      let answer : Except AppError Path ← Prog.ask (JobPort.partsFor job.spec.destination)
      match answer with
      | .error _ => pure ()
      | .ok directory => do
        let _ ← Prog.ask (JobPort.dropPart directory spec)
        pure ()

/-- Settles a job restored after a crash: nothing is resumed implicitly. -/
def recover (job : Job) : Prog JobPort JobAnswer (Except RunError Job) :=
  match job.state with
  | .probing | .transferring | .verifying => do
    match ← command job .pause with
    | .error error => pure (.error error)
    | .ok job' => if job'.state = .stopping then command job' .workersDrained else pure (.ok job')
  | .stopping => command job .workersDrained
  | .cancelling => do
    dropPart job
    command job .cleanupFinished
  | _ => pure (.ok job)

end Coordinator

namespace Session

/-! ### The pieces of a session -/

/-- One call. -/
def call (op : Port) : SessionM (Answer op) := ExceptT.mk fun s ↦ .call op fun a ↦ .done (.ok a, s)

/-- A call on the job, with the error it may answer. -/
def domain {α : Type} (f : Job → Except DomainError α × Job) : SessionM α :=
  ExceptT.mk fun s ↦
    match f s.job with
    | (.ok a, job) => .done (.ok a, { s with job })
    | (.error e, job) => .done (.error (.domain e), { s with job })

/-- What moves a job is called from a session as anything else is. -/
def lift {α : Type} (p : Prog JobPort JobAnswer α) : Prog Port Answer α := p.embed .job fun _ a ↦ a

def step (command : JobCommand) : SessionM Unit := ExceptT.mk fun s ↦ do
  let (result, job) ← lift (stepJob s.job command)
  pure (result, { s with job })

/-- `map_err(error)?`. -/
def orElse {ε α : Type} (result : Except ε α) (error : ε → RunError) : SessionM α :=
  match result with
  | .ok a => pure a
  | .error e => throw (error e)

/-- Enters or raises stopping and stops the network workers. -/
def stopWith (command : JobCommand) : SessionM Unit := do
  let state := (← get).job.state
  if state = .probing ∨ state = .transferring ∨ state = .stopping then step command
  modify fun s ↦ { s with stopWorkers := true }

def onControl : Option Control → SessionM Unit
  | none => modify fun s ↦ { s with controlOpen := false }
  | some .pause => stopWith .pause
  | some .cancel => do
    step .cancel
    modify fun s ↦ { s with stopWorkers := true }

/-- The delay the retry policy is told the server asked for. -/
def asked (error : TransportError) (now : ℕ) : ErrorClass × Option ℕ :=
  match error with
  | .throttled retryAfterMs => (.throttled, retryAfterMs.map (saturatingAdd now))
  | _ => (.transient, none)

/-- `attempts().max(1)`. -/
def attempted (job : Job) : UInt8 := if job.attempts = 0 then 1 else job.attempts

/-- A transient failure: the governor is told, and the retry policy says what becomes of the job. -/
def retryOrAsk (c : Coordinator) (error : TransportError) : SessionM JobCommand := do
  let now : ℕ ← call .nowMs
  if c.governed then
    match error with
    | .throttled retryAfterMs => call (.note (← get).origin (.throttled retryAfterMs now))
    | _ => call (.note (← get).origin (.failed now))
  let (errorClass, deadline) := asked error now
  let jitter : ℕ ← call .jitter
  match c.config.retry.decide errorClass (attempted (← get).job) now deadline jitter with
  | .ok (.retryAt atTick) => pure (.retry atTick)
  | _ => pure (.requireAction .network)

def onTransportError (c : Coordinator) (error : TransportError) : SessionM Unit := do
  match error with
  | .representationChanged => stopWith .representationChanged
  | .userAction reason => stopWith (.requireAction reason)
  | .fatal reason => stopWith (.fail reason)
  | .transient | .throttled _ => stopWith (← retryOrAsk c error)

def onStorageFailure : SessionM Unit := do
  modify fun s ↦ { s with storageFailed := true }
  stopWith (.requireAction .storage)

/-- `leases.remove`. -/
def takeLease (worker : ℕ) : SessionM Lease := do
  let s ← get
  match s.leases.lookup worker with
  | none => throw .invariant
  | some lease =>
    set { s with leases := s.leases.filter (·.1 ≠ worker) }
    pure lease

def onOutcome (c : Coordinator) (lease : Lease) : Except Failure Unit → SessionM Unit
  | .ok _ => do
    domain (·.markWritten lease)
    modify fun s ↦ { s with unsynced := s.unsynced + lease.range.len }
  | .error failure => do
    domain (·.release lease)
    match failure with
    | .cancelled | .writer .cancelled => pure ()
    | .transport error => onTransportError c error
    | .writer _ => onStorageFailure
    | .panicked => stopWith (.fail .unknown)

/-- A worker was joined: its lease is settled one way or the other. -/
def onWorker (c : Coordinator) {workers : List ℕ} (done : WorkerDone workers) : SessionM Unit := do
  modify fun s ↦ { s with workers := s.workers.eraseIdx done.place }
  let lease ← takeLease (workers.get done.place)
  onOutcome c lease done.outcome

/-! ### Opening the part -/

/-- Creates the part, or reopens it and proves every durable extent by digest. -/
def openPart (c : Coordinator) : SessionM Unit := do
  let job := (← get).job
  match job.plan with
  | none => throw (.notRunnable job.state)
  | some (total, _) =>
    let spec ← orElse (PartSpec.new job.id job.generation total) .domain
    let extents ← orElse (← call (.durableExtents job.id)) fun _ ↦ .repository
    let directory ← orElse (← call (.job (.partsFor job.spec.destination))) fun _ ↦ .storage .invalidInput
    match ← call (.obtainPart directory spec extents) with
    | none => throw (.writer .workerFailed)
    | some (Except.ok _) =>
      orElse (← call (.startWriter c.config.writerCapacity)) .writer
      modify fun s ↦ { s with writer := true }
    | some (Except.error error) =>
      modify fun s ↦ { s with storageFailed := true }
      let command := JobCommand.requireAction (if error = .integrity then .integrity else .storage)
      let state := (← get).job.state
      if state = .verifying ∨ state = .publishing then step command else stopWith command

/-! ### Handing out work -/

/-- `split_pending`, where a full map is no error: `none`. -/
def splitPending (id : SegmentId) (at' : ℕ) : SessionM (Option SegmentId) := do
  let s ← get
  match s.job.splitPending id at' with
  | (.ok right, job) =>
    set { s with job }
    pure (some right)
  | (.error .capacity, job) =>
    set { s with job }
    pure none
  | (.error error, job) =>
    set { s with job }
    throw (.domain error)

/-- Cuts the rest of a fresh plan at multiples of `size`. -/
def splitFrom (total size : ℕ) : ℕ → SegmentId → ℕ → SessionM Unit
  | 0, _, _ => pure ()
  | fuel + 1, current, at' => do
    if at' < total then
      match ← splitPending current at' with
      | none => pure ()
      | some right => splitFrom total size fuel right (wrap64 (at' + size))

/-- A fresh single-segment plan is cut into aligned pieces, one per connection. -/
def initialSplit (c : Coordinator) : SessionM Unit := do
  let s ← get
  match s.job.segments with
  | none => pure ()
  | some map =>
    match map.segments with
    | [only] =>
      if only.state = .pending ∧ only.range.start = 0 then
        let total := only.range.stop
        let unit := c.config.minSegment
        let pieces := min (total / unit) s.connections
        if 2 ≤ pieces then
          let size := wrap64 (divCeil (divCeil total pieces) unit * unit)
          splitFrom total size total only.id size
    | _ => pure ()

/-- The segments nobody has taken. -/
def pendingSegments (job : Job) : List Segment :=
  (job.segments.elim [] SegmentMap.segments).filter (·.state = .pending)

/-- Leases at most one bounded piece. -/
def capLease (c : Coordinator) (id : SegmentId) : SessionM SegmentId := do
  let unit := c.config.minSegment
  let cap := wrap64 (divCeil (max c.config.checkpointBytes unit) unit * unit)
  let job := (← get).job
  match (job.segments.elim [] SegmentMap.segments).find? (·.id = id) with
  | none => pure id
  | some segment =>
    if segment.range.len > cap then
      let _ ← splitPending id (wrap64 (segment.range.start + cap))
    pure id

/-- The pending segment to lease next. While idle connections outnumber pending pieces, the largest
one is halved instead. -/
def nextPending (c : Coordinator) : SessionM (Option SegmentId) := do
  let s ← get
  let pending := pendingSegments s.job
  match pending.head?, maxByKey (·.range.len) pending with
  | some first, some largest =>
    let idle := s.connections - s.workers.length
    let unit := c.config.minSegment
    let range := largest.range
    let mid := wrap64 (range.start + wrap64 (divCeil (range.len / 2) unit * unit))
    if pending.length < idle ∧ range.len ≥ wrap64 (2 * unit) ∧ mid < range.stop then
      match ← splitPending largest.id mid with
      | some right => pure (some right)
      | none => some <$> capLease c first.id
    else some <$> capLease c first.id
  | _, _ => pure none

/-- One worker per idle connection, as long as something is pending. -/
def spawnUpTo (c : Coordinator) : ℕ → SessionM Unit
  | 0 => pure ()
  | idle + 1 => do
    if (← get).job.state = .transferring then
      match ← nextPending c with
      | none => pure ()
      | some id =>
        modify fun s ↦ { s with nextWorker := s.nextWorker + 1 }
        let worker := (← get).nextWorker
        let lease ← domain (·.leaseSegment id worker)
        if (← get).writer then
          call (.spawn worker lease (← get).job.validator)
          modify fun s ↦
            { s with workers := s.workers ++ [worker], leases := (worker, lease) :: s.leases }
          spawnUpTo c idle
        else throw (.writer .closed)

def spawnWorkers (c : Coordinator) : SessionM Unit := do
  let s ← get
  spawnUpTo c (s.connections - s.workers.length)

/-! ### Checkpoints -/

def hasUnsynced (job : Job) : Bool := job.segments.any SegmentMap.hasUnsynced

/-- Abandons the checkpoint after a storage failure. -/
def abandon : SessionM Unit := do
  domain Job.abandonCheckpoint
  onStorageFailure

/-- Hashes the ranges of a batch, in order; `none` after a failure. -/
def hashAll : List ByteRange → SessionM (Option (List DurableExtent))
  | [] => pure (some [])
  | range :: ranges => do
    match ← call (.hash range) with
    | Except.error _ =>
      abandon
      pure none
    | Except.ok digest =>
      match ← hashAll ranges with
      | none => pure none
      | some extents => pure (some (⟨range, digest⟩ :: extents))

/-- The repository refused the extents. -/
def refuse (error : CommitError) : SessionM Unit := do
  domain Job.abandonCheckpoint
  throw (.commit error)

/-- Idempotent: an ambiguous failure is retried with identical extents. -/
def commitExtents (batch : CommitBatch) (extents : List DurableExtent) : ℕ → SessionM Unit
  | 0 => do
    match ← call (.commitExtents batch.job batch.generation extents) with
    | Except.ok _ => pure ()
    | Except.error error => refuse error
  | retries + 1 => do
    match ← call (.commitExtents batch.job batch.generation extents) with
    | Except.ok _ => pure ()
    | Except.error .unavailable => commitExtents batch extents retries
    | Except.error error => refuse error

def checkpoint : SessionM Unit := do
  let s ← get
  if hasUnsynced s.job ∧ ¬s.storageFailed then
    if ¬s.writer then throw (.writer .closed)
    let ticket ← domain Job.prepareSync
    match ← call .sync with
    | Except.error _ => abandon
    | Except.ok _ =>
      let batch ← domain (·.acknowledgeSync ticket)
      match ← hashAll batch.ranges with
      | none => pure ()
      | some extents =>
        commitExtents batch extents 2
        domain (·.acknowledgeCommit batch)
        modify fun s ↦ { s with unsynced := 0 }

/-! ### The transfer loop -/

def transfer (c : Coordinator) : ℕ → SessionM Unit
  | 0 => do
    let never ← call .pending
    nomatch never
  | fuel + 1 => do
    spawnWorkers c
    let s ← get
    if s.workers.isEmpty then
      if s.job.state = .transferring then
        if hasUnsynced s.job then
          checkpoint
          transfer c fuel
        else if s.job.allDurable then
          step .allSegmentsDurable
          transfer c fuel
        -- nothing leasable and nothing running
        else throw .invariant
    else
      if s.job.state = .transferring ∧ s.unsynced ≥ c.config.checkpointBytes then checkpoint
      let s ← get
      match ← call (.awaitWorker s.workers s.controlOpen) with
      | .worker done =>
        onWorker c done
        transfer c fuel
      | .control _ message =>
        onControl message
        transfer c fuel

/-! ### Releasing the part -/

/-- The lane owns the file while it lives, so it must do the releasing. -/
def releasePart (abandon : Bool) : SessionM Unit := do
  let s ← get
  if s.writer then
    let _ ← call (.discard abandon)
  else
    ExceptT.mk fun s ↦ do
      lift (Coordinator.dropPart s.job)
      pure (.ok (), s)

/-! ### Publication -/

def publishBlocked (reason : StopReason) : SessionM SessionEnd := do
  let state := (← get).job.state
  if state = .publishing ∨ state = .verifying then step (.requireAction reason)
  return .settled (← get).job.state

/-- The committed extents, which verification is made against. -/
def committedRecord : SessionM (List (ByteRange × Digest)) := do
  let extents ← orElse (← call (.durableExtents (← get).job.id)) fun _ ↦ .repository
  return extents.map fun extent ↦ (extent.range, extent.digest)

def publishFile (destination : Path) : SessionM SessionEnd := do
  match ← call (.publish destination) with
  | Except.ok path =>
    step .publishCommitted
    releasePart false
    return .published path
  -- lost a race for the name, or an unrelated file appeared meanwhile
  | Except.error (.storage .conflict) => publishBlocked .destination
  | Except.error _ => publishBlocked .storage

/-- A handle reopened after a crash must prove the bytes again before any link. -/
def proveAgain (intent : PublishIntent) (destination : Path) : SessionM SessionEnd := do
  match ← call .sync with
  | Except.error _ => publishBlocked .storage
  | Except.ok _ =>
    let record ← committedRecord
    match ← call (.verify (← get).job.spec.expectedSha256 record) with
    | Except.ok digest =>
      if digest = intent.digest then publishFile destination else publishBlocked .integrity
    | Except.error (.storage .integrity) => publishBlocked .integrity
    | Except.error _ => publishBlocked .storage

def occupant (destination : Path) (expectedSize : ℕ) : SessionM (Option Occupant) := do
  match ← call (.inspect destination expectedSize) with
  | none => throw (.writer .workerFailed)
  | some result => orElse result .storage

def attemptPublish (c : Coordinator) (intent : PublishIntent) : SessionM SessionEnd := do
  let s ← get
  -- an intent of an older representation proves nothing about these bytes
  if intent.generation ≠ s.job.generation then publishBlocked .storage
  else
    let destination ← orElse (← call (.resolve s.job.spec.destination)) fun _ ↦ .repository
    match ← occupant destination intent.size with
    | some (.file size digest) =>
      -- our own bytes: the link was made before the crash
      if size = intent.size ∧ digest = intent.digest then
        step .publishCommitted
        releasePart true
        return .published destination
      else publishBlocked .destination
    | some _ => publishBlocked .destination
    | none =>
      if s.writer then publishFile destination
      else
        openPart c
        if (← get).writer then proveAgain intent destination
        else return .settled (← get).job.state

/-- Records the intent, then links without replacing. -/
def publish (c : Coordinator) (digest : Digest) : SessionM SessionEnd := do
  let job := (← get).job
  let size := job.plan.elim 0 (·.1)
  let previous ← orElse (← call (.publishIntent job.id)) fun _ ↦ .repository
  let attempt : UInt32 := previous.elim 1 fun intent ↦
    if intent.attempt = 4294967295 then intent.attempt else intent.attempt + 1
  let intent : PublishIntent := ⟨job.id, job.generation, attempt, size, digest⟩
  orElse (← call (.recordPublishIntent intent)) .commit
  step .verificationPassed
  attemptPublish c intent

/-- Restarted while publishing: the link may or may not have been made. -/
def resumePublish (c : Coordinator) : SessionM SessionEnd := do
  match ← orElse (← call (.publishIntent (← get).job.id)) fun _ ↦ .repository with
  | none =>
    step (.requireAction .storage)
    return .settled (← get).job.state
  | some intent => attemptPublish c intent

def verify (c : Coordinator) : SessionM SessionEnd := do
  if ¬(← get).writer then return .settled (← get).job.state
  else
    match ← call .sync with
    | Except.error _ =>
      step (.requireAction .storage)
      return .settled (← get).job.state
    | Except.ok _ =>
      let record ← committedRecord
      match ← call (.verify (← get).job.spec.expectedSha256 record) with
      | Except.ok digest => publish c digest
      | Except.error error =>
        step (.requireAction (if error = .storage .integrity then .integrity else .storage))
        return .settled (← get).job.state

/-! ### The end of a session -/

/-- Joins every worker; `left` is how many there are. -/
def joinAll (c : Coordinator) : ℕ → SessionM Unit
  | 0 => pure ()
  | left + 1 => do
    let workers := (← get).workers
    let done ← call (.joinWorker workers)
    onWorker c done
    joinAll c left

/-- The last look into the control channel. -/
def drainControls : ℕ → SessionM Unit
  | 0 => do
    let never ← call .pending
    nomatch never
  | fuel + 1 => do
    if (← get).controlOpen then
      match ← call .tryRecv with
      | some .cancel =>
        let state := (← get).job.state
        if state = .stopping ∨ state = .paused then step .cancel
        drainControls fuel
      | some .pause => drainControls fuel
      | none => pure ()

/-- What a stopping job still has to commit, or give up. -/
def settleUnsynced : SessionM Unit := do
  let s ← get
  if hasUnsynced s.job ∧ ¬s.job.replaceOnDrain then
    if s.storageFailed then domain Job.discardUnsynced
    else
      checkpoint
      if (← get).storageFailed then domain Job.discardUnsynced

def finish (c : Coordinator) (fuel : ℕ) : SessionM SessionEnd := do
  joinAll c (← get).workers.length
  drainControls fuel
  match (← get).job.state with
  | .stopping =>
    settleUnsynced
    step .workersDrained
  | .cancelling =>
    -- the part goes before the record does
    releasePart true
    step .cleanupFinished
  | _ => pure ()
  if (← get).job.state = .verifying then verify c else return .settled (← get).job.state

/-! ### The whole session -/

/-- The wait for the probe. A control channel that closes is not waited on again. -/
def awaitProbe : SessionM (Control ⊕ Except TransportError Probe) := do
  let s ← get
  match ← call (.awaitProbe s.source s.controlOpen) with
  | .probe result => pure (.inr result)
  | .control _ (some control) => pure (.inl control)
  | .control _ none =>
    modify fun s ↦ { s with controlOpen := false }
    match ← call (.awaitProbe s.source false) with
    | .probe result => pure (.inr result)

/-- Existing bytes resume only under the identical representation. -/
def changed (job : Job) (probe : Probe) : Bool :=
  job.plan.any fun plan ↦
    plan.1 ≠ probe.total ∨ probe.validator.isNone ∨ probe.validator ≠ job.validator

/-- From a good probe to the end of the session. -/
def onProbe (c : Coordinator) (fuel : ℕ) (probe : Probe) : SessionM SessionEnd := do
  if changed (← get).job probe then
    step .representationChanged
    finish c fuel
  else
    if c.governed then
      let now : ℕ ← call .nowMs
      call (.note (← get).origin (.succeeded now))
    if ¬probe.ranges then modify fun s ↦ { s with connections := 1 }
    let maxSegments := if probe.ranges then c.config.maxSegments else 1
    step (.probeSucceeded probe.total maxSegments probe.validator)
    openPart c
    if (← get).job.state ≠ .transferring then finish c fuel
    else
      initialSplit c
      transfer c fuel
      finish c fuel

def drive (c : Coordinator) (fuel : ℕ) : SessionM SessionEnd := do
  match (← get).job.state with
  | .publishing => resumePublish c
  | .verifying =>
    openPart c
    verify c
  | _ =>
    step .start
    match ← awaitProbe with
    | .inl control =>
      onControl (some control)
      finish c fuel
    | .inr (.error error) =>
      onTransportError c error
      finish c fuel
    | .inr (.ok probe) => onProbe c fuel probe

/-- Stops the workers and waits for the writer lane. -/
def close : SessionM Unit := do
  call .abortWorkers
  modify fun s ↦ { s with stopWorkers := true, workers := [], leases := [] }
  if (← get).writer then
    let _ ← call .shutdown
    modify fun s ↦ { s with writer := false }

def start (job : Job) (connections : ℕ) (origin : OriginId) : Session :=
  ⟨job.spec.source, origin, job, true, false, [], [], false, 0, false, connections, 0⟩

end Session

/-- **A session**: drives the job, closes everything, and hands the job back however it ended. -/
def Coordinator.runWith (c : Coordinator) (fuel : ℕ) (job : Job) (connections : ℕ)
    (origin : OriginId) : Prog Port Answer (Job × Except RunError SessionEnd) :=
  if connections = 0 ∨ connections > c.config.connections then pure (job, .error .invalidConfig)
  else if ¬(job.state = .queued ∨ job.state = .verifying ∨ job.state = .publishing) then
    pure (job, .error (.notRunnable job.state))
  else do
    let (result, s) ← (Session.drive c fuel).run.run (Session.start job connections origin)
    let (_, s) ← Session.close.run.run s
    pure (s.job, result)

end Fhd
