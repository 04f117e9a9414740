import FhdEngine.Domain.Segments

/-!
# The job

`crates/domain/src/job.rs`: the state machine of one download, with thirteen states and seventeen
commands, and the segment map it owns while it transfers.

A command is first **decided** (`decide`), which yields the event a repository persists, and the event
is then **applied** (`apply`), which replays the command and refuses an event whose recorded outcome
no longer matches. Both run `execute` on a copy, so `execute` returns the changed copy only when it
accepts: what the source had written before an error is dropped with the copy.

`Step` lists the shapes of change an accepted command can make, and `execute_step` is the inversion
lemma: the invariant of the job and everything the repository relies on are proved from it, so that
the forty arms of `execute` are analysed once.
-/

namespace Fhd

inductive JobState
  | queued
  | probing
  | transferring
  /-- Sole exit from probing and transferring other than completion. -/
  | stopping
  | paused
  | retryWait
  | needsAction
  | verifying
  | publishing
  | cancelling
  /-- Not terminal: resuming starts a fresh attempt. -/
  | failed
  | completed
  | cancelled
deriving DecidableEq, Repr

inductive StopReason
  | sourceChanged
  | authentication
  | storage
  | integrity
  | network
  | policy
  | unknown
  /-- Something else already occupies the destination name. -/
  | destination
deriving DecidableEq, Repr

/-- Where a stopping job lands once workers, writer lanes and checkpoints drain. -/
inductive StopTarget
  | verifying
  | queued
  | paused
  | retryWait (atTick : ℕ)
  | needsAction (reason : StopReason)
  | failed (reason : StopReason)
deriving DecidableEq, Repr

namespace StopTarget

def rank : StopTarget → ℕ
  | verifying => 0
  | queued => 1
  | paused => 2
  | retryWait _ => 3
  | needsAction _ => 4
  | failed _ => 5

/-- Concurrent causes never lower severity; the first reason of a rank wins. -/
def raise (self other : StopTarget) : StopTarget :=
  match self, other with
  | retryWait a, retryWait b => retryWait (max a b)
  | _, _ => if other.rank > self.rank then other else self

end StopTarget

inductive JobCommand
  | start
  | probeSucceeded (total maxSegments : ℕ) (validator : Option Digest)
  | pause
  | resume
  | cancel
  | preempt
  | allSegmentsDurable
  | retry (atTick : ℕ)
  | requireAction (reason : StopReason)
  | fail (reason : StopReason)
  | representationChanged
  | workersDrained
  | retryDue (nowTick : ℕ)
  | verificationPassed
  | publishCommitted
  | cleanupFinished
  | replaceRepresentation
deriving DecidableEq, Repr

/-- The one command that carries a plan. -/
def JobCommand.probes : JobCommand → Bool
  | .probeSucceeded _ _ _ => true
  | _ => false

theorem JobCommand.probes_cases (command : JobCommand) : command.probes = false ∨
    ∃ total maxSegments validator, command = .probeSucceeded total maxSegments validator := by
  cases command with
  | probeSucceeded total maxSegments validator => exact Or.inr ⟨total, maxSegments, validator, rfl⟩
  | _ => exact Or.inl rfl

/-- Everything an event decides, so a repository persists it and `apply` can reject drift. -/
structure JobProjection where
  state : JobState
  generation : Generation
  reason : Option StopReason
  retryAt : Option ℕ
  stop : Option StopTarget
  replaceOnDrain : Bool
  attempts : UInt8
  durableBytes : ℕ
  validator : Option Digest
deriving DecidableEq, Repr

/-- A decided event; `fromState` and `toState` are the source's `from` and `to`. -/
structure JobEvent where
  job : JobId
  version : ℕ
  fromState : JobState
  toState : JobState
  generation : Generation
  command : JobCommand
  outcome : JobProjection
deriving DecidableEq, Repr

/-- A job as a repository persists it. Only durable ranges survive. -/
structure JobRecord where
  id : JobId
  spec : JobSpec
  version : ℕ
  state : JobState
  generation : Generation
  reason : Option StopReason
  retryAt : Option ℕ
  stop : Option StopTarget
  replaceOnDrain : Bool
  attempts : UInt8
  plan : Option (ℕ × ℕ)
  validator : Option Digest
  durable : List ByteRange
deriving DecidableEq, Repr

structure Job where
  id : JobId
  spec : JobSpec
  state : JobState
  generation : Generation
  version : ℕ
  reason : Option StopReason
  retryAt : Option ℕ
  stop : Option StopTarget
  replaceOnDrain : Bool
  attempts : UInt8
  validator : Option Digest
  segments : Option SegmentMap
deriving DecidableEq, Repr

/-- `u8::saturating_add(1)`. -/
def saturatingSucc (n : UInt8) : UInt8 := if n = 255 then 255 else n + 1

namespace Job

def new (id : JobId) (spec : JobSpec) : Job :=
  ⟨id, spec, .queued, Generation.initial, 0, none, none, none, false, 0, none, none⟩

/-- The cross-field rules `restore` checks before it rebuilds the map. -/
def consistent (r : JobRecord) : Bool :=
  (r.stop.isSome ↔ r.state = .stopping) ∧
  (¬r.replaceOnDrain ∨ r.state = .stopping) ∧
  (r.retryAt.isSome ↔ r.state = .retryWait) ∧
  (r.reason.isSome ∨ ¬(r.state = .needsAction ∨ r.state = .failed)) ∧
  (r.plan.isSome ∨ ¬(r.state = .transferring ∨ r.state = .verifying ∨ r.state = .publishing ∨
    r.state = .completed)) ∧
  (r.plan.isSome ∨ (r.durable.isEmpty ∧ r.validator.isNone)) ∧
  (r.plan.all fun plan ↦ plan.1 ≤ r.spec.maxBytes)

/-- The map a record describes, if it has a plan. -/
def restoreSegments (r : JobRecord) : Except DomainError (Option SegmentMap) :=
  match r.plan with
  | none => .ok none
  | some (total, maximum) =>
    match SegmentMap.restore r.id r.generation total maximum r.durable with
    | .error e => .error e
    | .ok map => .ok (some map)

/-- Rebuilds a persisted job exactly, without leases or uncommitted bytes. -/
def restore (r : JobRecord) : Except DomainError Job :=
  if ¬consistent r then .error .invalidInput
  else
    match restoreSegments r with
    | .error e => .error e
    | .ok segments =>
      if (r.state = .verifying ∨ r.state = .publishing ∨ r.state = .completed) ∧
          ¬segments.any SegmentMap.allDurable then .error .invalidInput
      else
        .ok ⟨r.id, r.spec, r.state, r.generation, r.version, r.reason, r.retryAt, r.stop,
          r.replaceOnDrain, r.attempts, r.validator, segments⟩

/-- The total and the segment maximum a repository needs to rebuild the map. -/
def plan (j : Job) : Option (ℕ × ℕ) := j.segments.map fun m ↦ (m.total, m.maximum)

def projection (j : Job) : JobProjection :=
  ⟨j.state, j.generation, j.reason, j.retryAt, j.stop, j.replaceOnDrain, j.attempts,
    j.segments.elim 0 SegmentMap.durableBytes, j.validator⟩

def hasActiveLeases (j : Job) : Bool :=
  j.segments.any fun m ↦ m.segments.any (·.state.isInFlight)

def quiescent (j : Job) : Bool :=
  !j.hasActiveLeases && !j.segments.any SegmentMap.hasPendingCheckpoint

/-- The storage adapter may delete part files only once this holds. -/
def cleanupReady (j : Job) : Bool := j.state = .cancelling && j.quiescent

/-- States from which the repository may delete the job record. -/
def removable (j : Job) : Bool :=
  match j.state with
  | .queued | .paused | .retryWait | .needsAction | .failed | .completed | .cancelled => true
  | _ => false

/-- Quiescent and every written byte committed, unless the generation is being replaced. -/
def settled (j : Job) : Bool :=
  j.quiescent && (j.replaceOnDrain || !j.segments.any SegmentMap.hasUnsynced)

def allDurable (j : Job) : Bool := j.segments.any SegmentMap.allDurable

/-! ### Commands -/

/-- The end of `execute`: the accepted copy moves to its next state. -/
def moved (j : Job) (state : JobState) : Except DomainError (Bool × Job) :=
  .ok (true, { j with state := state })

def beginStop (j : Job) (target : StopTarget) : Except DomainError (Bool × Job) :=
  moved { j with stop := some target } .stopping

/-- The cause a command adds to a job that is already stopping. -/
def cause : JobCommand → Option StopTarget
  | .pause => some .paused
  | .preempt => some .queued
  | .retry atTick => some (.retryWait atTick)
  | .requireAction reason => some (.needsAction reason)
  | .fail reason => some (.failed reason)
  | _ => none

/-- Where a drained job lands. -/
def land (j : Job) (target : StopTarget) : Job :=
  match target with
  | .verifying => if j.allDurable then { j with state := .verifying } else { j with state := .paused }
  | .paused => { j with state := .paused }
  | .queued => { j with state := .queued }
  | .retryWait atTick => { j with retryAt := some atTick, state := .retryWait }
  | .needsAction reason => { j with reason := some reason, state := .needsAction }
  | .failed reason => { j with reason := some reason, state := .failed }

/-- Landing touches the state and the field that belongs to it. -/
theorem land_segments (j : Job) (target : StopTarget) : (land j target).segments = j.segments := by
  unfold land
  split
  · split <;> rfl
  all_goals rfl

/-- Resuming goes straight to verification when nothing is missing. -/
def resumed (j : Job) : JobState := if j.allDurable then .verifying else .queued

/-- The arm for the end of a probe. -/
def probed (j : Job) (total maxSegments : ℕ) (validator : Option Digest) :
    Except DomainError (Bool × Job) :=
  if total > j.spec.maxBytes ∨ ¬(1 ≤ maxSegments ∧ maxSegments ≤ Fhd.maxSegments) then
    .error .invalidInput
  else
    match j.segments with
    | some map =>
      -- existing bytes belong to one representation only
      if map.total ≠ total ∨ map.generation ≠ j.generation ∨ validator.isNone ∨
          validator ≠ j.validator then .error .invalidInput
      else moved j .transferring
    | none =>
      match SegmentMap.new j.id j.generation total maxSegments with
      | .error e => .error e
      | .ok map => moved { j with validator := validator, segments := some map } .transferring

/-- The arm for the end of a drain. -/
def drained (j : Job) : Except DomainError (Bool × Job) :=
  if ¬j.settled then .error .incomplete
  else
    match j.stop with
    | none => .error .invalidTransition
    | some target =>
      if j.replaceOnDrain then
        match j.generation.next with
        | .error e => .error e
        | .ok next =>
          .ok (true, land
            { j with
              stop := none, replaceOnDrain := false, generation := next, segments := none
              validator := none } target)
      else .ok (true, land { j with stop := none } target)

/-- The arm for one more cause on a job that is already stopping. -/
def raised (j : Job) (command : JobCommand) : Except DomainError (Bool × Job) :=
  match cause command with
  | none => .error .invalidTransition
  | some cause =>
    match j.stop with
    | none => .error .invalidTransition
    | some current =>
      if current.raise cause = current then .ok (false, j)
      else moved { j with stop := some (current.raise cause) } .stopping

/-- An accepted no-op answers `false` and leaves the job as it was. -/
def execute (j : Job) (command : JobCommand) : Except DomainError (Bool × Job) :=
  match j.state, command with
  | .queued, .start => moved { j with attempts := saturatingSucc j.attempts } .probing
  | .probing, .probeSucceeded total maxSegments validator => probed j total maxSegments validator
  | .probing, .pause | .transferring, .pause => beginStop j .paused
  | .probing, .preempt | .transferring, .preempt => beginStop j .queued
  | .probing, .retry atTick | .transferring, .retry atTick => beginStop j (.retryWait atTick)
  | .probing, .requireAction reason | .transferring, .requireAction reason =>
    beginStop j (.needsAction reason)
  | .probing, .fail reason | .transferring, .fail reason => beginStop j (.failed reason)
  | .probing, .representationChanged | .transferring, .representationChanged =>
    beginStop { j with replaceOnDrain := true } .queued
  | .transferring, .allSegmentsDurable =>
    if ¬j.allDurable then .error .incomplete else beginStop j .verifying
  | .stopping, .resume =>
    if j.stop ≠ some .paused then .ok (false, j)
    else
      moved
        { j with
          stop := some (if j.allDurable ∧ ¬j.replaceOnDrain then .verifying else .queued)
          attempts := 0 } .stopping
  | .stopping, .representationChanged =>
    if j.replaceOnDrain then .ok (false, j)
    else
      match j.stop with
      | none => .error .invalidTransition
      | some current =>
        moved { j with replaceOnDrain := true, stop := some (current.raise .queued) } .stopping
  | .stopping, .pause | .stopping, .preempt | .stopping, .retry _ | .stopping, .requireAction _
  | .stopping, .fail _ => raised j command
  | .stopping, .workersDrained => drained j
  | .queued, .pause | .verifying, .pause => moved j .paused
  | .retryWait, .pause => moved { j with retryAt := none } .paused
  | .paused, .pause | .needsAction, .pause | .failed, .pause | .cancelling, .pause => .ok (false, j)
  | .paused, .resume => moved { j with attempts := 0 } j.resumed
  | .retryWait, .resume => moved { j with retryAt := none, attempts := 0 } .queued
  | .needsAction, .resume =>
    if j.reason = some .sourceChanged ∨ j.reason = some .integrity then .error .invalidTransition
    else moved { j with reason := none, attempts := 0 } j.resumed
  | .failed, .resume => moved { j with reason := none, attempts := 0 } j.resumed
  | .queued, .resume | .probing, .resume | .transferring, .resume | .verifying, .resume
  | .publishing, .resume => .ok (false, j)
  | .retryWait, .retryDue nowTick =>
    if j.retryAt.all fun at' ↦ nowTick < at' then .error .invalidTransition
    else moved { j with retryAt := none } .queued
  | .verifying, .requireAction reason | .publishing, .requireAction reason =>
    moved { j with reason := some reason } .needsAction
  | .verifying, .fail reason => moved { j with reason := some reason } .failed
  | .verifying, .verificationPassed => moved j .publishing
  | .publishing, .publishCommitted => moved j .completed
  | .queued, .cancel | .probing, .cancel | .transferring, .cancel | .stopping, .cancel
  | .paused, .cancel | .retryWait, .cancel | .needsAction, .cancel | .verifying, .cancel
  | .failed, .cancel =>
    moved { j with stop := none, replaceOnDrain := false, retryAt := none } .cancelling
  | .cancelling, .cancel => .ok (false, j)
  | .publishing, .pause | .publishing, .cancel => .error .publishInProgress
  | .cancelling, .cleanupFinished => if ¬j.quiescent then .error .incomplete else moved j .cancelled
  | .needsAction, .replaceRepresentation | .paused, .replaceRepresentation
  | .failed, .replaceRepresentation =>
    match j.generation.next with
    | .error e => .error e
    | .ok next =>
      moved
        { j with
          generation := next, segments := none, validator := none, reason := none, retryAt := none
          attempts := 0 } .queued
  | _, _ => .error .invalidTransition

/-- Plan without mutation. An empty result means the command is an accepted no-op. -/
def decide (j : Job) (command : JobCommand) : Except DomainError (List JobEvent) :=
  match execute j command with
  | .error e => .error e
  | .ok (false, _) => .ok []
  | .ok (true, next) =>
    match checkedAdd j.version 1 with
    | none => .error .overflow
    | some version =>
      .ok [⟨j.id, version, j.state, next.state, j.generation, command, next.projection⟩]

/-- Checked replay. Duplicate and out-of-order events never mutate the aggregate. -/
def apply (j : Job) (event : JobEvent) : Except DomainError Unit × Job :=
  if event.job ≠ j.id ∨ event.fromState ≠ j.state ∨ event.generation ≠ j.generation ∨
      checkedAdd j.version 1 ≠ some event.version then (.error .staleEvent, j)
  else
    match execute j event.command with
    | .error e => (.error e, j)
    | .ok (changed, next) =>
      if ¬changed ∨ next.state ≠ event.toState ∨ next.projection ≠ event.outcome then
        (.error .staleEvent, j)
      else (.ok (), { next with version := event.version })

/-- The loop of `handle`: the first event that is refused ends it. -/
def applyAll (j : Job) : List JobEvent → Except DomainError Unit × Job
  | [] => (.ok (), j)
  | event :: events =>
    match j.apply event with
    | (.error e, j') => (.error e, j')
    | (.ok _, j') => applyAll j' events

/-- Convenience for simulations; applications must decide, commit, then apply. -/
def handle (j : Job) (command : JobCommand) : Except DomainError (List JobEvent) × Job :=
  match j.decide command with
  | .error e => (.error e, j)
  | .ok events =>
    match j.applyAll events with
    | (.error e, j') => (.error e, j')
    | (.ok _, j') => (.ok events, j')

/-! ### Segment operations -/

/-- `map_mut` and the call on the map it lends. -/
def onMap {α : Type*} (j : Job) (f : SegmentMap → Except DomainError α × SegmentMap) :
    Except DomainError α × Job :=
  if ¬(j.state = .transferring ∨ j.state = .stopping ∨ j.state = .cancelling) then
    (.error .invalidTransition, j)
  else
    match j.segments with
    | none => (.error .incomplete, j)
    | some m => ((f m).1, { j with segments := some (f m).2 })

def leaseSegment (j : Job) (id : SegmentId) (worker : ℕ) : Except DomainError Lease × Job :=
  if j.state ≠ .transferring then (.error .invalidTransition, j)
  else j.onMap fun m ↦ m.lease id worker

def splitPending (j : Job) (id : SegmentId) (at' : ℕ) : Except DomainError SegmentId × Job :=
  if j.state ≠ .transferring then (.error .invalidTransition, j)
  else j.onMap fun m ↦ m.splitPending id at'

def markWritten (j : Job) (lease : Lease) : Except DomainError Unit × Job :=
  j.onMap fun m ↦ m.markWritten lease

def release (j : Job) (lease : Lease) : Except DomainError Unit × Job :=
  j.onMap fun m ↦ m.release lease

def abandonCheckpoint (j : Job) : Except DomainError Unit × Job :=
  j.onMap fun m ↦ (.ok (), m.discardCheckpoint)

/-- For a stop that cannot sync: uncommitted bytes return to pending and are downloaded again. -/
def discardUnsynced (j : Job) : Except DomainError Unit × Job :=
  if j.state ≠ .stopping then (.error .invalidTransition, j)
  else j.onMap SegmentMap.discardUnsynced

def prepareSync (j : Job) : Except DomainError SyncTicket × Job := j.onMap SegmentMap.prepareSync

def acknowledgeSync (j : Job) (ticket : SyncTicket) : Except DomainError CommitBatch × Job :=
  j.onMap fun m ↦ m.acknowledgeSync ticket

def acknowledgeCommit (j : Job) (batch : CommitBatch) : Except DomainError Unit × Job :=
  j.onMap fun m ↦ m.acknowledgeCommit batch

/-! ### The shapes of change -/

/-- The states in which nothing runs for the job, so that it may be moved by a command alone. -/
def parked : JobState → Bool
  | .queued | .paused | .retryWait | .needsAction | .failed | .verifying | .publishing => true
  | _ => false

/-- Where a command may move a parked job, and what has to hold of it there. -/
inductive Parks (j : Job) (command : JobCommand) (reason : Option StopReason) : JobState → Prop
  | queued : Parks j command reason .queued
  | paused : Parks j command reason .paused
  | needsAction (hreason : reason.isSome) : Parks j command reason .needsAction
  | failed (hreason : reason.isSome) : Parks j command reason .failed
  | verifying (hdurable : j.allDurable) : Parks j command reason .verifying
  | publishing (hfrom : j.state = .verifying) (hcommand : command = .verificationPassed) :
      Parks j command reason .publishing
  | completed (hfrom : j.state = .publishing) (hcommand : command = .publishCommitted) :
      Parks j command reason .completed

/-- Everything an accepted command can do to a job. -/
inductive Step (j : Job) : JobCommand → Job → Prop
  | start (hstate : j.state = .queued) :
      Step j .start { j with attempts := saturatingSucc j.attempts, state := .probing }
  | probeKept {total maxSegments : ℕ} {m : SegmentMap} (hstate : j.state = .probing)
      (hle : total ≤ j.spec.maxBytes) (hm : j.segments = some m) (htotal : m.total = total)
      (hgen : m.generation = j.generation) (hvalidator : j.validator.isSome) :
      Step j (.probeSucceeded total maxSegments j.validator) { j with state := .transferring }
  | probeFresh {total maxSegments : ℕ} {validator : Option Digest} {m : SegmentMap}
      (hstate : j.state = .probing) (hle : total ≤ j.spec.maxBytes) (hnone : j.segments = none)
      (hnew : SegmentMap.new j.id j.generation total maxSegments = .ok m) :
      Step j (.probeSucceeded total maxSegments validator)
        { j with validator := validator, segments := some m, state := .transferring }
  | stop {command : JobCommand} (target : StopTarget) (replace : Bool)
      (hstate : j.state = .probing ∨ j.state = .transferring)
      (hcommand : cause command = some target ∧ replace = j.replaceOnDrain ∨
        command = .representationChanged ∧ target = .queued ∧ replace = true ∨
        command = .allSegmentsDurable ∧ target = .verifying ∧ replace = j.replaceOnDrain ∧
          j.state = .transferring) :
      Step j command { j with stop := some target, replaceOnDrain := replace, state := .stopping }
  | retarget {command : JobCommand} (target : StopTarget) (replace : Bool) (attempts : UInt8)
      (hstate : j.state = .stopping)
      (hreplace : replace = j.replaceOnDrain ∨ command = .representationChanged ∧ replace = true)
      (hcommand : command.probes = false) :
      Step j command
        { j with stop := some target, replaceOnDrain := replace, attempts := attempts }
  | drained {target : StopTarget} (hstate : j.state = .stopping) (hstop : j.stop = some target)
      (hsettled : j.settled) (hreplace : j.replaceOnDrain = false) :
      Step j .workersDrained (land { j with stop := none } target)
  | replacedOnDrain {target : StopTarget} {next : Generation} (hstate : j.state = .stopping)
      (hstop : j.stop = some target) (hreplace : j.replaceOnDrain = true)
      (hnext : j.generation.next = .ok next) :
      Step j .workersDrained (land
        { j with
          stop := none, replaceOnDrain := false, generation := next, segments := none
          validator := none } target)
  | park {command : JobCommand} {state : JobState} {reason : Option StopReason} (attempts : UInt8)
      (hfrom : parked j.state) (hstate : Parks j command reason state)
      (hcommand : command.probes = false) :
      Step j command
        { j with
          retryAt := if j.state = .retryWait then none else j.retryAt
          reason := reason, attempts := attempts, state := state }
  | cancel (hfrom : parked j.state ∨ j.state = .probing ∨ j.state = .transferring ∨
      j.state = .stopping) (hpublishing : j.state ≠ .publishing) :
      Step j .cancel
        { j with stop := none, replaceOnDrain := false, retryAt := none, state := .cancelling }
  | cleaned (hstate : j.state = .cancelling) (hquiescent : j.quiescent) :
      Step j .cleanupFinished { j with state := .cancelled }
  | replaced {next : Generation}
      (hfrom : j.state = .needsAction ∨ j.state = .paused ∨ j.state = .failed)
      (hnext : j.generation.next = .ok next) :
      Step j .replaceRepresentation
        { j with
          generation := next, segments := none, validator := none, reason := none, retryAt := none
          attempts := 0, state := .queued }

variable {j j' : Job} {command : JobCommand}

theorem probed_step {total maxSegments : ℕ} {validator : Option Digest} {b : Bool}
    (hstate : j.state = .probing) (h : probed j total maxSegments validator = .ok (b, j')) :
    b = true ∧ Step j (.probeSucceeded total maxSegments validator) j' := by
  unfold probed at h
  split at h
  · cases h
  next hok =>
    rw [not_or, not_lt] at hok
    split at h
    next m hm =>
      split at h
      · cases h
      next hsame =>
        simp only [not_or, not_not] at hsame
        obtain ⟨htotal, hgen, hsome, rfl⟩ := hsame
        cases h
        exact ⟨rfl, .probeKept hstate hok.1 hm htotal hgen (Option.ne_none_iff_isSome.1 (by simpa using hsome))⟩
    next hnone =>
      split at h
      · cases h
      next m hnew =>
        cases h
        exact ⟨rfl, .probeFresh hstate hok.1 hnone hnew⟩

theorem drained_step {b : Bool} (hstate : j.state = .stopping) (h : drained j = .ok (b, j')) :
    b = true ∧ Step j .workersDrained j' := by
  unfold drained at h
  split at h
  · cases h
  next hsettled =>
    split at h
    · cases h
    next target hstop =>
      split at h
      next hreplace =>
        split at h
        · cases h
        next next hnext =>
          cases h
          exact ⟨rfl, .replacedOnDrain hstate hstop hreplace hnext⟩
      next hreplace =>
        cases h
        exact ⟨rfl, .drained hstate hstop (by simpa using hsettled) (by simpa using hreplace)⟩

theorem probes_of_cause {target : StopTarget} (h : cause command = some target) :
    command.probes = false := by
  cases command <;> first | rfl | cases h

theorem raised_step (hstate : j.state = .stopping) (h : raised j command = .ok (true, j')) :
    Step j command j' := by
  unfold raised at h
  split at h
  · cases h
  next cause hcause =>
    split at h
    · cases h
    next current hstop =>
      split at h
      · cases h
      · cases h
        rw [← hstate]
        exact .retarget (current.raise cause) j.replaceOnDrain j.attempts hstate (Or.inl rfl)
          (probes_of_cause hcause)

/-- A command moves a parked job. -/
theorem park_step {state : JobState} {reason : Option StopReason} {attempts : UInt8}
    {retryAt : Option ℕ} (hfrom : parked j.state)
    (hretry : retryAt = if j.state = .retryWait then none else j.retryAt)
    (hstate : Parks j command reason state) (hcommand : command.probes = false) :
    Step j command
      { j with retryAt := retryAt, reason := reason, attempts := attempts, state := state } := by
  rw [hretry]
  exact .park attempts hfrom hstate hcommand

/-- Resuming leads to verification only when nothing is missing. -/
theorem parks_resumed (j : Job) (command : JobCommand) (reason : Option StopReason) :
    Parks j command reason j.resumed := by
  unfold resumed
  split
  next h => exact .verifying h
  · exact .queued

/-- **Inversion**: an accepted command that changes the job makes one of the listed changes. -/
theorem execute_step (h : execute j command = .ok (true, j')) : Step j command j' := by
  cases command with
  | start =>
    cases hs : j.state <;> simp only [execute, hs] at h <;> cases h
    exact .start hs
  | probeSucceeded total maxSegments validator =>
    cases hs : j.state <;> simp only [execute, hs] at h
    case probing => exact (probed_step hs h).2
    all_goals cases h
  | pause =>
    cases hs : j.state <;> simp only [execute, hs] at h
    case stopping => exact raised_step hs h
    all_goals cases h
    case probing.refl => exact .stop .paused _ (Or.inl hs) (Or.inl ⟨rfl, rfl⟩)
    case transferring.refl => exact .stop .paused _ (Or.inr hs) (Or.inl ⟨rfl, rfl⟩)
    all_goals exact park_step (by rw [hs]; rfl) (by simp [hs]) .paused rfl
  | resume =>
    cases hs : j.state <;> simp only [execute, hs] at h
    case stopping =>
      split at h <;> cases h
      rw [← hs]
      exact .retarget _ j.replaceOnDrain 0 hs (Or.inl rfl) rfl
    case needsAction =>
      split at h <;> cases h
      exact park_step (by rw [hs]; rfl) (by simp [hs]) (parks_resumed _ _ _) rfl
    all_goals cases h
    case retryWait.refl => exact park_step (by rw [hs]; rfl) (by simp [hs]) .queued rfl
    all_goals exact park_step (by rw [hs]; rfl) (by simp [hs]) (parks_resumed _ _ _) rfl
  | cancel =>
    cases hs : j.state <;> simp only [execute, hs] at h <;> cases h
    case probing.refl => exact .cancel (Or.inr (Or.inl hs)) (by simp [hs])
    case transferring.refl => exact .cancel (Or.inr (Or.inr (Or.inl hs))) (by simp [hs])
    case stopping.refl => exact .cancel (Or.inr (Or.inr (Or.inr hs))) (by simp [hs])
    all_goals exact .cancel (Or.inl (by rw [hs]; rfl)) (by simp [hs])
  | preempt =>
    cases hs : j.state <;> simp only [execute, hs] at h
    case stopping => exact raised_step hs h
    all_goals cases h
    case probing.refl => exact .stop .queued _ (Or.inl hs) (Or.inl ⟨rfl, rfl⟩)
    case transferring.refl => exact .stop .queued _ (Or.inr hs) (Or.inl ⟨rfl, rfl⟩)
  | allSegmentsDurable =>
    cases hs : j.state <;> simp only [execute, hs] at h
    case transferring =>
      split at h <;> cases h
      exact .stop .verifying _ (Or.inr hs) (Or.inr (Or.inr ⟨rfl, rfl, rfl, hs⟩))
    all_goals cases h
  | retry atTick =>
    cases hs : j.state <;> simp only [execute, hs] at h
    case stopping => exact raised_step hs h
    all_goals cases h
    case probing.refl => exact .stop (.retryWait atTick) _ (Or.inl hs) (Or.inl ⟨rfl, rfl⟩)
    case transferring.refl => exact .stop (.retryWait atTick) _ (Or.inr hs) (Or.inl ⟨rfl, rfl⟩)
  | requireAction reason =>
    cases hs : j.state <;> simp only [execute, hs] at h
    case stopping => exact raised_step hs h
    all_goals cases h
    case probing.refl => exact .stop (.needsAction reason) _ (Or.inl hs) (Or.inl ⟨rfl, rfl⟩)
    case transferring.refl => exact .stop (.needsAction reason) _ (Or.inr hs) (Or.inl ⟨rfl, rfl⟩)
    all_goals exact park_step (by rw [hs]; rfl) (by simp [hs]) (.needsAction rfl) rfl
  | fail reason =>
    cases hs : j.state <;> simp only [execute, hs] at h
    case stopping => exact raised_step hs h
    all_goals cases h
    case probing.refl => exact .stop (.failed reason) _ (Or.inl hs) (Or.inl ⟨rfl, rfl⟩)
    case transferring.refl => exact .stop (.failed reason) _ (Or.inr hs) (Or.inl ⟨rfl, rfl⟩)
    case verifying.refl => exact park_step (by rw [hs]; rfl) (by simp [hs]) (.failed rfl) rfl
  | representationChanged =>
    cases hs : j.state <;> simp only [execute, hs] at h
    case stopping =>
      split at h
      · cases h
      split at h <;> cases h
      rw [← hs]
      exact .retarget _ true j.attempts hs (Or.inr ⟨rfl, rfl⟩) rfl
    all_goals cases h
    case probing.refl => exact .stop .queued true (Or.inl hs) (Or.inr (Or.inl ⟨rfl, rfl, rfl⟩))
    case transferring.refl => exact .stop .queued true (Or.inr hs) (Or.inr (Or.inl ⟨rfl, rfl, rfl⟩))
  | workersDrained =>
    cases hs : j.state <;> simp only [execute, hs] at h
    case stopping => exact (drained_step hs h).2
    all_goals cases h
  | retryDue nowTick =>
    cases hs : j.state <;> simp only [execute, hs] at h
    case retryWait =>
      split at h <;> cases h
      exact park_step (by rw [hs]; rfl) (by simp [hs]) .queued rfl
    all_goals cases h
  | verificationPassed =>
    cases hs : j.state <;> simp only [execute, hs] at h <;> cases h
    exact park_step (by rw [hs]; rfl) (by simp [hs]) (.publishing hs rfl) rfl
  | publishCommitted =>
    cases hs : j.state <;> simp only [execute, hs] at h <;> cases h
    exact park_step (by rw [hs]; rfl) (by simp [hs]) (.completed hs rfl) rfl
  | cleanupFinished =>
    cases hs : j.state <;> simp only [execute, hs] at h
    case cancelling =>
      split at h <;> cases h
      next hq => exact .cleaned hs (by simpa using hq)
    all_goals cases h
  | replaceRepresentation =>
    cases hs : j.state <;> simp only [execute, hs] at h
    case needsAction | paused | failed =>
      split at h <;> cases h
      next hnext => exact .replaced (by simp [hs]) hnext
    all_goals cases h

theorem raised_noop {b : Bool} (h : raised j command = .ok (b, j')) (hb : b = false) : j' = j := by
  unfold raised at h
  split at h
  · cases h
  split at h
  · cases h
  split at h
  · cases h
    rfl
  · cases h
    cases hb

/-- **An accepted no-op leaves the job as it was.** -/
theorem execute_noop (h : execute j command = .ok (false, j')) : j' = j := by
  unfold execute at h
  split at h
  case h_2 hstate => exact absurd (probed_step hstate h).1 (by simp)
  all_goals first
    | (cases h; rfl)
    | cases h
    | exact raised_noop h rfl
    | exact absurd (drained_step (by assumption) h).1 (by simp)
    | (split at h <;> first | (cases h; rfl) | cases h | (split at h <;> cases h))

end Job

end Fhd
