import FhdEngine.DownloadEngine.QueueStore
import FhdEngine.Library.Table
import FhdEngine.TransferStore.Store

/-!
# The download manager

`crates/download-engine/src/manager.rs`: the actor that owns the jobs, the queue, the workers and the ledger of
what was once accepted. `Actor` is everything `run` holds between two turns of its loop, and what the database
holds; a `Turn` is everything one turn does not decide: what the clock read, how each save came out, what the
file system said, and which branch of the select fired.

A save is one note of the log, which stands where the snapshot was taken: nothing else happens in the actor until
its result. A process may die at any moment; what is then left is the database, and `Actor.launch` starts from
it.
-/

namespace Fhd.DownloadEngine

open Table

/-- The caller of a command, who waits for its answer: the number of the command. -/
abbrev Reply := ℕ

structure AdmissionHashes where
  key : Digest
  payload : Digest
deriving DecidableEq, Repr

inductive Command (PathBuf : Type)
  | enqueue (options : Options PathBuf) (priority : Priority) (admission : Option AdmissionHashes)
  | setPriority (id : JobId) (priority : Priority)
  | pause (id : JobId)
  | resume (id : JobId)
  | globalRate (rate : Option UInt64)
  | jobRate (id : JobId) (rate : Option UInt64)
  | resumeAll
  | refresh (id : JobId) (url : String)
  | forget (id : JobId)

structure Job (PathBuf : Type) where
  options : Options PathBuf
  origin : Origin
  priority : Priority
  key : PathBuf
  state : State
  progress : UInt64
  /-- What was last sent to the worker, if there is one. -/
  cancel : Option Bool
  pauseReply : Option Reply
  attempts : UInt8
  retryAt : Option ℕ

/-- Somebody to be answered at the next save; an accepted download is answered with its identity. -/
inductive Acknowledge
  | unit (reply : Reply)
  | enqueued (reply : Reply) (id : JobId)
deriving DecidableEq, Repr

def Acknowledge.reply : Acknowledge → Reply
  | unit reply => reply
  | enqueued reply _ => reply

def Acknowledge.value : Acknowledge → Option JobId
  | unit _ => none
  | enqueued _ id => some id

/-- What happened in the actor, in order. -/
inductive Note (PathBuf : Type)
  | received (reply : Reply) (command : Command PathBuf)
  /-- The change a command asks for was made. -/
  | changed (reply : Reply)
  /-- A receipt for this key was entered in the ledger. -/
  | receipt (keyHash : Digest)
  /-- A command is answered by the receipt for this key. -/
  | replayed (reply : Reply) (keyHash : Digest)
  | saved (snapshot : Snapshot PathBuf)
  | unsaved (snapshot : Snapshot PathBuf)
  | answered (reply : Reply) (result : Except ManagerError (Option JobId))
  | resumed (id : JobId)
  | started (task : ℕ) (id : JobId)
  | joined (task : ℕ)

/-- How a save comes out. An error may be reported though the snapshot was stored; with the task that saves, the
database is lost to the manager. -/
inductive Fate
  | saved
  | failed (error : ManagerError) (stored : Bool)
  | lost (stored : Bool)

structure Saving where
  /-- How far the workers have come, as the snapshot is taken. -/
  progress : JobId → Option UInt64
  fate : Fate

structure Starting where
  save : Saving
  /-- Whether nobody can send commands any more, after the save. -/
  dropped : Bool

/-- What is found in the directory of a job. -/
inductive JobFolder
  | missing
  | unreadable
  | refused
  | holds (status : TransferStore.Status) (unknownLength : Bool) (identity : TransferStore.Identity)

inductive Event (PathBuf : Type)
  /-- A task was joined, with the bytes of its outcome, or nothing after a panic. -/
  | joined (task : ℕ) (result : Option (Except Error UInt64)) (now : ℕ)
  /-- A command, with the key of the path it names and what is in the directory it names. -/
  | command (command : Command PathBuf) (key : Except ManagerError PathBuf) (folder : JobFolder)
  /-- Nobody can send commands any more. -/
  | closed
  | ticked

/-- Everything one turn of the loop does not decide. -/
structure Turn (PathBuf : Type) where
  /-- Whether nobody can send commands any more. -/
  dropped : Bool
  /-- What the clock reads as a job is looked at. -/
  now : JobId → ℕ
  save : Saving
  starts : ℕ → Starting
  last : Saving
  event : Event PathBuf

structure Actor (PathBuf : Type) where
  config : Config
  jobs : List (JobId × Job PathBuf)
  queue : List JobId
  workers : List ℕ
  owners : List (ℕ × JobId)
  closing : Bool
  failure : Option ManagerError
  dirty : Bool
  acknowledgements : List Acknowledge
  lastId : UInt64
  receipts : List Receipt
  /-- Whether the manager holds a database. -/
  store : Bool
  /-- What the database holds. -/
  file : Option Bytes
  /-- The number the next task gets. -/
  nextTask : ℕ
  /-- The number the next command gets. -/
  nextReply : ℕ
  log : List (Note PathBuf)
  /-- What `run` returned, once it has. -/
  returned : Option (Except ManagerError Unit)

/-- A job that has a worker. -/
def State.active : State → Bool
  | .running | .pausing => true
  | _ => false

def retryable : Error → Bool
  | .network => true
  | .httpStatus code => code ∈ [408, 500, 502, 503, 504]
  | _ => false

section Library

variable {Url UrlOrigin PathBuf : Type} (U : UrlLibrary Url UrlOrigin) (P : Paths PathBuf)
  (sha256 : Bytes → Digest)

/-- `transfer_store::url_fingerprint`. -/
def urlFingerprint (url : String) : Digest := sha256 (utf8 "FHD.url-identity.v2" ++ [0] ++ utf8 url)

/-- `QueueStore::save`, on a task of its own: what the database then holds, and what is reported. -/
def saveSnapshot (fate : Fate) (snapshot : Snapshot PathBuf) (file : Option Bytes) :
    Option Bytes × Except ManagerError Unit :=
  match fate, encode P sha256 snapshot with
  | .lost stored, .ok bytes => (if stored then some bytes else file, .error .workerFailed)
  | .lost _, .error _ => (file, .error .workerFailed)
  | _, .error e => (file, .error e)
  | .saved, .ok bytes => (some bytes, .ok ())
  | .failed e stored, .ok bytes => (if stored then some bytes else file, .error e)

/-! ### The parts of a turn -/

/-- A receipt, when a job is taken out. -/
def Receipt.forget (id : JobId) (receipt : Receipt) : Receipt :=
  if receipt.jobId = id then { receipt with removed := true } else receipt

/-- `stop`, for one job. -/
def Job.stop (job : Job PathBuf) : Job PathBuf :=
  match job.state with
  | .queued | .retryWaiting => { job with state := .paused, retryAt := none }
  | .running => { job with state := .pausing, cancel := job.cancel.map fun _ ↦ true }
  | _ => job

/-- A job that is about to have a worker; attempts are counted up to 255. -/
def Job.prepare (job : Job PathBuf) : Job PathBuf :=
  { job with state := .running, attempts := if job.attempts = 255 then 255 else job.attempts + 1 }

def Job.finish (job : Job PathBuf) (result : Except Error UInt64) : Job PathBuf :=
  match result with
  | .ok bytes => { job with cancel := none, progress := bytes, state := .completed }
  | .error error =>
    if error = .cancelled ∧ job.state = .pausing then { job with cancel := none, state := .paused }
    else { job with cancel := none, state := .failed error }

/-- Whether a job whose worker was joined is tried again. -/
def Job.again (closing : Bool) (retry : RetryPolicy) (result : Except Error UInt64) (job : Job PathBuf) : Bool :=
  !closing && job.state = .running && job.attempts < retry.maxAttempts &&
    match result with
    | .ok _ => false
    | .error error => retryable error

def Job.joined (closing : Bool) (retry : RetryPolicy) (result : Except Error UInt64) (now : ℕ) (job : Job PathBuf) :
    Job PathBuf :=
  let finished := job.finish result
  if job.again closing retry result then
    { finished with state := .retryWaiting, retryAt := some (now + retry.delay finished.attempts) }
  else finished

/-- Whether a job's retry is due. -/
def due (now : JobId → ℕ) (e : JobId × Job PathBuf) : Bool :=
  e.2.state = .retryWaiting ∧ e.2.retryAt.any (· ≤ now e.1)

/-- A job of this origin that has a worker. -/
def activeAt (origin : Origin) (e : JobId × Job PathBuf) : Bool := e.2.origin = origin ∧ e.2.state.active

/-- The place in the queue of the job that starts next: of the highest priority, the first one. -/
def nextEligible (jobs : List (JobId × Job PathBuf)) (queue : List JobId) (maxPerOrigin : ℕ) : Option ℕ :=
  (queue.zipIdx.foldl (fun selected (id, index) ↦
    match jobs.lookup id with
    | none => selected
    | some candidate =>
      if candidate.state ≠ .queued then selected
      else if jobs.countP (activeAt candidate.origin) ≥ maxPerOrigin then selected
      else if selected.1.isNone ∨ selected.2.code < candidate.priority.code then
        (some index, candidate.priority)
      else selected) (none, Priority.low)).1

namespace Actor

def note (n : Note PathBuf) (s : Actor PathBuf) : Actor PathBuf := { s with log := s.log ++ [n] }

def answer (reply : Reply) (result : Except ManagerError (Option JobId)) (s : Actor PathBuf) : Actor PathBuf :=
  s.note (.answered reply result)

/-- The change is made, and is answered at the next save. -/
def accept (acknowledge : Acknowledge) (s : Actor PathBuf) : Actor PathBuf :=
  { s with
    acknowledgements := s.acknowledgements ++ [acknowledge], dirty := true
    log := s.log ++ [.changed acknowledge.reply] }

def setJob (id : JobId) (f : Job PathBuf → Job PathBuf) (s : Actor PathBuf) : Actor PathBuf :=
  { s with jobs := adjust id f s.jobs }

def stop (s : Actor PathBuf) : Actor PathBuf := { s with jobs := s.jobs.map fun e ↦ (e.1, e.2.stop) }

def close (s : Actor PathBuf) : Actor PathBuf := { s.stop with closing := true, dirty := true }

def fail (error : ManagerError) (s : Actor PathBuf) : Actor PathBuf :=
  { s.stop with failure := some error, closing := true }

def snapshot (s : Actor PathBuf) : Snapshot PathBuf :=
  ⟨s.lastId, s.receipts, s.config,
    s.jobs.map fun e ↦ ⟨e.1, e.2.options, e.2.priority, e.2.state, e.2.progress, e.2.attempts⟩, s.queue⟩

/-- What the workers have reported since. -/
def report (progress : JobId → Option UInt64) (s : Actor PathBuf) : Actor PathBuf :=
  { s with
    jobs := s.jobs.map fun e ↦
      if e.1 ∈ s.owners.map Prod.snd then (e.1, { e.2 with progress := (progress e.1).getD e.2.progress }) else e }

def saveState (saving : Saving) (s : Actor PathBuf) : Actor PathBuf × Except ManagerError Unit :=
  if !s.store then (s, .ok ())
  else
    let s := s.report saving.progress
    let (file, result) := saveSnapshot P sha256 saving.fate s.snapshot s.file
    let kept : Bool := match saving.fate with
      | .lost _ => false
      | _ => true
    let n : Note PathBuf := match result with
      | .ok () => .saved s.snapshot
      | .error _ => .unsaved s.snapshot
    ({ s with store := kept, file, log := s.log ++ [n] }, result)

def noticeClosed (dropped : Bool) (s : Actor PathBuf) : Actor PathBuf :=
  if dropped ∧ !s.closing then s.close else s

def wakeWaiting (now : JobId → ℕ) (s : Actor PathBuf) : Actor PathBuf :=
  if s.closing then s
  else
    { s with
      jobs := s.jobs.map fun e ↦ if due now e then (e.1, { e.2 with state := .queued, retryAt := none }) else e
      queue := s.queue ++ keys (s.jobs.filter (due now))
      dirty := s.dirty || s.jobs.any (due now) }

def saveDirty (saving : Saving) (s : Actor PathBuf) : Actor PathBuf :=
  if s.dirty ∧ s.failure.isNone then
    match s.saveState P sha256 saving with
    | (s, .error error) => { s.fail error with dirty := false }
    | (s, .ok ()) => { s with dirty := false }
  else s

/-- Everybody who waits for the save is answered. -/
def acknowledge (s : Actor PathBuf) : Actor PathBuf :=
  { s with
    acknowledgements := []
    log := s.log ++ s.acknowledgements.map fun a ↦
      .answered a.reply (s.failure.elim (.ok a.value) .error) }

/-- The worker of a job that has been prepared. -/
def spawn (id : JobId) (s : Actor PathBuf) : Actor PathBuf :=
  { s with
    jobs := adjust id (fun job ↦ { job with cancel := some false }) s.jobs
    workers := s.nextTask :: s.workers, owners := (s.nextTask, id) :: s.owners
    nextTask := s.nextTask + 1, log := s.log ++ [.started s.nextTask id] }

def dequeue (index : ℕ) (s : Actor PathBuf) : Actor PathBuf := { s with queue := s.queue.eraseIdx index }

def prepare (id : JobId) (s : Actor PathBuf) : Actor PathBuf :=
  s.setJob id Job.prepare

/-- A job that is to have no worker after all. -/
def unprepare (id : JobId) (s : Actor PathBuf) : Actor PathBuf := s.setJob id fun job ↦ { job with state := .paused }

/-- One round of the loop that starts workers, and whether it is to look for another job. -/
def startNext (starting : Starting) (s : Actor PathBuf) : Actor PathBuf × Bool :=
  match nextEligible s.jobs s.queue s.config.maxPerOrigin with
  | none => (s, false)
  | some index =>
    match s.queue[index]? with
    | none => (s, false)
    | some id =>
      let s := s.dequeue index
      match s.jobs.lookup id with
      | none => (s, true)
      | some job =>
        if job.state ≠ .queued then (s, true)
        else
          match (s.prepare id).saveState P sha256 starting.save with
          -- No worker exists for this just-prepared task.
          | (s, .error error) => ((s.fail error).unprepare id, false)
          | (s, .ok ()) =>
            if starting.dropped then (s.close.unprepare id, false)
            -- The job is still there.
            else (s.spawn id, true)

/-- Each round takes a job from the queue, so no more rounds are needed than the queue is long. -/
def startWorkers (starts : ℕ → Starting) : ℕ → Actor PathBuf → Actor PathBuf
  | 0, s => s
  | rounds + 1, s =>
    if s.closing ∨ s.workers.length ≥ s.config.maxActive then s
    else
      match s.startNext P sha256 (starts rounds) with
      | (s, true) => startWorkers starts rounds s
      | (s, false) => s

/-- Where `run` waits in its select, or leaves. -/
def await (turn : Turn PathBuf) (s : Actor PathBuf) : Actor PathBuf :=
  let s := (((s.noticeClosed turn.dropped).wakeWaiting turn.now).saveDirty P sha256 turn.save).acknowledge
  s.startWorkers P sha256 turn.starts s.queue.length

def leave (saving : Saving) (s : Actor PathBuf) : Actor PathBuf :=
  let s :=
    if s.dirty ∧ s.failure.isNone then
      match s.saveState P sha256 saving with
      | (s, .error error) => { s with failure := some error }
      | (s, .ok ()) => s
    else s
  { s with returned := some (s.failure.elim (.ok ()) .error) }

/-! ### What the select brings -/

def release (task : ℕ) (s : Actor PathBuf) : Actor PathBuf :=
  { s with workers := s.workers.erase task, owners := s.owners.filter (·.1 ≠ task), log := s.log ++ [.joined task] }

/-- A job without its worker; whoever waits for its pause is answered. -/
def settle (id : JobId) (job : Job PathBuf) (s : Actor PathBuf) : Actor PathBuf :=
  let s := { s.setJob id fun _ ↦ { job with pauseReply := none } with dirty := true }
  match job.pauseReply, job.state with
  | none, _ => s
  | some reply, .failed _ => s.answer reply (.error .workerFailed)
  | some reply, _ => s.accept (.unit reply)

def join (task : ℕ) (result : Option (Except Error UInt64)) (now : ℕ) (s : Actor PathBuf) : Actor PathBuf :=
  if task ∉ s.workers then s
  else
    match s.owners.lookup task with
    | none => s.release task
    | some id =>
      match s.jobs.lookup id with
      | none => s.release task
      | some job =>
        (s.release task).settle id
          (job.joined s.closing s.config.retry (result.getD (.error .workerFailed)) now)

/-- What binds the new URL of a job to what its directory already holds. -/
def binding (folder : JobFolder) (options : Options PathBuf) (current : Digest) :
    Except ManagerError (Option Digest) :=
  match folder with
  | .missing => .ok none
  | .unreadable => .error .invalidPath
  | .refused => .error .workerFailed
  | .holds status unknownLength identity =>
    if status ≠ .downloading ∨ unknownLength ∨ identity.strongEtag.isNone ∨
        identity.expectedSha256 ≠ options.expectedSha256 ∨
        (identity.originalUrlFingerprint ≠ current ∧ some identity.originalUrlFingerprint ≠ options.refreshFrom) then
      .error .invalidOptions
    else .ok (some identity.originalUrlFingerprint)

section Commands

variable [DecidableEq UrlOrigin] [DecidableEq PathBuf]

/-- What `Refresh` makes of the options of a job. -/
def refreshed (options : Options PathBuf) (url : String) (folder : JobFolder) :
    Except ManagerError (Options PathBuf) :=
  if options.expectedSha256.isNone then .error .invalidOptions
  else
    match parseUrl U options.url options.allowHttp, parseUrl U url options.allowHttp with
    | .ok old, .ok new =>
      if U.origin old ≠ U.origin new ∨ U.path old ≠ U.path new then .error .invalidOptions
      else
        (fun refreshFrom ↦ { options with refreshFrom, url := U.asStr new }) <$>
          binding folder options (urlFingerprint sha256 (U.asStr old))
    | _, _ => .error .invalidOptions

def refresh (id : JobId) (url : String) (reply : Reply) (folder : JobFolder) (s : Actor PathBuf) : Actor PathBuf :=
  match s.jobs.lookup id with
  | none => s.answer reply (.error .unknownJob)
  | some job =>
    match job.state with
    | .paused | .failed _ =>
      match refreshed U sha256 job.options url folder with
      | .error error => s.answer reply (.error error)
      | .ok options => (s.setJob id fun job ↦ { job with options, state := .paused }).accept (.unit reply)
    | _ => s.answer reply (.error .invalidTransition)

/-- A job is taken out; the receipt that once accepted it stays. -/
def remove (id : JobId) (s : Actor PathBuf) : Actor PathBuf :=
  { s with
    jobs := s.jobs.eraseP (·.1 = id), queue := s.queue.filter (· ≠ id)
    receipts := s.receipts.map (.forget id) }

def forget (id : JobId) (reply : Reply) (s : Actor PathBuf) : Actor PathBuf :=
  match s.jobs.lookup id with
  | none => s.answer reply (.error .unknownJob)
  | some job =>
    if job.state.active then s.answer reply (.error .invalidTransition)
    else (s.remove id).accept (.unit reply)

/-- A new job, at the end of the queue. -/
def push (options : Options PathBuf) (origin : Origin) (priority : Priority) (key : PathBuf)
    (admission : Option AdmissionHashes) (id : JobId) (s : Actor PathBuf) : Actor PathBuf :=
  { s with
    jobs := s.jobs ++ [(id, ⟨options, origin, priority, key, .queued, 0, none, none, 0, none⟩)]
    queue := s.queue ++ [id]
    receipts := s.receipts ++ (admission.map fun hashes ↦ ⟨hashes.key, hashes.payload, id, false⟩).toList
    log := s.log ++ (admission.map fun hashes ↦ Note.receipt hashes.key).toList }

/-- A download that no receipt answers. -/
def enqueueNew (options : Options PathBuf) (priority : Priority) (admission : Option AdmissionHashes) (reply : Reply)
    (key : Except ManagerError PathBuf) (s : Actor PathBuf) : Actor PathBuf :=
  if s.jobs.length ≥ s.config.maxJobs then s.answer reply (.error .capacity)
  else
    match origin U options, key with
    | .error error, _ => s.answer reply (.error error)
    | .ok _, .error error => s.answer reply (.error error)
    | .ok origin, .ok key =>
      if s.jobs.any (·.2.key = key) then s.answer reply (.error .duplicateJob)
      else if s.lastId.toNat = u64Max then s.answer reply (.error .capacity)
      else
        let s := { s with lastId := s.lastId + 1 }
        if !validLimit options.bytesPerSecond then s.answer reply (.error .invalidOptions)
        else (s.push options origin priority key admission ⟨s.lastId⟩).accept (.enqueued reply ⟨s.lastId⟩)

def enqueue (options : Options PathBuf) (priority : Priority) (admission : Option AdmissionHashes) (reply : Reply)
    (key : Except ManagerError PathBuf) (s : Actor PathBuf) : Actor PathBuf :=
  match admission with
  | none => s.enqueueNew U options priority none reply key
  | some hashes =>
    if !s.store then s.answer reply (.error .notDurable)
    else
      match s.receipts.find? (·.keyHash = hashes.key) with
      | some receipt =>
        if receipt.payloadHash ≠ hashes.payload then s.answer reply (.error .idempotencyConflict)
        else if receipt.removed then s.answer reply (.error .previouslyRemoved)
        else (s.note (.replayed reply hashes.key)).answer reply (.ok (some receipt.jobId))
      | none =>
        if s.receipts.length ≥ maxReceipts then s.answer reply (.error .receiptCapacity)
        else s.enqueueNew U options priority (some hashes) reply key

def setPriority (id : JobId) (priority : Priority) (reply : Reply) (s : Actor PathBuf) : Actor PathBuf :=
  match s.jobs.lookup id with
  | none => s.answer reply (.error .unknownJob)
  | some job =>
    match job.state with
    | .queued | .paused | .failed _ | .retryWaiting =>
      (s.setJob id fun job ↦ { job with priority }).accept (.unit reply)
    | _ => s.answer reply (.error .invalidTransition)

def pause (id : JobId) (reply : Reply) (s : Actor PathBuf) : Actor PathBuf :=
  match s.jobs.lookup id with
  | none => s.answer reply (.error .unknownJob)
  | some job =>
    match job.state with
    | .queued | .retryWaiting =>
      { s.setJob id fun job ↦ { job with state := .paused, retryAt := none } with
        queue := s.queue.filter (· ≠ id) }.accept (.unit reply)
    | .running =>
      { s.setJob id fun job ↦
          { job with state := .pausing, pauseReply := some reply, cancel := job.cancel.map fun _ ↦ true } with
        dirty := true }
    | .paused => s.accept (.unit reply)
    | _ => s.answer reply (.error .invalidTransition)

/-- A job is queued afresh. -/
def requeue (id : JobId) (s : Actor PathBuf) : Actor PathBuf :=
  { s with
    jobs := adjust id (fun job ↦ { job with state := .queued, attempts := 0, retryAt := none }) s.jobs
    log := s.log ++ [.resumed id] }

def resume (id : JobId) (reply : Reply) (s : Actor PathBuf) : Actor PathBuf :=
  match s.jobs.lookup id with
  | none => s.answer reply (.error .unknownJob)
  | some job =>
    match job.state with
    | .paused | .failed _ =>
      { s.requeue id with queue := s.queue.filter (· ≠ id) ++ [id] }.accept (.unit reply)
    | _ => s.answer reply (.error .invalidTransition)

/-- One job of `ResumeAll`. -/
def resumeOne (s : Actor PathBuf) (id : JobId) : Actor PathBuf :=
  match s.jobs.lookup id with
  | none => s
  | some job =>
    match job.state with
    | .paused | .failed _ =>
      { s.requeue id with queue := if id ∈ s.queue then s.queue else s.queue ++ [id] }
    | _ => s

/-- The queue, and then the jobs that are not in it. -/
def ordered (s : Actor PathBuf) : List JobId :=
  s.jobs.foldl (fun ids e ↦ if e.1 ∈ ids then ids else ids ++ [e.1]) s.queue

def resumeAll (reply : Reply) (s : Actor PathBuf) : Actor PathBuf :=
  (s.ordered.foldl resumeOne s).accept (.unit reply)

def jobRate (id : JobId) (rate : Option UInt64) (reply : Reply) (s : Actor PathBuf) : Actor PathBuf :=
  match s.jobs.lookup id with
  | none => s.answer reply (.error .unknownJob)
  | some _ =>
    (s.setJob id fun job ↦ { job with options := { job.options with bytesPerSecond := rate } }).accept (.unit reply)

def globalRate (rate : Option UInt64) (reply : Reply) (s : Actor PathBuf) : Actor PathBuf :=
  { s with config := { s.config with globalBytesPerSecond := rate } }.accept (.unit reply)

def obey (command : Command PathBuf) (reply : Reply) (key : Except ManagerError PathBuf) (folder : JobFolder)
    (s : Actor PathBuf) : Actor PathBuf :=
  match command with
  | .refresh id url => s.refresh U sha256 id url reply folder
  | .forget id => s.forget id reply
  | .enqueue options priority admission => s.enqueue U options priority admission reply key
  | .setPriority id priority => s.setPriority id priority reply
  | .pause id => s.pause id reply
  | .resume id => s.resume id reply
  | .resumeAll => s.resumeAll reply
  | .globalRate rate => s.globalRate rate reply
  | .jobRate id rate => s.jobRate id rate reply

def receive (command : Command PathBuf) (s : Actor PathBuf) : Actor PathBuf :=
  { s with nextReply := s.nextReply + 1, log := s.log ++ [.received s.nextReply command] }

/-- The branch of the select that fired; commands are received only until the manager closes. -/
def select (event : Event PathBuf) (s : Actor PathBuf) : Actor PathBuf :=
  match event with
  | .joined task result now => s.join task result now
  | .command command key folder =>
    if s.closing then s else (s.receive command).obey U sha256 command s.nextReply key folder
  | .closed => if s.closing then s else s.close
  | .ticked => s

/-- **One turn of `run`.** -/
def turn (s : Actor PathBuf) (t : Turn PathBuf) : Actor PathBuf :=
  if s.returned.isSome then s
  else
    let s := s.await P sha256 t
    if s.closing ∧ s.workers = [] then s.leave P sha256 t.last else s.select U sha256 t.event

def run (s : Actor PathBuf) (turns : List (Turn PathBuf)) : Actor PathBuf :=
  turns.foldl (fun s t ↦ s.turn U P sha256 t) s

end Commands

/-! ### Starting -/

/-- What `run` begins with. -/
def launch (config : Config) (jobs : List (JobId × Job PathBuf)) (store : Bool) (file : Option Bytes)
    (lastId : UInt64) (receipts : List Receipt) (log : List (Note PathBuf)) : Actor PathBuf :=
  ⟨config, jobs, keys jobs, [], [], false, none, true, [], lastId, receipts, store, file, 0, 0, log, none⟩

/-- `Manager::start_configured`: a manager that saves nothing. -/
def start (config : Config) : Except ManagerError (Actor PathBuf) := do
  config.validate
  return launch config [] false none 0 [] []

section Open

variable [DecidableEq PathBuf]

/-- A job of a saved queue; what had not ended is paused. -/
def recoverJob (jobs : List (JobId × Job PathBuf)) (key : Except ManagerError PathBuf) (saved : SavedJob PathBuf) :
    Except ManagerError (JobId × Job PathBuf) := do
  validateOptions U P saved.options
  let key ← key
  if jobs.any (·.2.key = key) then throw .duplicateJob
  if !validLimit saved.options.bytesPerSecond then throw .invalidOptions
  let origin ← origin U saved.options
  let state := match saved.state with
    | .completed => .completed
    | .failed error => .failed error
    | _ => .paused
  return (saved.id,
    ⟨saved.options, origin, saved.priority, key, state, saved.progress, none, none, saved.attempts, none⟩)

/-- `Manager::open`, from the snapshot that was loaded: queue rank is retained even though recovery requires
explicit resume. -/
def recover (keyOf : JobId → Except ManagerError PathBuf) (file : Option Bytes) (saved : Snapshot PathBuf) :
    Except ManagerError (Actor PathBuf) := do
  if !validLimit saved.config.globalBytesPerSecond then throw .invalidLimits
  let jobs ← Reading.eachOf (fun jobs job ↦ recoverJob U P jobs (keyOf job.id) job) saved.jobs []
  let sorted := jobs.mergeSort fun a b ↦ saved.queue.idxOf a.1 ≤ saved.queue.idxOf b.1
  return launch saved.config sorted true file saved.lastId saved.receipts
    (saved.receipts.map (.receipt ·.keyHash) ++ [.saved saved])

/-- What a database that holds nothing is first given. -/
def emptySnapshot (config : Config) : Snapshot PathBuf := ⟨0, [], config, [], []⟩

/-- `Manager::open`, with what the database then holds. -/
def openQueue (config : Config) (first : Fate) (keyOf : JobId → Except ManagerError PathBuf)
    (file : Option Bytes) : Option Bytes × Except ManagerError (Actor PathBuf) :=
  match config.validate with
  | .error error => (file, .error error)
  | .ok () =>
    match file with
    | some bytes => (file, decode U P sha256 bytes >>= recover U P keyOf file)
    | none =>
      match saveSnapshot P sha256 first (emptySnapshot config) none with
      | (file, .error error) => (file, .error error)
      | (file, .ok ()) => (file, recover U P keyOf file (emptySnapshot config))

end Open

end Actor

end Library

end Fhd.DownloadEngine
