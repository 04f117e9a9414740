import FhdEngine.Library.Process
import FhdEngine.Application.Storage
import FhdEngine.Application.Transport

/-!
# What a session asks of the world

The coordinator of `crates/runtime/src/coordinator.rs` drives a job through the ports it is given. Here
is every question it asks, `Port`, with the answers each may get, `Answer`. A session is then a program
over these calls (`FhdEngine.Runtime.Session`), and whatever a repository, a store, a server or a user
may do is a choice of answers.

Two waits carry what may arrive in their type. A session that has closed its control channel cannot
be told a control, and a worker that reports is one of those that run.
-/

namespace Fhd

inductive Control
  | pause
  | cancel
deriving DecidableEq, Repr

inductive WriterError
  | invalidCapacity
  | wrongGeneration
  | bounds
  | cancelled
  | closed
  | workerFailed
  | storage (error : StorageError)
deriving DecidableEq, Repr

inductive SessionEnd
  /-- The job rests in this state; the scheduler decides what happens next. -/
  | settled (state : JobState)
  /-- Verified and published at this path; the job is completed. -/
  | published (path : Path)
deriving DecidableEq, Repr

inductive RunError
  | invalidConfig
  | notRunnable (state : JobState)
  | domain (error : DomainError)
  /-- The repository refused or could not confirm a commit. -/
  | commit (error : CommitError)
  | repository
  | writer (error : WriterError)
  | storage (error : StorageError)
  /-- Internal bookkeeping disagreed with itself. -/
  | invariant
deriving DecidableEq, Repr

/-- How a worker may end other than well. -/
inductive Failure
  | cancelled
  | transport (error : TransportError)
  | writer (error : WriterError)
  | panicked
deriving DecidableEq, Repr

/-- What a session tells the governor about its origin. -/
inductive Note
  | succeeded (now : ℕ)
  | throttled (retryAfterMs : Option ℕ) (now : ℕ)
  | failed (now : ℕ)
deriving DecidableEq, Repr

/-- What ends the wait for a probe. -/
inductive ProbeEvent (controlOpen : Bool)
  | probe (result : Except TransportError Probe)
  | control (isOpen : controlOpen = true) (message : Option Control)

/-- A worker that ended, by its place among those that run. -/
structure WorkerDone (workers : List ℕ) where
  place : Fin workers.length
  outcome : Except Failure Unit

/-- What ends the wait of the transfer loop. -/
inductive TransferEvent (workers : List ℕ) (controlOpen : Bool)
  | worker (done : WorkerDone workers)
  | control (isOpen : controlOpen = true) (message : Option Control)

/-- A call on a blocking thread: `none` when the thread panicked. -/
abbrev Blocking (α : Type) := Option (Except StorageError α)

/-- What moving a job calls, in a session and outside of one. -/
inductive JobPort
  | commitTransition (event : JobEvent)
  | partsFor (destination : DestinationRef)
  /-- Opens, abandons and discards a part, on a blocking thread. -/
  | dropPart (directory : Path) (spec : PartSpec)

def JobAnswer : JobPort → Type
  | .commitTransition _ => Except CommitError Unit
  | .partsFor _ => Except AppError Path
  | .dropPart _ _ => Blocking Unit

/-- Everything a session calls. -/
inductive Port
  | job (op : JobPort)
  /- the repository -/
  | commitExtents (job : JobId) (generation : Generation) (extents : List DurableExtent)
  | durableExtents (job : JobId)
  | publishIntent (job : JobId)
  | recordPublishIntent (intent : PublishIntent)
  /- the destinations -/
  | resolve (destination : DestinationRef)
  /- the store, on a blocking thread -/
  | obtainPart (directory : Path) (spec : PartSpec) (extents : List DurableExtent)
  | inspect (destination : Path) (expectedSize : ℕ)
  /- the writer lane, which owns the part while it lives -/
  | startWriter (capacity : ℕ)
  | sync
  | hash (range : ByteRange)
  | verify (expected : Option Digest) (record : List (ByteRange × Digest))
  | publish (destination : Path)
  | discard (abandon : Bool)
  | shutdown
  /- the network workers -/
  | awaitProbe (source : SourceRef) (controlOpen : Bool)
  | spawn (worker : ℕ) (lease : Lease) (validator : Option Digest)
  | awaitWorker (workers : List ℕ) (controlOpen : Bool)
  | joinWorker (workers : List ℕ)
  | abortWorkers
  /- everything else -/
  | tryRecv
  | nowMs
  | jitter
  | note (origin : OriginId) (note : Note)
  /-- A loop that has not come to its end yet. -/
  | pending

/-- What each call may be answered. -/
def Answer : Port → Type
  | .job op => JobAnswer op
  | .commitExtents _ _ _ | .recordPublishIntent _ => Except CommitError Unit
  | .durableExtents _ => Except AppError (List DurableExtent)
  | .publishIntent _ => Except AppError (Option PublishIntent)
  | .resolve _ => Except AppError Path
  | .obtainPart _ _ _ => Blocking Unit
  | .inspect _ _ => Blocking (Option Occupant)
  | .startWriter _ | .sync | .discard _ | .shutdown => Except WriterError Unit
  | .hash _ | .verify _ _ => Except WriterError Digest
  | .publish _ => Except WriterError Path
  | .awaitProbe _ controlOpen => ProbeEvent controlOpen
  | .spawn _ _ _ | .abortWorkers | .note _ _ => Unit
  | .awaitWorker workers controlOpen => TransferEvent workers controlOpen
  | .joinWorker workers => WorkerDone workers
  | .tryRecv => Option Control
  | .nowMs | .jitter => ℕ
  | .pending => Empty

/-- The control an answer brings. -/
def brings : (op : Port) → Answer op → Option Control
  | .awaitProbe _ _, .control _ message => message
  | .awaitWorker _ _, .control _ message => message
  | .tryRecv, message => message
  | _, _ => none

end Fhd
