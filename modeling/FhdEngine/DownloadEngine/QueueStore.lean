import FhdEngine.DownloadEngine.Options
import FhdEngine.Library.Reading

/-!
# The saved queue

`crates/download-engine/src/queue_store.rs`: the snapshot of a manager, and its bytes. `encode` writes version
3; `decode` reads all versions, checks every limit again, and refuses the whole queue if one field is out of
bounds. What the database holds is one blob, the protected bytes; protection is undone as it was done, so a
`QueueStore` is the bytes themselves.
-/

namespace Fhd.DownloadEngine

open Reading (Reader bytesOf numberOf failIf)

structure JobId where
  value : UInt64
deriving DecidableEq, Repr

/-- Non-preemptive scheduling priority. Equal priorities retain queue order. -/
inductive Priority
  | low
  | normal
  | high
deriving DecidableEq, Repr

inductive State
  | queued
  | running
  | pausing
  | paused
  | completed
  | failed (error : Error)
  | retryWaiting
deriving DecidableEq, Repr

structure Receipt where
  keyHash : Digest
  payloadHash : Digest
  jobId : JobId
  removed : Bool
deriving DecidableEq, Repr

structure SavedJob (PathBuf : Type) where
  id : JobId
  options : Options PathBuf
  priority : Priority
  state : State
  progress : UInt64
  attempts : UInt8
deriving DecidableEq

structure Snapshot (PathBuf : Type) where
  lastId : UInt64
  receipts : List Receipt
  config : Config
  jobs : List (SavedJob PathBuf)
  queue : List JobId
deriving DecidableEq

def maxBlob : ℕ := 64 * 1024 * 1024
def maxPlain : ℕ := 48 * 1024 * 1024
def maxReceipts : ℕ := 4096

/-! ### Writing -/

def put (value : UInt64) : Bytes := bytesOf 8 value.toNat

/-- A length or a count. -/
def putLen (n : ℕ) : Bytes := put (.ofNat n)

def putString (value : String) : Bytes := putLen value.utf8ByteSize ++ utf8 value

/-- None is written as zero. -/
def putOption (value : Option UInt64) : Bytes := put (value.getD 0)

def putBool (value : Bool) : Bytes := [if value then 1 else 0]

def putHash (value : Option Digest) : Bytes :=
  putBool value.isSome ++ value.elim [] Vector.toList

def Priority.code : Priority → UInt8
  | .low => 0
  | .normal => 1
  | .high => 2

def State.code : State → UInt8
  | .queued => 0
  | .running => 1
  | .pausing => 2
  | .paused => 3
  | .completed => 4
  | .failed _ => 5
  | .retryWaiting => 6

def magic (version : UInt8) : Bytes := utf8 "FHDQUEUE" ++ [version]

section Paths

variable {Url UrlOrigin PathBuf : Type} (U : UrlLibrary Url UrlOrigin) (P : Paths PathBuf)
  (sha256 : Bytes → Digest)

def putPolicy (policy : RequestPolicy) : Bytes :=
  putString (policy.authorization.getD "") ++ putString (policy.cookie.getD "") ++
    putLen policy.redirectOrigins.length ++ policy.redirectOrigins.flatMap putString

/-- Frozen queue v2/v3 and admission payload v1 layout. -/
def encodeOptionsV2 (options : Options PathBuf) : Except ManagerError Bytes :=
  match P.toStr options.jobDir with
  | none => .error .invalidPath
  | some jobDir =>
    .ok (putString options.url ++ putString jobDir ++ putString options.outputName ++
      putHash options.expectedSha256 ++ putBool options.allowHttp ++ put options.checkpointBytes ++
      put options.maxDownloadBytes ++ putOption options.bytesPerSecond ++ [options.parallelConnections] ++
      putPolicy options.requestPolicy ++ putHash options.refreshFrom)

def putConfig (c : Config) : Bytes :=
  putLen c.maxActive ++ putLen c.maxJobs ++ putLen c.maxPerOrigin ++
    putLen c.retry.maxAttempts.toNat ++ put c.retry.initialDelayMs ++ put c.retry.maxDelayMs ++
    putOption c.globalBytesPerSecond

/-- Failure categories are intentionally not interpreted as fresh authority. Recovered failures remain failed
until an explicit resume. -/
def encodeJob (job : SavedJob PathBuf) : Except ManagerError Bytes :=
  (fun options ↦ put job.id.value ++ options ++ [job.priority.code] ++ [job.state.code] ++ put job.progress ++
    [job.attempts]) <$> encodeOptionsV2 P job.options

def putReceipt (receipt : Receipt) : Bytes :=
  receipt.keyHash.toList ++ receipt.payloadHash.toList ++ put receipt.jobId.value ++ putBool receipt.removed

/-- The bytes before their digest. -/
def encodePlain (snapshot : Snapshot PathBuf) : Except ManagerError Bytes := do
  let jobs ← snapshot.jobs.mapM (encodeJob P)
  if snapshot.receipts.length > maxReceipts then throw .receiptCapacity
  return magic 3 ++ putConfig snapshot.config ++ put snapshot.lastId ++ putLen snapshot.jobs.length ++
    jobs.flatten ++ putLen snapshot.queue.length ++ snapshot.queue.flatMap (fun id ↦ put id.value) ++
    putLen snapshot.receipts.length ++ snapshot.receipts.flatMap putReceipt

def encode (snapshot : Snapshot PathBuf) : Except ManagerError Bytes := do
  let bytes ← encodePlain P snapshot
  if bytes.length > maxPlain then throw .capacity
  return bytes ++ (sha256 bytes).toList

/-! ### Reading -/

namespace Reader

def take (count : ℕ) : Reader UInt8 ManagerError Bytes := Reading.take .persistence count

def byte : Reader UInt8 ManagerError UInt8 := (·.headD 0) <$> take 1

def n : Reader UInt8 ManagerError UInt64 := (fun bytes ↦ .ofNat (numberOf bytes)) <$> take 8

def bounded (max : ℕ) : Reader UInt8 ManagerError ℕ := do
  let n ← n
  failIf (n.toNat > max) .persistence
  return n.toNat

def string (max : ℕ) : Reader UInt8 ManagerError String := do
  let n ← bounded max
  let bytes ← take n
  Reading.ofExcept ((fromUtf8 bytes).elim (.error .persistence) .ok)

def option : Reader UInt8 ManagerError (Option UInt64) := (fun n ↦ if n ≠ 0 then some n else none) <$> n

def boolean : Reader UInt8 ManagerError Bool := do
  match ← byte with
  | 0 => return false
  | 1 => return true
  | _ => throw .persistence

def digest : Reader UInt8 ManagerError Digest := do
  let bytes ← take 32
  if h : bytes.toArray.size = 32 then return ⟨bytes.toArray, h⟩ else throw .persistence

def hash : Reader UInt8 ManagerError (Option Digest) := do
  if ← boolean then some <$> digest else return none

def priority : Reader UInt8 ManagerError Priority := do
  match ← byte with
  | 0 => return .low
  | 1 => return .normal
  | 2 => return .high
  | _ => throw .persistence

def state : Reader UInt8 ManagerError State := do
  match ← byte with
  | 0 => return .queued
  | 1 => return .running
  | 2 => return .pausing
  | 3 => return .paused
  | 4 => return .completed
  | 5 => return .failed .workerFailed
  | 6 => return .retryWaiting
  | _ => throw .persistence

def config : Reader UInt8 ManagerError Config := do
  let maxActive ← bounded 32
  let maxJobs ← bounded 1024
  let maxPerOrigin ← bounded 32
  let maxAttempts ← bounded 5
  let initialDelayMs ← n
  let maxDelayMs ← n
  let globalBytesPerSecond ← option
  let config : Config :=
    ⟨maxActive, maxJobs, maxPerOrigin, ⟨.ofNat maxAttempts, initialDelayMs, maxDelayMs⟩, globalBytesPerSecond⟩
  Reading.ofExcept config.validate
  return config

def policy : Reader UInt8 ManagerError RequestPolicy := do
  let auth ← string 8192
  let cookie ← string 8192
  let count ← bounded 8
  let origins ← Reading.times (string 16384) count
  Reading.ofExcept
    ((RequestPolicy.new U (if auth ≠ "" then some auth else none) (if cookie ≠ "" then some cookie else none)
      origins).mapError fun _ ↦ .persistence)

/-- The first version had neither a policy nor a refreshed identity. -/
def options (version : Bytes) : Reader UInt8 ManagerError (Options PathBuf) := do
  let url ← string 16384
  let jobDir ← string 131072
  let outputName ← string 255
  let expectedSha256 ← hash
  let allowHttp ← boolean
  let checkpointBytes ← n
  let maxDownloadBytes ← n
  let bytesPerSecond ← option
  let parallelConnections ← byte
  let options : Options PathBuf :=
    ⟨url, P.ofStr jobDir, outputName, expectedSha256, allowHttp, checkpointBytes, maxDownloadBytes,
      bytesPerSecond, parallelConnections, .default, none⟩
  if version ≠ magic 1 then
    let requestPolicy ← policy U
    let refreshFrom ← hash
    return { options with requestPolicy, refreshFrom }
  else return options

/-- A job; the list holds the jobs before it. -/
def job (version : Bytes) (jobs : List (SavedJob PathBuf)) : Reader UInt8 ManagerError (SavedJob PathBuf) := do
  let id ← n
  failIf (id = 0 ∨ ∃ job ∈ jobs, job.id = ⟨id⟩) .persistence
  let options ← options U P version
  let priority ← priority
  let state ← state
  let progress ← n
  let attempts ← byte
  failIf (attempts.toNat > 5 ∨ progress.toNat > options.maxDownloadBytes.toNat) .persistence
  return ⟨⟨id⟩, options, priority, state, progress, attempts⟩

def jobs (version : Bytes) (count : ℕ) : Reader UInt8 ManagerError (List (SavedJob PathBuf)) :=
  Reading.each (job U P version) count []

/-- A place in the queue, which is that of one job only. -/
def queued (jobs : List (SavedJob PathBuf)) (queue : List JobId) : Reader UInt8 ManagerError JobId := do
  let id ← n
  failIf (⟨id⟩ ∈ queue ∨ ¬∃ job ∈ jobs, job.id = ⟨id⟩) .persistence
  return ⟨id⟩

def queue (jobs : List (SavedJob PathBuf)) (count : ℕ) : Reader UInt8 ManagerError (List JobId) :=
  Reading.each (queued jobs) count []

/-- A receipt, which is removed exactly if its job is. -/
def receipt (jobs : List (SavedJob PathBuf)) (receipts : List Receipt) :
    Reader UInt8 ManagerError Receipt := do
  let keyHash ← digest
  let payloadHash ← digest
  let jobId ← n
  let removed ← boolean
  failIf (jobId = 0 ∨ (∃ receipt ∈ receipts, receipt.keyHash = keyHash ∨ receipt.jobId = ⟨jobId⟩) ∨
    removed = decide (∃ job ∈ jobs, job.id = ⟨jobId⟩)) .persistence
  return ⟨keyHash, payloadHash, ⟨jobId⟩, removed⟩

def receipts (jobs : List (SavedJob PathBuf)) (count : ℕ) : Reader UInt8 ManagerError (List Receipt) :=
  Reading.each (receipt jobs) count []

/-- Everything up to the end; the first version had no last identity. -/
def snapshot : Reader UInt8 ManagerError (Option UInt64 × Snapshot PathBuf) := do
  let version ← take 9
  failIf (version ≠ magic 1 ∧ version ≠ magic 2 ∧ version ≠ magic 3) .persistence
  let config ← config
  let savedLastId ← if version ≠ magic 1 then some <$> n else pure none
  let count ← bounded config.maxJobs
  let jobs ← jobs U P version count
  let count ← bounded jobs.length
  let queue ← queue jobs count
  let receipts ←
    if version = magic 3 then do
      let count ← bounded maxReceipts
      receipts jobs count
    else pure []
  return (savedLastId, ⟨0, receipts, config, jobs, queue⟩)

end Reader

/-- The largest identity of a job. -/
def maximumId (jobs : List (SavedJob PathBuf)) : UInt64 := (jobs.map (·.id.value)).foldr max 0

def decode (bytes : Bytes) : Except ManagerError (Snapshot PathBuf) := do
  if bytes.length < 41 ∨ bytes.length > maxPlain + 32 then throw .persistence
  let plain := bytes.take (bytes.length - 32)
  if (sha256 plain).toList ≠ bytes.drop (bytes.length - 32) then throw .persistence
  let ((savedLastId, snapshot), rest) ← (Reader.snapshot U P).run plain
  if rest ≠ [] then throw .persistence
  let maximum := maximumId snapshot.jobs
  let lastId := savedLastId.getD maximum
  if lastId < maximum ∨ ∃ receipt ∈ snapshot.receipts, receipt.jobId.value > lastId then throw .persistence
  return { snapshot with lastId }

end Paths

end Fhd.DownloadEngine
