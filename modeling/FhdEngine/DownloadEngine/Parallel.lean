import FhdEngine.DownloadEngine.Responses
import FhdEngine.Http.Stream
import FhdEngine.Library.Routine
import FhdEngine.TransferStore.Store

/-!
# A transfer over several connections

`crates/download-engine/src/parallel.rs` and the end of `download_controlled` in
`crates/download-engine/src/lib.rs`, from the first validated response on.

A task that fetches a range only talks to the network, so what a running task does is not a call of the
transfer. The transfer waits for its outcome, which is whatever `Fetch.range` may return. Reports of what
is committed carry a byte count only.
-/

namespace Fhd.DownloadEngine

open Process (Routine)
open TransferStore (Identity StoreError)

def rangeBytes : ℕ := 256 * 1024

def maxSlice : ℕ := 64 * 1024

/-- `slice_bytes` under the limits of the job and of the manager. -/
def sliceBytes (limits : List ℕ) : ℕ :=
  ((limits.map fun n ↦ max 1 (min (n / 10) maxSlice)).min?).getD maxSlice

/-- `chunks(n)`. -/
def slices (n : ℕ) (bytes : Bytes) : List Bytes :=
  if n = 0 ∨ bytes = [] then [] else bytes.take n :: slices n (bytes.drop n)
termination_by bytes.length
decreasing_by
  have : bytes.length ≠ 0 := by
    rw [Ne, List.length_eq_zero_iff]
    tauto
  rw [List.length_drop]
  omega

/-- `storage_error`. -/
def storageError : StoreError → Error
  | .unsupportedVersion => .unsupportedStorageVersion
  | .io kind => .storageIo kind
  | .locked => .storageLocked
  | .collision => .destinationConflict
  | .corrupt => .storedDataCorrupt
  | .hashMismatch => .checksumMismatch
  | _ => .storage

/-- `disk`: a blocking job that did not panic. -/
def disk {α : Type} : Option (Except StoreError α) → Except Error α
  | none => .error .workerFailed
  | some (.error e) => .error (storageError e)
  | some (.ok a) => .ok a

/-! ### One range -/

/-- What a task that fetches a range is given. -/
structure Fetch where
  total : ℕ
  etag : String
  fingerprint : Digest
deriving DecidableEq, Repr

inductive NetPort
  /-- A request for this range, if the entity tag is still the same. -/
  | request (start stop : ℕ) (etag : String)
  /-- Whether the wait for the next chunk was cancelled. -/
  | cancelled
  | limits
  | pace (bytes : ℕ)

def NetAnswer (Url : Type) : NetPort → Type
  | .request .. => Except Error (Response Url × Body)
  | .cancelled => Bool
  | .limits => List ℕ
  | .pace _ => Except Error Unit

abbrev NetM (Url : Type) := Routine Error Unit NetPort (NetAnswer Url)

section Fetch

variable {Url : Type} (asStr : Url → String) (sha256 : Bytes → Digest)

/-- `transfer_store::url_fingerprint` of where the response came from. -/
def finalFingerprint (url : Url) : Digest := sha256 (utf8 "FHD.url-identity.v2" ++ [0] ++ utf8 (asStr url))

/-- The status of a response that is not read. -/
def statusError (response : Response Url) : Error :=
  if response.headers.getAll .retryAfter ≠ [] then .serverBackoff response.status.toUInt16
  else .httpStatus response.status.toUInt16

/-- Whether the response is a range to be read. A whole representation is not, and nothing else is let through. -/
def Fetch.check (f : Fetch) (start stop : ℕ) (response : Response Url) : Except Error Bool := do
  if response.status ≠ 200 ∧ response.status ≠ 206 then throw (statusError response)
  validateRepresentation response.headers
  if finalFingerprint asStr sha256 response.url ≠ f.fingerprint then throw .representationChanged
  if field response.headers .etag ≠ .single (utf8 f.etag) then throw .representationChanged
  if response.status = 200 then
    if (← contentLength response.headers) ≠ f.total ∨ response.headers.getAll .contentRange ≠ [] then
      throw .representationChanged
    return false
  match ResumePolicy.parseEtag (utf8 f.etag) with
  | .error _ => throw .resumeUnsupported
  | .ok tag =>
    match ResumePolicy.ResumeRequest.new start stop f.total tag with
    | .error _ => throw .resumeRejected
    | .ok expected =>
      match ResumePolicy.evaluate expected response.status (responseHeaders response.headers) with
      | .readRange _ => return true
      | _ => throw .resumeRejected

/-- `consume`. -/
def NetM.consume (bytes : ℕ) : NetM Url Unit :=
  if bytes > maxSlice then throw .invalidOptions
  else if bytes = 0 then return ()
  else do
    let paid : Except Error Unit ← Routine.ask (NetPort.pace bytes)
    MonadExcept.ofExcept paid

def NetM.takeSlices : List Bytes → Bytes → NetM Url Bytes
  | [], bytes => return bytes
  | slice :: slices, bytes => do
    NetM.consume slice.length
    takeSlices slices (bytes ++ slice)

/-- The body of a range, which must have exactly this length. -/
def NetM.readBody (length : ℕ) (body : Body) (bytes : Bytes) : NetM Url Bytes := do
  let cancelled : Bool ← Routine.ask NetPort.cancelled
  if cancelled then throw .cancelled
  match body with
  | .late => throw .network
  | .broken _ => throw .network
  | .ended => if bytes.length ≠ length then throw .bodyLength else return bytes
  | .chunk chunk rest =>
    if chunk.length > length - bytes.length then throw .bodyLength
    let limits : List ℕ ← Routine.ask NetPort.limits
    let bytes ← NetM.takeSlices (slices (sliceBytes limits) chunk) bytes
    readBody length rest bytes
termination_by structural body

/-- Nothing if the whole representation was answered instead. -/
def Fetch.range (f : Fetch) (start stop : ℕ) : NetM Url (Option Bytes) := do
  let answer : Except Error (Response Url × Body) ← Routine.ask (NetPort.request start stop f.etag)
  let (response, body) ← MonadExcept.ofExcept answer
  if ← MonadExcept.ofExcept (f.check asStr sha256 start stop response) then
    some <$> NetM.readBody (stop - start) body []
  else return none

end Fetch

/-! ### The transfer -/

/-- What a transfer sees of its open store. -/
structure Handle where
  identity : Identity
  len : ℕ
  committed : ℕ
deriving DecidableEq

inductive TransferPort
  | isCancelled
  | limits
  | pace (bytes : ℕ)
  /-- The outcome of a range that is waited for at once. -/
  | range (f : Fetch) (range : ℕ × ℕ)
  | spawn (f : Fetch) (ranges : List (ℕ × ℕ))
  /-- Which of these tasks ends next. -/
  | join (f : Fetch) (running : List ((ℕ × ℕ) × ℕ))
  | append (bytes : Bytes)
  | checkpoint
  | report (committed : ℕ)
  /-- `mark_transfer_complete` and `finalize`. -/
  | complete

/-- A task that panicked has no outcome, and neither has a blocking job that did. -/
def TransferAnswer : TransferPort → Type
  | .isCancelled => Bool
  | .limits => List ℕ
  | .pace _ => Except Error Unit
  | .range .. => Except Error (Option Bytes)
  | .spawn .. => Unit
  | .join _ running => { task // task ∈ running } × Option (Except Error (Option Bytes))
  | .append _ => Option (Except StoreError Unit)
  | .checkpoint => Option (Except StoreError Unit)
  | .report _ => Unit
  | .complete => Option (Except StoreError Path)

abbrev TransferM := Routine Error Handle TransferPort TransferAnswer

namespace TransferM

def isCancelled : TransferM Bool := Routine.ask TransferPort.isCancelled

def store (bytes : Bytes) : TransferM Unit := do
  let h ← get
  Routine.failIf ((checkedAdd h.len bytes.length).all (· > h.identity.total)) (storageError .invalidInput)
  let done : Option (Except StoreError Unit) ← Routine.ask (TransferPort.append bytes)
  MonadExcept.ofExcept (disk done)
  modify fun h ↦ { h with len := h.len + bytes.length }

def checkpoint : TransferM Unit := do
  let done : Option (Except StoreError Unit) ← Routine.ask TransferPort.checkpoint
  MonadExcept.ofExcept (disk done)
  modify fun h ↦ { h with committed := h.len }

def report : TransferM Unit := do
  let h ← get
  Routine.ask (TransferPort.report h.committed)

/-- Commits what is there and gives up. -/
def giveUp (error : Error) : TransferM Unit := do
  checkpoint
  report
  throw error

/-- One blocking job, and a report if it committed. -/
def storeAndReport (threshold : ℕ) (bytes : Bytes) : TransferM Unit := do
  store bytes
  let h ← get
  if h.len - h.committed ≥ threshold then checkpoint
  let h ← get
  if h.len = h.committed then report

/-- `append` of one range. -/
def append (threshold : ℕ) (bytes : Bytes) : TransferM Unit := do
  if ← isCancelled then giveUp .cancelled
  storeAndReport threshold bytes

/-- What a task that ended has brought, or why its window fails. -/
def outcome : Option (Except Error (Option Bytes)) → Except Error Bytes
  | some (.ok (some bytes)) => .ok bytes
  | some (.ok none) => .error .resumeRejected
  | some (.error error) => .error error
  | none => .error .workerFailed

/-- Waits for all of them. The first failure aborts the others, which never touch the disk. -/
def joinAll (f : Fetch) (running : List ((ℕ × ℕ) × ℕ)) (results : List (ℕ × Bytes)) :
    TransferM (List (ℕ × Bytes)) :=
  if running = [] then return results
  else do
    let ended : { task // task ∈ running } × Option (Except Error (Option Bytes)) ←
      Routine.ask (TransferPort.join f running)
    match outcome ended.2 with
    | .error error =>
      giveUp error
      return results
    | .ok bytes => joinAll f (running.erase ended.1) (results ++ [(ended.1.1.2, bytes)])
termination_by running.length
decreasing_by
  have hmem := ended.1.2
  have := List.length_erase_of_mem hmem
  have := List.length_pos_of_mem hmem
  omega

def appendAll (threshold : ℕ) : List (ℕ × Bytes) → TransferM Unit
  | [] => return ()
  | result :: results => do
    append threshold result.2
    appendAll threshold results

end TransferM

/-- Where the range that starts here ends. -/
def rangeEnd (total offset : ℕ) : ℕ := offset + min rangeBytes (total - offset)

/-- The ranges of one window, at most so many. -/
def window (total : ℕ) : ℕ → ℕ → List (ℕ × ℕ)
  | 0, _ => []
  | connections + 1, offset =>
    if offset = total then [] else (offset, rangeEnd total offset) :: window total connections (rangeEnd total offset)

/-- Where a window ends. -/
def windowEnd (total : ℕ) : ℕ → ℕ → ℕ
  | 0, offset => offset
  | connections + 1, offset =>
    if offset = total then offset else windowEnd total connections (rangeEnd total offset)

theorem lt_rangeEnd {total offset : ℕ} (h : offset < total) : offset < rangeEnd total offset := by
  rw [rangeEnd, rangeBytes]
  omega

theorem le_windowEnd (total connections offset : ℕ) : offset ≤ windowEnd total connections offset := by
  induction connections generalizing offset with
  | zero => exact Nat.le_refl _
  | succ connections ih =>
    rw [windowEnd]
    split
    · exact Nat.le_refl _
    · exact (Nat.le_add_right _ _).trans (ih _)

theorem lt_windowEnd {total connections offset : ℕ} (h : offset < total) (hconnections : 0 < connections) :
    offset < windowEnd total connections offset := by
  cases connections with
  | zero => omega
  | succ connections =>
    rw [windowEnd, if_neg h.ne]
    exact (lt_rangeEnd h).trans_le (le_windowEnd _ _ _)

/-- How a transfer runs; the options were validated. -/
structure Plan where
  connections : ℕ
  checkpointBytes : ℕ
  connections_pos : 0 < connections

/-- Window after window, each with as many tasks as there are connections. -/
def windowsFrom (plan : Plan) (f : Fetch) (offset : ℕ) : TransferM Unit :=
  if offset < f.total then do
    Routine.ask (TransferPort.spawn f (window f.total plan.connections offset))
    let results ← TransferM.joinAll f (window f.total plan.connections offset).zipIdx []
    TransferM.appendAll plan.checkpointBytes (results.mergeSort (·.1 ≤ ·.1))
    windowsFrom plan f (windowEnd f.total plan.connections offset)
  else return ()
termination_by f.total - offset
decreasing_by
  have := lt_windowEnd ‹offset < f.total› plan.connections_pos
  omega

/-- `parallel::transfer`. What it returns is the original response, kept until ranges are proven to work. -/
def transfer (plan : Plan) (response : Body) : TransferM (Option Body) := do
  let h ← get
  match h.identity.strongEtag with
  | none => throw .resumeUnsupported
  | some etag =>
    let f : Fetch := ⟨h.identity.total, etag, h.identity.finalUrlFingerprint⟩
    let first : Except Error (Option Bytes) ← Routine.ask (TransferPort.range f (h.len, rangeEnd f.total h.len))
    match ← MonadExcept.ofExcept first with
    -- A 200 response is never appended as range data.
    | none => return some response
    | some bytes =>
      TransferM.append plan.checkpointBytes bytes
      windowsFrom plan f (rangeEnd f.total h.len)
      return none

/-! ### The sequential tail -/

/-- `consume`, with its error as a value. -/
def TransferM.consume (bytes : ℕ) : TransferM (Except Error Unit) :=
  if bytes > maxSlice then return .error .invalidOptions
  else if bytes = 0 then return .ok ()
  else Routine.ask (TransferPort.pace bytes)

/-- The slices of one chunk. -/
def storeSlices (plan : Plan) : List Bytes → TransferM Unit
  | [] => return ()
  | slice :: slices => do
    match ← TransferM.consume slice.length with
    | .error error => TransferM.giveUp error
    | .ok () =>
      if ← TransferM.isCancelled then TransferM.giveUp .cancelled
      TransferM.storeAndReport plan.checkpointBytes slice
      storeSlices plan slices

/-- The original response, chunk by chunk, to what was received of it in all. -/
def drain (plan : Plan) (total received : ℕ) (body : Body) : TransferM ℕ := do
  if ← TransferM.isCancelled then TransferM.giveUp .cancelled
  match body with
  | .ended => return received
  | .late => do
    TransferM.giveUp .network
    return received
  | .broken _ => do
    TransferM.giveUp .network
    return received
  | .chunk chunk rest =>
    match checkedAdd received chunk.length with
    | none => throw .bodyLength
    | some received =>
      if received > total then throw .bodyLength
      let limits : List ℕ ← Routine.ask TransferPort.limits
      storeSlices plan (slices (sliceBytes limits) chunk)
      drain plan total received rest
termination_by structural body

structure Outcome where
  bytes : ℕ
  resumedFrom : ℕ
  path : Path
deriving DecidableEq, Repr

/-- `download_controlled` from its first validated response on, whose body this is. -/
def finishDownload (plan : Plan) (start : ℕ) (response : Body) : TransferM Outcome := do
  let h ← get
  let total := h.identity.total
  let (response, received) ←
    if plan.connections > 1 ∧ total - start > rangeBytes ∧ h.identity.strongEtag.isSome then do
      let response ← transfer plan response
      let h ← get
      pure (response, h.len)
    else pure (some response, start)
  let received ←
    match response with
    | none => pure received
    | some response => drain plan total received response
  if received ≠ total then throw .bodyLength
  if ← TransferM.isCancelled then TransferM.giveUp .cancelled
  let done : Option (Except StoreError Path) ← Routine.ask TransferPort.complete
  let path ← MonadExcept.ofExcept (disk done)
  return ⟨total, start, path⟩

end Fhd.DownloadEngine
