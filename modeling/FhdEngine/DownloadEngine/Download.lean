import FhdEngine.DownloadCore.State
import FhdEngine.DownloadEngine.Parallel
import FhdEngine.DownloadEngine.Requests
import FhdEngine.Library.Simulation

/-!
# One download

`download_controlled` of `crates/download-engine/src/lib.rs`, and `unknown.rs` for a body of unknown length, in the
order of the source: what is checked of the options, of the store that is there, of the response, and what is then
created, appended and completed.

The directory, its space, the store and the network are what a download calls (`DownloadPort`). A transfer is a part of
it, with the open store as its state. The job of `FhdEngine.DownloadCore.State` is local to the download, and never
refuses what it is told (`finishTransfer_eq`).
-/

namespace Fhd.DownloadEngine

open DownloadCore (Download)
open Process (Routine)
open TransferStore (Identity Status StoreError)

/-- What a download sees of the store it opened. -/
structure Opened where
  identity : Identity
  output : String
  status : Status
  unknownLength : Bool
  committed : ℕ
deriving DecidableEq, Repr

inductive DownloadPort (Url PathBuf : Type)
  /-- Whether the client could be built. -/
  | buildClient
  | isCancelled
  | tryExists
  /-- `Store::open` of the directory of the job. -/
  | openStore
  /-- `before_transfer`, of the absolute path of this directory. -/
  | beforeTransfer (directory : PathBuf) (bytes : ℕ)
  | send (request : Request Url)
  /-- `Store::create`, or `Store::create_unknown`. -/
  | create (identity : Identity) (output : String) (unknown : Bool)
  | rebindUrls (original final : Digest)
  | finalize
  /-- `mark_unknown_transfer_complete` and `finalize`. -/
  | completeUnknown
  | transfer (port : TransferPort)

/-- A blocking job that panicked has no outcome. -/
def DownloadAnswer (Url PathBuf : Type) : DownloadPort Url PathBuf → Type
  | .buildClient => Bool
  | .isCancelled => Bool
  | .tryExists => Except ErrorKind Bool
  | .openStore => Option (Except StoreError Opened)
  | .beforeTransfer _ _ => Except Error Unit
  | .send _ => Exchange Url
  | .create _ _ _ => Option (Except StoreError Unit)
  | .rebindUrls _ _ => Option (Except StoreError Unit)
  | .finalize => Option (Except StoreError Path)
  | .completeUnknown => Option (Except StoreError Path)
  | .transfer port => TransferAnswer port

abbrev DownloadM (Url PathBuf : Type) := Routine Error Unit (DownloadPort Url PathBuf) (DownloadAnswer Url PathBuf)

/-! ### The job of a download -/

/-- `event`. -/
def jobEvent (job : Download) (event : DownloadCore.Event) : Except Error Download :=
  (job.event job.attempt event).mapError fun _ ↦ .invalidTransition

/-- A job that was started. -/
def startJob : Except Error Download :=
  ((Download.new 1).command .start).mapError fun _ ↦ .invalidTransition

/-! ### Reading a response -/

/-- The strong entity tag of a new store. A tag that is not strong is as good as none. -/
def storableEtag (headers : HeaderMap) : Except Error (Option String) :=
  match field headers .etag with
  | .missing => .ok none
  | .repeated => .error .invalidHeaders
  | .single value =>
    if value.length > maxField then .error .invalidHeaders
    else
      match ResumePolicy.parseEtag value with
      | .error _ => .ok none
      | .ok _ =>
        match fromUtf8 value with
        | none => .error .invalidHeaders
        | some text => .ok (some text)

/-- `validate_framing`: the end of a body of unknown length must be told from an interruption. -/
def validateFraming {Url : Type} (answered : Answered Url) : Except Error Unit :=
  if answered.response.headers.getAll .contentLength ≠ [] then .error .invalidHeaders
  else
    match answered.version, field answered.response.headers .transferEncoding with
    | .http11, .single value =>
      if eqIgnoreAsciiCase value (ascii "chunked") then .ok () else .error .invalidHeaders
    | .http2, .missing => .ok ()
    | _, _ => .error .invalidHeaders

/-! ### The end of a transfer -/

/-- The end of `download_controlled`, with what its job is told. -/
def finishTransfer (plan : Plan) (start : ℕ) (response : Body) (job : Download) : TransferM Outcome := do
  let h ← get
  let total := h.identity.total
  let (response, received) ←
    if plan.connections > 1 ∧ total - start > rangeBytes ∧ h.identity.strongEtag.isSome then do
      let response ← transfer plan response
      let h ← get
      pure (response, h.len)
    else pure (some response, start)
  let received ←
    match response with
    | none => pure received
    | some response => drain plan total received response
  if received ≠ total then throw .bodyLength
  if ← TransferM.isCancelled then TransferM.giveUp .cancelled
  let job ← MonadExcept.ofExcept (jobEvent job .transferFinished)
  let done : Option (Except StoreError Path) ← Routine.ask TransferPort.complete
  let path ← MonadExcept.ofExcept (disk done)
  let job ← MonadExcept.ofExcept (jobEvent job .verified)
  let _ ← MonadExcept.ofExcept (jobEvent job .publishSucceeded)
  return ⟨total, start, path⟩

/-- **The job never refuses**: with it or without it, a transfer ends the same way. -/
theorem finishTransfer_eq (plan : Plan) (start : ℕ) (response : Body) (attempt : DownloadCore.AttemptToken) :
    finishTransfer plan start response ⟨.downloading, attempt⟩ = finishDownload plan start response := by
  have hevent : ∀ {s s' : DownloadCore.State} {event : DownloadCore.Event}, s.learn event = some s' →
      jobEvent ⟨s, attempt⟩ event = .ok ⟨s', attempt⟩ := by
    intro s s' event hlearn
    have hok : Download.event ⟨s, attempt⟩ attempt event = .ok ⟨s', attempt⟩ :=
      Download.event_eq_ok.2 ⟨rfl, rfl, hlearn⟩
    rw [jobEvent, hok]
    rfl
  have hpass : ∀ {α β : Type} (a : α) (k : α → TransferM β),
      ((MonadExcept.ofExcept (.ok a : Except Error α) : TransferM α) >>= k) = k a := fun a k ↦ rfl
  simp only [finishTransfer, finishDownload, hpass, hevent (rfl : DownloadCore.State.learn .downloading .transferFinished = _),
    hevent (rfl : DownloadCore.State.learn .verifying .verified = _),
    hevent (rfl : DownloadCore.State.learn .publishing .publishSucceeded = _)]
  try rfl

/-! ### A body of unknown length -/

/-- The loop of `unknown::transfer`, to the length of a body that ended. -/
def drainUnknown (plan : Plan) (limit : ℕ) (body : Body) : TransferM ℕ := do
  if ← TransferM.isCancelled then TransferM.giveUp .cancelled
  match body with
  | .ended => do
    if ← TransferM.isCancelled then TransferM.giveUp .cancelled
    let h ← get
    return h.len
  | .late => do
    TransferM.giveUp .network
    return 0
  | .broken _ => do
    TransferM.giveUp .network
    return 0
  | .chunk chunk rest => do
    let h ← get
    if (checkedAdd h.len chunk.length).all (· > limit) then TransferM.giveUp .sizeLimit
    let limits : List ℕ ← Routine.ask TransferPort.limits
    storeSlices plan (slices (sliceBytes limits) chunk)
    drainUnknown plan limit rest
termination_by structural body

/-! ### The download -/

section Download

variable {Url UrlOrigin PathBuf : Type} [DecidableEq UrlOrigin] (U : UrlLibrary Url UrlOrigin)
  (parent : PathBuf → Option PathBuf) (sha256 : Bytes → Digest)

/-- `url_fingerprint`. -/
abbrev fingerprint (url : Url) : Digest := finalFingerprint U.asStr sha256 url

namespace DownloadM

def isCancelled : DownloadM Url PathBuf Bool := Routine.ask (DownloadPort.isCancelled : DownloadPort Url PathBuf)

def unlessCancelled : DownloadM Url PathBuf Unit := do
  if ← isCancelled then throw .cancelled

def openStore : DownloadM Url PathBuf Opened := do
  let done : Option (Except StoreError Opened) ← Routine.ask (DownloadPort.openStore : DownloadPort Url PathBuf)
  MonadExcept.ofExcept (disk done)

def create (identity : Identity) (output : String) (unknown : Bool) : DownloadM Url PathBuf Unit := do
  let done : Option (Except StoreError Unit) ←
    Routine.ask (DownloadPort.create identity output unknown : DownloadPort Url PathBuf)
  MonadExcept.ofExcept (disk done)

def rebindUrls (original final : Digest) : DownloadM Url PathBuf Unit := do
  let done : Option (Except StoreError Unit) ←
    Routine.ask (DownloadPort.rebindUrls original final : DownloadPort Url PathBuf)
  MonadExcept.ofExcept (disk done)

def finalize : DownloadM Url PathBuf Path := do
  let done : Option (Except StoreError Path) ← Routine.ask (DownloadPort.finalize : DownloadPort Url PathBuf)
  MonadExcept.ofExcept (disk done)

def completeUnknown : DownloadM Url PathBuf Path := do
  let done : Option (Except StoreError Path) ← Routine.ask (DownloadPort.completeUnknown : DownloadPort Url PathBuf)
  MonadExcept.ofExcept (disk done)

def beforeTransfer (directory : PathBuf) (bytes : ℕ) : DownloadM Url PathBuf Unit := do
  let enough : Except Error Unit ← Routine.ask (DownloadPort.beforeTransfer directory bytes : DownloadPort Url PathBuf)
  MonadExcept.ofExcept enough

def report (committed : ℕ) : DownloadM Url PathBuf Unit :=
  Routine.ask (DownloadPort.transfer (.report committed) : DownloadPort Url PathBuf)

/-- A transfer on the open store. -/
def transferring {α : Type} (h : Handle) (x : TransferM α) : DownloadM Url PathBuf (α × Handle) :=
  Routine.within DownloadPort.transfer (fun _ answer ↦ answer) h x

/-- A request on the way of a download. -/
def sendPort : RequestPort Url → DownloadPort Url PathBuf
  | .send request => .send request

def sendAnswer : (port : RequestPort Url) → DownloadAnswer Url PathBuf (sendPort port) → RequestAnswer Url port
  | .send _, exchange => exchange

def requesting {α : Type} (x : RequestM Url α) : DownloadM Url PathBuf α :=
  Prod.fst <$> Routine.within sendPort sendAnswer () x

end DownloadM

open DownloadM

/-- The options that are refused at once. -/
def Refused (options : Options PathBuf) : Prop :=
  validLimit options.bytesPerSecond = false ∨
    ¬(1 ≤ options.parallelConnections.toNat ∧ options.parallelConnections.toNat ≤ 8) ∨
    options.checkpointBytes.toNat = 0 ∨ options.checkpointBytes.toNat > 64 * 1024 * 1024 ∨
    options.maxDownloadBytes.toNat = 0 ∨ options.maxDownloadBytes.toNat > i64Max

instance (options : Options PathBuf) : Decidable (Refused options) := inferInstanceAs (Decidable (_ ∨ _))

theorem connections_pos {options : Options PathBuf} (h : ¬Refused options) :
    0 < options.parallelConnections.toNat := by
  rw [Refused, not_or, not_or, not_not] at h
  exact h.2.1.1

/-- The checks of the options. -/
def admitOptions (options : Options PathBuf) : Except Error (Plan × Url) :=
  if h : Refused options then .error .invalidOptions
  else do
    options.requestPolicy.validate U
    if options.refreshFrom.isSome ∧ options.expectedSha256 = none then throw .invalidOptions
    let original ← parseUrl U options.url options.allowHttp
    return (⟨options.parallelConnections.toNat, options.checkpointBytes.toNat, connections_pos h⟩, original)

/-- The store of the directory, if there is one. -/
def openExisting : DownloadM Url PathBuf (Option Opened) := do
  let there : Except ErrorKind Bool ← Routine.ask (DownloadPort.tryExists : DownloadPort Url PathBuf)
  if ← MonadExcept.ofExcept (there.mapError Error.storageIo) then
    some <$> openStore
  else return none

/-- Whether the store is the one of this download. -/
def checkExisting (options : Options PathBuf) (original : Url) (opened : Opened) : Except Error Unit :=
  if (opened.identity.originalUrlFingerprint ≠ fingerprint U sha256 original ∧
        options.refreshFrom ≠ some opened.identity.originalUrlFingerprint) ∨
      opened.identity.expectedSha256 ≠ options.expectedSha256 ∨ opened.output ≠ options.outputName then
    .error .localStateMismatch
  else if opened.identity.total > options.maxDownloadBytes.toNat then .error .sizeLimit
  else .ok ()

/-- The range a resumption asks for. -/
def resumeRange (opened : Opened) : Except Error (Option (ℕ × ℕ × String)) :=
  if opened.committed > 0 then
    match opened.identity.strongEtag with
    | none => .error .resumeUnsupported
    | some etag =>
      match ResumePolicy.parseEtag (utf8 etag) with
      | .error _ => .error .resumeUnsupported
      | .ok _ => .ok (some (opened.committed, opened.identity.total, etag))
  else .ok none

/-- Whether the response goes on with what the store has. -/
def checkResumed (options : Options PathBuf) (opened : Opened) (response : Response Url) : Except Error Unit := do
  let identity := opened.identity
  if fingerprint U sha256 response.url ≠ identity.finalUrlFingerprint ∧ options.refreshFrom = none then
    throw .representationChanged
  if opened.committed > 0 then
    match identity.strongEtag with
    | none => throw .resumeUnsupported
    | some etag =>
      match ResumePolicy.parseEtag (utf8 etag) with
      | .error _ => throw .resumeUnsupported
      | .ok tag =>
        match ResumePolicy.ResumeRequest.new opened.committed identity.total identity.total tag with
        | .error _ => throw .resumeRejected
        | .ok expected =>
          match ResumePolicy.evaluate expected response.status (responseHeaders response.headers) with
          | .readRange _ => return ()
          | _ => throw .resumeRejected
  else do
    if response.status ≠ 200 then throw (.httpStatus response.status.toUInt16)
    if response.headers.getAll .contentRange ≠ [] then throw .invalidHeaders
    if (← contentLength response.headers) ≠ identity.total then throw .representationChanged
    if identity.strongEtag.any fun tag ↦ field response.headers .etag ≠ .single (utf8 tag) then
      throw .representationChanged

/-- Where the response is the first one of a store. -/
def checkFirst (response : Response Url) : Except Error Unit := do
  if response.status ≠ 200 then throw (.httpStatus response.status.toUInt16)
  if response.headers.getAll .contentRange ≠ [] then throw .invalidHeaders

/-- The identity after the URLs were bound anew. -/
def rebound (options : Options PathBuf) (original final : Digest) (identity : Identity) : Identity :=
  if options.refreshFrom.isSome then { identity with originalUrlFingerprint := original, finalUrlFingerprint := final }
  else identity

/-- From the moment the store is there. -/
def completeDownload (options : Options PathBuf) (plan : Plan) (original final : Digest) (identity : Identity)
    (start : ℕ) (body : Body) (job : DownloadCore.Download) : DownloadM Url PathBuf Outcome := do
  let job ← MonadExcept.ofExcept (jobEvent job .probeSucceeded)
  if options.refreshFrom.isSome then rebindUrls original final
  Prod.fst <$> transferring ⟨rebound options original final identity, start, start⟩ (finishTransfer plan start body job)

/-- `unknown::transfer`. -/
def transferUnknown (options : Options PathBuf) (plan : Plan) (original : Url) (answered : Answered Url) :
    DownloadM Url PathBuf Outcome := do
  MonadExcept.ofExcept (validateFraming answered)
  let strongEtag ← MonadExcept.ofExcept (storableEtag answered.response.headers)
  unlessCancelled
  let identity : Identity := ⟨fingerprint U sha256 original, fingerprint U sha256 answered.response.url, strongEtag,
    options.maxDownloadBytes.toNat, options.expectedSha256⟩
  match parent options.jobDir with
  | none => throw .invalidOptions
  | some directory => do
    beforeTransfer directory 0
    create identity options.outputName true
    let (bytes, _) ← transferring ⟨identity, 0, 0⟩ (drainUnknown plan options.maxDownloadBytes.toNat answered.body)
    let path ← completeUnknown
    report bytes
    return ⟨bytes, 0, path⟩

/-- A store for a response of known length, and the download from it. -/
def createStore (options : Options PathBuf) (plan : Plan) (original : Url) (answered : Answered Url)
    (job : DownloadCore.Download) : DownloadM Url PathBuf Outcome := do
  let total ← MonadExcept.ofExcept (contentLength answered.response.headers)
  if total > options.maxDownloadBytes.toNat then throw .sizeLimit
  match parent options.jobDir with
  | none => throw .invalidOptions
  | some directory => do
    beforeTransfer directory total
    let strongEtag ← MonadExcept.ofExcept (storableEtag answered.response.headers)
    let identity : Identity := ⟨fingerprint U sha256 original, fingerprint U sha256 answered.response.url, strongEtag,
      total, options.expectedSha256⟩
    create identity options.outputName false
    completeDownload options plan (fingerprint U sha256 original) (fingerprint U sha256 answered.response.url) identity 0
      answered.body job

/-- From the request on. -/
def requestDownload (options : Options PathBuf) (plan : Plan) (original : Url) (existing : Option Opened) :
    DownloadM Url PathBuf Outcome := do
  let range ← MonadExcept.ofExcept (existing.elim (.ok none) resumeRange)
  let answered ← requesting (Asking.request U ⟨options.requestPolicy, options.allowHttp, original, range⟩)
  let response := answered.response
  if ¬(response.status = 200 ∨ response.status = 206) then throw (statusError response)
  MonadExcept.ofExcept (validateRepresentation response.headers)
  let job ← MonadExcept.ofExcept startJob
  match existing with
  | some opened => do
    MonadExcept.ofExcept (checkResumed U sha256 options opened response)
    completeDownload options plan (fingerprint U sha256 original) (fingerprint U sha256 response.url) opened.identity
      opened.committed answered.body job
  | none => do
    MonadExcept.ofExcept (checkFirst response)
    if response.headers.getAll .contentLength = [] then transferUnknown U parent sha256 options plan original answered
    else createStore U parent sha256 options plan original answered job

/-- A store that is complete is only published. -/
def publishExisting (opened : Opened) : DownloadM Url PathBuf Outcome := do
  unlessCancelled
  let path ← finalize
  return ⟨opened.identity.total, opened.committed, path⟩

/-- With the store that is there. -/
def resumeDownload (options : Options PathBuf) (plan : Plan) (original : Url) (opened : Opened) :
    DownloadM Url PathBuf Outcome := do
  MonadExcept.ofExcept (checkExisting U sha256 options original opened)
  if opened.status = .downloading ∧ !opened.unknownLength then
    beforeTransfer options.jobDir (opened.identity.total - opened.committed)
  if opened.committed > 0 then report opened.committed
  if opened.status ≠ .downloading then publishExisting opened
  else if opened.unknownLength then throw .resumeUnsupported
  -- a full prefix without the clean framing marker must not be promoted to success
  else if opened.committed = opened.identity.total ∧ opened.committed > 0 then throw .resumeRejected
  else requestDownload U parent sha256 options plan original (some opened)

/-- `download_controlled`. -/
def downloadControlled (options : Options PathBuf) : DownloadM Url PathBuf Outcome := do
  let (plan, original) ← MonadExcept.ofExcept (admitOptions U options)
  unlessCancelled
  let built : Bool ← Routine.ask (DownloadPort.buildClient : DownloadPort Url PathBuf)
  if !built then throw .network
  let existing ← openExisting
  unlessCancelled
  match existing with
  | some opened => resumeDownload U parent sha256 options plan original opened
  | none => requestDownload U parent sha256 options plan original none

end Download

end Fhd.DownloadEngine
