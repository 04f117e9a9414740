import FhdEngine.Http.Transport

/-!
# What a download is given

`crates/download-engine/src/lib.rs`, `request_policy.rs`, `rate.rs`, `files.rs` and the limits of `manager.rs`:
the options of a download, the policy of its requests, and the limits of the manager, each with its checks.

The URL library and the paths of the platform are parameters (`UrlLibrary`, `Paths`); everything the source
decides about them is here.
-/

namespace Fhd.DownloadEngine

/-- What the URL library is asked in addition. -/
structure UrlLibrary (Url UrlOrigin : Type) extends Urls Url UrlOrigin where
  portOrKnownDefault : Url → Option UInt16

/-- What the paths of the platform are asked. -/
structure Paths (PathBuf : Type) where
  toStr : PathBuf → Option String
  ofStr : String → PathBuf
  /-- `as_os_str().len()`. -/
  len : PathBuf → ℕ
  isAbsolute : PathBuf → Bool
  /-- Whether a component is `..` or `.`. -/
  hasDots : PathBuf → Bool
  /-- `components().collect()`. -/
  normalize : PathBuf → PathBuf
  toStr_ofStr : ∀ text, toStr (ofStr text) = some text
  ofStr_toStr : ∀ path text, toStr path = some text → ofStr text = path

inductive Error
  | invalidOptions
  | invalidUrl
  | insecureHttp
  | redirectLimit
  | redirectOriginChange
  | network
  | httpStatus (code : UInt16)
  /-- Server requested a cooldown; automatic retry requires an explicit policy. -/
  | serverBackoff (code : UInt16)
  | invalidHeaders
  | representationChanged
  | resumeUnsupported
  | resumeRejected
  | localStateMismatch
  | storage
  | storageIo (kind : ErrorKind)
  | storageLocked
  | destinationConflict
  | storedDataCorrupt
  | checksumMismatch
  | unsupportedStorageVersion
  | workerFailed
  | cancelled
  | invalidTransition
  | bodyLength
  | sizeLimit
  | insufficientSpace
deriving DecidableEq, Repr

inductive ManagerError
  | invalidLimits
  | noRuntime
  | closed
  | capacity
  | invalidOptions
  | invalidPath
  | duplicateJob
  | unknownJob
  | invalidTransition
  | workerFailed
  | persistence
  | secretStorage
  | queueLocked
  | notDurable
  | invalidIdempotencyKey
  | idempotencyConflict
  | previouslyRemoved
  | receiptCapacity
deriving DecidableEq, Repr

/-- The bytes of a text. -/
def utf8 (text : String) : Bytes := text.toUTF8.data.toList

theorem fromUtf8_utf8 (text : String) : fromUtf8 (utf8 text) = some text := by
  rw [fromUtf8, utf8, Array.toArray_toList]
  exact dif_pos text.isValidUTF8

theorem utf8_of_fromUtf8 {value : Bytes} {text : String} (h : fromUtf8 value = some text) : utf8 text = value := by
  rw [fromUtf8, String.fromUTF8?] at h
  split at h
  next =>
    cases h
    rfl
  next => cases h

theorem length_utf8 (text : String) : (utf8 text).length = text.utf8ByteSize := Array.length_toList

/-! ### Rates -/

def maxBytesPerSecond : ℕ := 1024 * 1024 * 1024

def validLimit (value : Option UInt64) : Bool :=
  value.all fun n ↦ 1 ≤ n.toNat ∧ n.toNat ≤ maxBytesPerSecond

/-! ### Names -/

/-- The names of devices, with and without a number. -/
def isDevice (stem : String) : Bool :=
  stem ∈ ["con", "prn", "aux", "nul", "conin$", "conout$"] ∨
    ["com", "lpt"].any fun p ↦
      ["1", "2", "3", "4", "5", "6", "7", "8", "9", "¹", "²", "³"].any fun n ↦ stem = p ++ n

def validateName (name : String) : Except Error Unit :=
  let chars := name.toList
  let stem := String.ofList ((chars.takeWhile (· ≠ '.')).map Char.toLower)
  if name = "" ∨ name.utf8ByteSize > 200 ∨ name = "." ∨ name = ".." ∨
      chars.getLast? = some '.' ∨ chars.getLast? = some ' ' ∨
      chars.any (· ∈ ['/', '\\', ':', '<', '>', '"', '|', '?', '*']) ∨ chars.any isControl ∨ isDevice stem then
    .error .invalidOptions
  else .ok ()

/-! ### Requests -/

/-- HTTP credentials, which stay with the origin they were given for. -/
structure RequestPolicy where
  authorization : Option String
  cookie : Option String
  redirectOrigins : List String
deriving DecidableEq, Repr

def RequestPolicy.default : RequestPolicy := ⟨none, none, []⟩

section Urls

variable {Url UrlOrigin PathBuf : Type} (U : UrlLibrary Url UrlOrigin) (P : Paths PathBuf)

def parseUrl (raw : String) (allowHttp : Bool) : Except Error Url :=
  if raw.utf8ByteSize > maxUrl ∨ raw.toList.any isControl then .error .invalidUrl
  else
    match U.parse raw with
    | none => .error .invalidUrl
    | some url =>
      if ¬(U.scheme url = "http" ∨ U.scheme url = "https") ∨ (U.hostStr url).isNone ∨
          U.username url ≠ "" ∨ (U.password url).isSome ∨ (U.fragment url).isSome then .error .invalidUrl
      else if U.scheme url = "http" ∧ !allowHttp then .error .insecureHttp
      else .ok url

/-- A header value that is not empty, not long and plain text. -/
def isSecret (value : String) : Bool :=
  !(value = "" ∨ value.utf8ByteSize > 8192 ∨ (utf8 value).any (128 ≤ ·) ∨
    (utf8 value).any (fun b ↦ b < 32 || b = 127) ∨ !isHeaderValue (utf8 value))

/-- A redirect may be authorized to a whole origin only. -/
def validateOrigin (origin : String) : Except Error Unit := do
  let url ← parseUrl U origin true
  if U.path url ≠ "/" ∨ (U.query url).isSome then throw .invalidOptions

namespace RequestPolicy

def validate (policy : RequestPolicy) : Except Error Unit := do
  if ¬(policy.authorization.all isSecret ∧ policy.cookie.all isSecret) then throw .invalidOptions
  if policy.redirectOrigins.length > 8 then throw .invalidOptions
  policy.redirectOrigins.forM (validateOrigin U)

/-- The origin of a URL, as text. -/
def serialize (origin : String) : Except Error String :=
  (fun url ↦ U.asciiSerialization (U.origin url)) <$> parseUrl U origin true

def new (authorization cookie : Option String) (redirectOrigins : List String) :
    Except Error RequestPolicy := do
  let policy : RequestPolicy := ⟨authorization, cookie, redirectOrigins⟩
  policy.validate U
  let origins ← policy.redirectOrigins.mapM (serialize U)
  return { policy with redirectOrigins := (origins.mergeSort (· ≤ ·)).dedup }

end RequestPolicy

/-! ### Options -/

structure Options (PathBuf : Type) where
  url : String
  jobDir : PathBuf
  outputName : String
  expectedSha256 : Option Digest
  /-- Explicit permission from a trusted local caller; never infer it from a web page. -/
  allowHttp : Bool
  checkpointBytes : UInt64
  maxDownloadBytes : UInt64
  /-- None means unlimited. -/
  bytesPerSecond : Option UInt64
  /-- Bounded range workers per file, 1..=8. -/
  parallelConnections : UInt8
  requestPolicy : RequestPolicy
  /-- Only a trusted local refresh command may supply the previous URL identity. -/
  refreshFrom : Option Digest
deriving DecidableEq

def validateOptions (options : Options PathBuf) : Except ManagerError Unit :=
  match options.requestPolicy.validate U with
  | .error _ => .error .invalidOptions
  | .ok () =>
    match validateName options.outputName with
    | .error _ => .error .invalidOptions
    | .ok () =>
      if options.url.utf8ByteSize > 16384 ∨ options.outputName = "" ∨ options.outputName.utf8ByteSize > 255 ∨
          P.len options.jobDir > 32768 ∨ options.checkpointBytes.toNat = 0 ∨
          options.checkpointBytes.toNat > 64 * 1024 * 1024 ∨ options.maxDownloadBytes.toNat = 0 ∨
          options.maxDownloadBytes.toNat > i64Max ∨
          ¬(1 ≤ options.parallelConnections.toNat ∧ options.parallelConnections.toNat ≤ 8) ∨
          !validLimit options.bytesPerSecond ∨ (parseUrl U options.url options.allowHttp).toOption.isNone then
        .error .invalidOptions
      else .ok ()

/-- A normalized origin, never included in public snapshots or diagnostics. -/
structure Origin where
  scheme : String
  host : String
  port : UInt16
deriving DecidableEq, Repr

def origin (options : Options PathBuf) : Except ManagerError Origin :=
  match parseUrl U options.url options.allowHttp with
  | .error _ => .error .invalidOptions
  | .ok url =>
    match U.hostStr url, U.portOrKnownDefault url with
    | some host, some port => .ok ⟨U.scheme url, host, port⟩
    | _, _ => .error .invalidOptions

end Urls

/-! ### The manager's limits -/

/-- The first request counts as an attempt; retry delays release worker slots. -/
structure RetryPolicy where
  maxAttempts : UInt8
  initialDelayMs : UInt64
  maxDelayMs : UInt64
deriving DecidableEq, Repr

/-- In milliseconds; the product saturates. -/
def RetryPolicy.delay (retry : RetryPolicy) (attempts : UInt8) : ℕ :=
  min (min (retry.initialDelayMs.toNat * 2 ^ min (attempts.toNat - 1) 4) u64Max) retry.maxDelayMs.toNat

structure Config where
  maxActive : ℕ
  maxJobs : ℕ
  maxPerOrigin : ℕ
  retry : RetryPolicy
  globalBytesPerSecond : Option UInt64
deriving DecidableEq, Repr

def Config.validate (c : Config) : Except ManagerError Unit :=
  if ¬(1 ≤ c.maxActive ∧ c.maxActive ≤ 32) ∨ ¬(1 ≤ c.maxJobs ∧ c.maxJobs ≤ 1024) ∨ c.maxActive > c.maxJobs ∨
      ¬(1 ≤ c.maxPerOrigin ∧ c.maxPerOrigin ≤ c.maxActive) ∨
      ¬(1 ≤ c.retry.maxAttempts.toNat ∧ c.retry.maxAttempts.toNat ≤ 5) ∨
      ¬(100 ≤ c.retry.initialDelayMs.toNat ∧ c.retry.initialDelayMs.toNat ≤ 60000) ∨
      ¬(c.retry.initialDelayMs.toNat ≤ c.retry.maxDelayMs.toNat ∧ c.retry.maxDelayMs.toNat ≤ 300000) ∨
      !validLimit c.globalBytesPerSecond then .error .invalidLimits
  else .ok ()

end Fhd.DownloadEngine
