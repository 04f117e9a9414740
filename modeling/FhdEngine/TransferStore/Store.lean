import FhdEngine.TransferStore.Folder
import FhdEngine.Library.Routine

/-!
# The sequential store

`crates/transfer-store/src/lib.rs`, in the order of the source. A `Store` is an open handle. Its methods
change the handle and call the folder, and what they had changed before they failed stays changed, so every
method that may leave the folder in doubt first poisons the handle and cleans it only at its end.

The running hash is the bytes that were hashed, and `sha256` a parameter. A handle keeps the position of
its payload, which the source leaves to the operating system.
-/

namespace Fhd

open Process (Routine)

namespace TransferStore

structure Identity where
  originalUrlFingerprint : Digest
  finalUrlFingerprint : Digest
  strongEtag : Option String
  total : ℕ
  expectedSha256 : Option Digest
deriving DecidableEq, Repr

inductive Status
  | downloading
  | readyToPublish
  | published
deriving DecidableEq, Repr

inductive StoreError
  | io (kind : ErrorKind)
  | database
  | unsupportedVersion
  | invalidInput
  | corrupt
  | locked
  | collision
  | incomplete
  | hashMismatch
  | notWritable
deriving DecidableEq, Repr

structure Store where
  part : Inode
  position : ℕ
  identity : Identity
  output : String
  len : ℕ
  committed : ℕ
  phase : ℤ
  hasher : List UInt8
  poisoned : Bool
  unknownLength : Bool

/-! ### Checks -/

def validateIdentity (identity : Identity) : Except StoreError Unit :=
  if identity.total > i64Max ∨ identity.strongEtag.any (·.utf8ByteSize > 8192) then .error .invalidInput
  else .ok ()

/-- The names a store keeps for itself. -/
def reservedNames : List String :=
  ["owner.lock", "payload.part", "state.sqlite", "state.sqlite-journal", "state.sqlite-wal",
    "state.sqlite-shm"]

def validateName (name : String) : Except StoreError Unit :=
  let chars := name.toList
  let stem := (chars.takeWhile (· ≠ '.')).map Char.toUpper
  if name = "" ∨ name.utf8ByteSize > 180 ∨ chars.getLast? = some '.' ∨ chars.getLast? = some ' ' ∨
      chars.any (fun c ↦ isControl c || c ∈ "\\/:*?\"<>|".toList) ∨ name = "." ∨ name = ".." ∨
      stem ∈ ["CON", "PRN", "AUX", "NUL"].map String.toList ∨
      stem.length = 4 ∧ stem.take 3 ∈ ["COM", "LPT"].map String.toList ∧ (stem.getD 3 ' ').isDigit ∨
      chars.map Char.toLower ∈ reservedNames.map String.toList then
    .error .invalidInput
  else .ok ()

/-- `<[u8; 32]>::try_from`. -/
def toDigest (bytes : List UInt8) : Except StoreError Digest :=
  if h : bytes.toArray.size = 32 then .ok ⟨bytes.toArray, h⟩ else .error .corrupt

/-- The identity a row holds. -/
def JobRow.identity (row : JobRow) : Except StoreError Identity := do
  let expected ← row.expected.mapM toDigest
  let original ← toDigest row.original
  let final ← toDigest row.final
  return ⟨original, final, row.etag, row.total.toNat, expected⟩

/-! ### Calls -/

/-- Calls the folder and may return early, with a handle or some other state at hand. -/
abbrev StoreM (τ : Type) := Routine StoreError τ Call Reply

variable {τ : Type}

/-- `?` on an input or output error. -/
def io (op : Call) : StoreM τ (Output op) := do
  match ← Routine.ask op with
  | .ok x => pure x
  | .error kind => throw (.io kind)

/-- `?` on a database error. -/
def db (op : Call) : StoreM τ (Output op) := do
  match ← Routine.ask op with
  | .ok x => pure x
  | .error _ => throw .database

def rejectLink (name : String) : StoreM τ Unit := do
  let fileType : FileType ← io (.symlinkMetadata name)
  Routine.failIf (fileType = .other) .invalidInput

def rejectLinks : List String → StoreM τ Unit
  | [] => pure ()
  | name :: names => do
    rejectLink name
    rejectLinks names

def requireFile (name : String) : StoreM τ Unit := do
  let fileType : FileType ← io (.symlinkMetadata name)
  Routine.failIf (fileType ≠ .file) .invalidInput

def tryLock (file : Inode) : StoreM τ Unit := do
  match ← Routine.ask (.tryLock file) with
  | .ok _ => pure ()
  | .error _ => throw .locked

/-- The loop of `hash_prefix`. Every read gives a byte at least, so `left` reads are enough. -/
def hashLoop (file : Inode) : ℕ → ℕ → ℕ → List UInt8 → StoreM τ (List UInt8)
  | 0, _, _, hasher => pure hasher
  | fuel + 1, position, left, hasher =>
    if left = 0 then pure hasher
    else do
      let bytes : List UInt8 ← io (.read file position (min left 65536))
      Routine.failIf (bytes = []) .corrupt
      hashLoop file fuel (position + bytes.length) (left - bytes.length) (hasher ++ bytes)

def hashPrefix (file : Inode) (len : ℕ) : StoreM τ (List UInt8) := do
  io (.seek file 0)
  hashLoop file len 0 len []

/-! ### Creating -/

variable (sha256 : List UInt8 → Digest)

/-- The row of a new store. -/
def newRow (identity : Identity) (output : String) (unknownLength : Bool) : JobRow where
  version := if unknownLength then 3 else 2
  original := identity.originalUrlFingerprint.toList
  final := identity.finalUrlFingerprint.toList
  etag := identity.strongEtag
  total := identity.total
  expected := identity.expectedSha256.map Vector.toList
  output := output
  committed := 0
  digest := (sha256 []).toList
  phase := 0
  lengthKnown := if unknownLength then some 0 else none

def createInner (identity : Identity) (output : String) (unknownLength : Bool) : StoreM τ Store := do
  MonadExcept.ofExcept (validateName output)
  MonadExcept.ofExcept (validateIdentity identity)
  io .checkAncestors
  io .createDir
  let lock : Inode ← io (.openOptions "owner.lock" true)
  tryLock lock
  let part : Inode ← io (.openOptions "payload.part" true)
  io (.syncAll part)
  db (.openDatabase "state.sqlite" true)
  db .createTable
  (if unknownLength then db .addLengthKnown else pure ())
  db (.insertJob (newRow sha256 identity output unknownLength))
  io .syncDirectory
  return {
    part, identity, output, unknownLength
    position := 0
    len := 0
    committed := 0
    phase := 0
    hasher := []
    poisoned := false }

def create (identity : Identity) (output : String) : StoreM τ Store :=
  createInner sha256 identity output false

/-- The total is a limit until clean framing determines the size. -/
def createUnknown (identity : Identity) (output : String) : StoreM τ Store := do
  Routine.failIf (identity.total = 0) .invalidInput
  createInner sha256 identity output true

/-! ### Opening -/

/-- Whether the length is still unknown. -/
def readLengthKnown (version : ℤ) : StoreM τ Bool := do
  if version = 3 then
    let known : ℤ ← db .selectLengthKnown
    Routine.failIf (known ≠ 0 ∧ known ≠ 1) .corrupt
    return known = 0
  else return false

/-- The checks of `open` on the row. -/
def rowCorrupt (row : JobRow) (unknownLength : Bool) : Bool :=
  ¬(row.version = 2 ∨ row.version = 3) ∨ unknownLength ∧ (row.phase ≠ 0 ∨ row.total = 0) ∨
    row.version = 3 ∧ !unknownLength ∧ row.phase = 0 ∨ row.total < 0 ∨ row.committed < 0 ∨
    row.committed > row.total ∨ ¬(0 ≤ row.phase ∧ row.phase ≤ 3) ∨
    row.phase > 0 ∧ row.committed ≠ row.total

namespace Store

/-- Whether what stands at the output is what was downloaded. -/
def verifyDestination (s : Store) : StoreM τ Unit := do
  rejectLink s.output
  requireFile s.output
  let finalFile : Inode ← io (.openOptions s.output false)
  let length : ℕ ← io (.metadata finalFile)
  Routine.failIf (length ≠ s.identity.total) .collision
  let bytes ← hashPrefix finalFile s.len
  Routine.failIf (sha256 bytes ≠ sha256 s.hasher) .collision

end Store

/-- The payload is at least as long as the receipt says, and exactly as long once it is complete. -/
def checkLength (part : Inode) (committed : ℕ) (phase : ℤ) : StoreM τ Unit := do
  let length : ℕ ← io (.metadata part)
  Routine.failIf (length < committed) .corrupt
  if phase > 0 then
    let length : ℕ ← io (.metadata part)
    Routine.failIf (length ≠ committed) .corrupt
  else pure ()

/-- Only bytes absent from the durable receipt may be discarded. -/
def discardTail (part : Inode) (committed : ℕ) : StoreM τ Unit := do
  let length : ℕ ← io (.metadata part)
  if length ≠ committed then
    io (.setLen part committed)
    io (.syncAll part)
  else pure ()

/-- `Store::open` after the folder was found in order: the row, and what it says. -/
def readRow : StoreM τ (JobRow × Bool) := do
  db (.openDatabase "state.sqlite" false)
  let version : ℤ ← db .selectVersion
  Routine.failIf (¬(version = 2 ∨ version = 3)) .unsupportedVersion
  db (.openDatabase "state.sqlite" false)
  let row : JobRow ← db .selectJob
  let unknownLength ← readLengthKnown row.version
  Routine.failIf (rowCorrupt row unknownLength = true) .corrupt
  return (row, unknownLength)

/-- `Store::open` once the row was read: the payload is brought back to the receipt. -/
def openPayload (row : JobRow) (unknownLength : Bool) : StoreM τ Store := do
  let identity ← MonadExcept.ofExcept row.identity
  MonadExcept.ofExcept (validateIdentity identity)
  MonadExcept.ofExcept (validateName row.output)
  let part : Inode ← io (.openOptions "payload.part" false)
  let committed := row.committed.toNat
  checkLength part committed row.phase
  let hasher ← hashPrefix part committed
  Routine.failIf ((sha256 hasher).toList ≠ row.digest) .corrupt
  discardTail part committed
  io (.seek part committed)
  let store : Store := {
    part, identity, committed, hasher, unknownLength
    position := committed
    output := row.output
    len := committed
    phase := row.phase
    -- interrupted unknown framing cannot authorize any further bytes
    poisoned := unknownLength }
  (if row.phase = 3 then store.verifyDestination sha256 else pure ())
  return store

/-- `Store::open`. -/
def openStore : StoreM τ Store := do
  io .checkAncestors
  let names : List String ← io .readDir
  rejectLinks names
  requireFile "owner.lock"
  requireFile "state.sqlite"
  requireFile "payload.part"
  let lock : Inode ← io (.openOptions "owner.lock" false)
  tryLock lock
  let (row, unknownLength) ← readRow
  openPayload sha256 row unknownLength

/-! ### Methods -/

/-- A method of an open store. -/
abbrev Method := StoreM Store

namespace Store

def status (s : Store) : Status :=
  if s.phase = 0 then .downloading else if s.phase = 3 then .published else .readyToPublish

/-- A failed update leaves the handle poisoned. -/
def rebindUrls (original final : Digest) : Method Unit := do
  let s ← get
  Routine.failIf (s.poisoned = true ∨ s.phase ≠ 0 ∨ s.unknownLength = true ∨ s.identity.strongEtag = none)
    .notWritable
  modify fun s ↦ { s with poisoned := true }
  let changed : ℕ ← db (.updateUrls original.toList final.toList)
  Routine.failIf (changed ≠ 1) .corrupt
  modify fun s ↦ { s with
    identity := { s.identity with originalUrlFingerprint := original, finalUrlFingerprint := final }
    poisoned := false }

def append (bytes : List UInt8) : Method Unit := do
  let s ← get
  Routine.failIf (s.poisoned = true ∨ s.phase ≠ 0) .notWritable
  Routine.failIf (s.len + bytes.length > u64Max) .invalidInput
  Routine.failIf (s.len + bytes.length > s.identity.total) .invalidInput
  -- a short write followed by a failure requires a reopen
  modify fun s ↦ { s with poisoned := true }
  io (.writeAll s.part s.position bytes)
  modify fun s ↦ { s with
    hasher := s.hasher ++ bytes
    position := s.position + bytes.length
    len := s.len + bytes.length
    poisoned := false }

def checkpoint : Method Unit := do
  let s ← get
  Routine.failIf (s.poisoned = true ∨ s.phase ≠ 0) .notWritable
  modify fun s ↦ { s with poisoned := true }
  io (.syncAll s.part)
  let _ : ℕ ← db (.updateReceipt s.len (sha256 s.hasher).toList)
  modify fun s ↦ { s with committed := s.len, poisoned := false }

/-- To be called only after the transport has validated the end of the body. -/
def markTransferComplete : Method Unit := do
  let s ← get
  Routine.failIf (s.unknownLength = true ∨ s.len ≠ s.identity.total) .incomplete
  checkpoint sha256
  modify fun s ↦ { s with poisoned := true }
  let _ : ℕ ← db (.updatePhase 1)
  modify fun s ↦ { s with phase := 1, poisoned := false }

/-- The durable size and the mark of completion change in one transaction. -/
def markUnknownTransferComplete : Method Unit := do
  let s ← get
  Routine.failIf (s.unknownLength = false) .invalidInput
  checkpoint sha256
  modify fun s ↦ { s with poisoned := true }
  let s ← get
  db .beginTransaction
  let changed : ℕ ← db (.executeCompletion s.len)
  Routine.failIf (changed ≠ 1) .corrupt
  db (.commitCompletion s.len)
  modify fun s ↦ { s with
    identity := { s.identity with total := s.len }
    unknownLength := false
    phase := 1
    poisoned := false }

/-- Whether another digest was asked for. -/
def mismatched (s : Store) : Bool := s.identity.expectedSha256.any (· ≠ sha256 s.hasher)

/-- The name is taken, or the payload is linked there. -/
def linkOutput : Method Unit := do
  let s ← get
  match ← Routine.ask (.symlinkMetadata s.output) with
  | .ok _ => s.verifyDestination sha256
  | .error .notFound =>
    if s.phase = 2 then io (.hardLink "payload.part" s.output) else throw (.io .notFound)
  | .error kind => throw (.io kind)

def publish : Method Unit := do
  let s ← get
  let length : ℕ ← io (.metadata s.part)
  Routine.failIf (length ≠ s.identity.total) .corrupt
  let bytes ← hashPrefix s.part s.len
  Routine.failIf (sha256 bytes ≠ sha256 s.hasher) .corrupt
  Routine.failIf (s.mismatched sha256 = true) .hashMismatch
  linkOutput sha256
  io (.syncAll s.part)
  io .syncDirectory
  let _ : ℕ ← db (.updatePhase 3)
  modify fun s ↦ { s with phase := 3 }

/-- `finalize_inner` in phase 1: the intent is recorded only for a payload that is what was asked for, and
only while the name is free. -/
def recordIntent : Method Unit := do
  let s ← get
  match ← Routine.ask (.symlinkMetadata s.output) with
  | .ok _ => throw .collision
  | .error .notFound => pure ()
  | .error kind => throw (.io kind)
  let bytes ← hashPrefix s.part s.len
  Routine.failIf (sha256 bytes ≠ sha256 s.hasher) .corrupt
  Routine.failIf (s.mismatched sha256 = true) .hashMismatch
  let _ : ℕ ← db (.updatePhase 2)
  modify fun s ↦ { s with phase := 2 }

def finalizeInner : Method String := do
  let s ← get
  (if s.phase = 1 then recordIntent sha256 else pure ())
  publish sha256
  return s.output

def finalize : Method String := do
  let s ← get
  Routine.failIf (s.poisoned = true ∨ s.phase = 0) .incomplete
  modify fun s ↦ { s with poisoned := true }
  let path ← finalizeInner sha256
  modify fun s ↦ { s with poisoned := false }
  return path

end Store

end TransferStore

end Fhd
