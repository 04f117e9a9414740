import FhdEngine.Storage.Disk
import Mathlib.Data.List.Sort

/-!
# Part files

`crates/adapters/storage/src/lib.rs`. A part is a file `{job}-{generation}.part` with a sidecar
`{job}-{generation}.meta` of 34 bytes that says whose it is and whether it is sealed. `openInner` is
`FileStorage::create` and `FileStorage::open`; the methods of `FilePart` follow in the order of the
source. `publish` seals the part, links it under a staged name of its own, proves that link and only
then links it at the destination.

A method changes its handle and calls the disk, and what it had changed before it failed stays changed,
so every rollback of a flag that the source makes (or forgets) is one here. The streaming hash is the
parameter `sha256` of all the bytes it was fed; the pieces it is fed in leave no trace. The lock file of
`FileStorage::own` is left out, since one process owns a directory throughout.
-/

namespace Fhd

open Process (Prog Routine)

/-- Calls the disk and may return early, with a handle or some other state at hand. -/
abbrev StorageM (τ : Type) := Routine StorageError τ Syscall Reply

variable {τ α : Type}

/-- A call, with whatever it is answered. -/
def attempt (op : Syscall) : StorageM τ (Reply op) :=
  fun t ↦ .call op fun x ↦ .done (.ok x, t)

/-- A call whose failure is passed on. -/
def sys (op : Syscall) : StorageM τ (Output op) := do
  match ← attempt op with
  | .ok x => pure x
  | .error kind => throw (.io kind)

def throwIf (p : Prop) [Decidable p] (error : StorageError) : StorageM τ Unit :=
  if p then throw error else pure ()

/-- What a routine would return, failures included. -/
def observe (x : StorageM τ α) : StorageM τ (Except StorageError α) :=
  fun t ↦ x t >>= fun (r, t') ↦ .done (.ok r, t')

/-! ### Paths -/

def Path.parent : Path → Option Path
  | [] => none
  | path => some path.dropLast

/-- The device names that end in a digit, with the digits Windows takes for one. -/
def numberedDevices : List (List Char) :=
  ["com".toList, "lpt".toList].flatMap fun device ↦
    "123456789\u00b9\u00b2\u00b3".toList.map fun digit ↦ device ++ [digit]

def validateLeaf (name : String) : Except StorageError Unit :=
  let chars := name.toList
  let stem := (chars.takeWhile (· ≠ '.')).map Char.toLower
  if name = "" ∨ name.utf8ByteSize > 255 ∨ name = "." ∨ name = ".." ∨
      chars.getLast? = some '.' ∨ chars.getLast? = some ' ' ∨ chars.any isControl ∨
      chars.any (· ∈ "<>:\"/\\|?*".toList) then
    .error .invalidInput
  else if stem ∈ ["con", "prn", "aux", "nul", "conin$", "conout$"].map String.toList ∨
      stem ∈ numberedDevices then
    .error .invalidInput
  else .ok ()

/-- Where a destination is: below the canonical form of its folder. -/
def resolveDestination (destination : Path) : StorageM τ Path := do
  match destination.parent, destination.getLast? with
  | some parent, some leaf =>
    let parent : Path ← sys (.canonicalize parent)
    MonadExcept.ofExcept (validateLeaf leaf)
    return parent ++ [leaf]
  | _, _ => throw .invalidInput

/-- Neither a link nor a device. -/
def ordinary (path : Path) (directory : Bool) : StorageM τ Unit := do
  let metadata : Metadata ← sys (.symlinkMetadata path)
  throwIf (metadata.fileType ≠ if directory then .directory else .file) .invalidInput

def checkOptional (path : Path) : StorageM τ Unit := do
  match ← attempt (.symlinkMetadata path) with
  | .ok _ => ordinary path false
  | .error .notFound => pure ()
  | .error kind => throw (.io kind)

/-- Makes sure of a directory: whether it was not there before. -/
def ensureDirectory (path : Path) (create : Bool) : StorageM τ Bool := do
  if create then
    match ← attempt (.createDir path) with
    | .ok _ => pure true
    | .error .alreadyExists => pure false
    | .error kind => throw (.io kind)
  else pure false

/-- Syncing a directory persists its contents, not its own entry in its parent. -/
def syncParent (path : Path) : StorageM τ Unit :=
  match path.parent with
  | none => throw .invalidInput
  | some parent => sys (.syncDirectory parent)

def directory (path : Path) (create : Bool) : StorageM τ Path := do
  throwIf (".." ∈ path) .invalidInput
  let created ← ensureDirectory path create
  ordinary path true
  let resolved : Path ← sys (.canonicalize path)
  (if created then syncParent resolved else pure ())
  return resolved

/-! ### Opening -/

/-- `MAGIC`. -/
def magic : List UInt8 := [0x46, 0x48, 0x44, 0x50, 0x41, 0x52, 0x54, 0, 1]

/-- `META_LEN`. -/
def metaLen : ℕ := 34

/-- `MAX_EXTENTS`. -/
def maxExtents : ℕ := 262144

/-- `u64::to_le_bytes`. -/
def toLeBytes (n : ℕ) : List UInt8 := (List.range 8).map fun k ↦ UInt8.ofNat (n / 256 ^ k)

/-- What a sidecar says before its last byte: whose part it is, and how long. -/
def claim (spec : PartSpec) : List UInt8 :=
  magic ++ toLeBytes spec.job.get ++ toLeBytes spec.generation.get ++ toLeBytes spec.size

/-- The bytes of a sidecar. -/
def identity (spec : PartSpec) (isSealed : Bool) : List UInt8 :=
  claim spec ++ [if isSealed then 1 else 0]

/-- The three names a part may have in its directory. -/
inductive PartName
  | part
  | sidecar
  | staged
deriving DecidableEq, Repr

def PartName.extension : PartName → String
  | .part => ".part"
  | .sidecar => ".meta"
  | .staged => ".staged"

def PartSpec.leaf (spec : PartSpec) (name : PartName) : String :=
  toString spec.job.get ++ "-" ++ toString spec.generation.get ++ name.extension

/-- Where a part is kept. -/
def PartSpec.path (spec : PartSpec) (directory : Path) (name : PartName) : Path :=
  directory ++ [spec.leaf name]

structure FilePart where
  file : Inode
  metadata : Inode
  path : Path
  directory : Path
  spec : PartSpec
  coverage : List ByteRange
  protectedRanges : List ByteRange
  synchronized : Bool
  verified : Option Digest
  isSealed : Bool
  published : Bool
  cancelled : Bool
  poisoned : Bool

/-- The new part: its length, and a sidecar that is not sealed. -/
def initialise (file metadata : Inode) (directory : Path) (spec : PartSpec) : StorageM τ Bool := do
  sys (.setLen file spec.size)
  sys (.syncAll file)
  sys (.writeAll metadata 0 (identity spec false))
  sys (.syncAll metadata)
  sys (.syncDirectory directory)
  return false

/-- The old part: its length and its sidecar agree with what is asked for. -/
def readIdentity (file metadata : Inode) (spec : PartSpec) : StorageM τ Bool := do
  let sidecar : Metadata ← sys (.metadata metadata)
  throwIf (sidecar.len ≠ metaLen) .integrity
  let part : Metadata ← sys (.metadata file)
  throwIf (part.len ≠ spec.size) .integrity
  let data : List UInt8 ← sys (.readExact metadata 0 metaLen)
  throwIf (data.take 33 ≠ claim spec ∨ data.getD 33 0 > 1) .integrity
  return data.getD 33 0 = 1

/-- Create-new never truncates a surviving generation or an unrelated file. -/
def openPart (path : Path) (create : Bool) : StorageM τ Inode := do
  match ← attempt (.openOptions path create) with
  | .ok file => pure file
  | .error .alreadyExists => throw .conflict
  | .error kind => throw (.io kind)

/-- `FileStorage::create` and `FileStorage::open`. -/
def openInner (path : Path) (spec : PartSpec) (create : Bool) : StorageM τ FilePart := do
  let directory ← directory path create
  checkOptional (spec.path directory .part)
  checkOptional (spec.path directory .sidecar)
  let file ← openPart (spec.path directory .part) create
  let metadata : Inode ← sys (.openOptions (spec.path directory .sidecar) create)
  let isSealed ←
    (if create then initialise file metadata directory spec else readIdentity file metadata spec)
  sys (.seek file 0)
  return {
    file, metadata, directory, spec, isSealed
    path := spec.path directory .part
    coverage := []
    protectedRanges := []
    synchronized := create
    verified := none
    published := false
    cancelled := false
    poisoned := false }

namespace FilePart

/-! ### Coverage -/

/-- The range of a write, if it lies within the part. -/
def range (h : FilePart) (offset length : ℕ) : Except StorageError ByteRange :=
  match checkedAdd offset length with
  | none => .error .bounds
  | some stop =>
    if stop > h.spec.size then .error .bounds
    else (ByteRange.new offset stop).mapError fun _ ↦ .bounds

/-- The loop of `coverage_plan`: swallows entries while they begin no later than the range ends. -/
def swallow : List ByteRange → ℕ → ℕ → ℕ → ℕ × ℕ × ℕ
  | [], last, start, stop => (last, start, stop)
  | entry :: entries, last, start, stop =>
    if entry.start > stop then (last, start, stop)
    else swallow entries (last + 1) (min start entry.start) (max stop entry.stop)

/-- Which entries a range replaces, and by what. The coverage is in order, so the entries that end
before the range are the first ones. -/
def coveragePlan (h : FilePart) (range : ByteRange) : Except StorageError (ℕ × ℕ × ByteRange) :=
  let first := (h.coverage.takeWhile (·.stop < range.start)).length
  let (last, start, stop) := swallow (h.coverage.drop first) first range.start range.stop
  if h.coverage.length - (last - first) + 1 > maxExtents then .error .bounds
  else
    match ByteRange.new start stop with
    | .error _ => .error .bounds
    | .ok merged => .ok (first, last, merged)

def addCoverage (h : FilePart) : ℕ × ℕ × ByteRange → FilePart
  | (first, last, range) =>
    { h with coverage := h.coverage.take first ++ range :: h.coverage.drop last }

def complete (h : FilePart) : Bool :=
  h.spec.size = 0 ∨ h.coverage.map (fun r ↦ (r.start, r.stop)) = [(0, h.spec.size)]

/-- Whether a range meets one that was proved when the part was reopened. -/
def guards (h : FilePart) (range : ByteRange) : Bool :=
  h.protectedRanges.any fun entry ↦ entry.start < range.stop ∧ range.start < entry.stop

end FilePart

/-- A method of an open part. -/
abbrev PartM := StorageM FilePart

namespace FilePart

variable (sha256 : List UInt8 → Digest)

def healthy : PartM Unit := do
  let h ← get
  throwIf (h.poisoned = true) .invalidState

/-- The digest of some bytes of a file. Nothing is read where there is nothing to read. -/
def hashFile (file : Inode) (start length : ℕ) : StorageM τ Digest := do
  sys (.seek file start)
  if length = 0 then
    return sha256 []
  else
    let bytes : List UInt8 ← sys (.readExact file start length)
    return sha256 bytes

/-- `FilePart::hash`. -/
def hash (start length : ℕ) : PartM Digest := do
  let h ← get
  hashFile sha256 h.file start length

/-- The write itself, after everything it depends on was checked. -/
def writeThrough (offset : ℕ) (bytes : List UInt8) (plan : ℕ × ℕ × ByteRange) : PartM Unit := do
  modify fun h ↦ { h with poisoned := true, synchronized := false, verified := none }
  let h ← get
  sys (.seek h.file offset)
  sys (.writeAll h.file offset bytes)
  modify fun h ↦ { h.addCoverage plan with poisoned := false }

def writeAt (offset : ℕ) (bytes : List UInt8) : PartM Unit := do
  healthy
  let h ← get
  throwIf (h.isSealed = true) .invalidState
  if bytes = [] then
    throwIf (offset > h.spec.size) .bounds
  else
    let range ← MonadExcept.ofExcept (h.range offset bytes.length)
    throwIf (h.guards range = true) .invalidState
    let plan ← MonadExcept.ofExcept (h.coveragePlan range)
    writeThrough offset bytes plan

def sync : PartM Unit := do
  healthy
  modify fun h ↦ { h with poisoned := true }
  let h ← get
  sys (.syncAll h.file)
  modify fun h ↦ { h with synchronized := true, poisoned := false }

def hashRange (range : ByteRange) : PartM Digest := do
  healthy
  let h ← get
  throwIf (range.stop > h.spec.size) .bounds
  hash sha256 range.start range.len

def recoverExtent (range : ByteRange) (digest : Digest) : PartM Unit := do
  healthy
  let h ← get
  throwIf (range.stop > h.spec.size) .bounds
  let plan ← MonadExcept.ofExcept (h.coveragePlan range)
  let found ← hash sha256 range.start range.len
  throwIf (found ≠ digest) .integrity
  throwIf (h.protectedRanges.length ≥ maxExtents) .bounds
  modify fun h ↦ { h.addCoverage plan with protectedRanges := h.protectedRanges ++ [range] }

/-! ### Verification -/

/-- How far ranges in order reach without a gap. -/
def reach : List ByteRange → ℕ → Except StorageError ℕ
  | [], reached => .ok reached
  | range :: ranges, reached =>
    if range.start > reached then .error .integrity else reach ranges (max reached range.stop)

/-- Every byte sits inside something that was recorded. -/
def attested (h : FilePart) (record : List (ByteRange × Digest)) : Except StorageError Unit :=
  match reach ((record.map Prod.fst).insertionSort fun a b ↦ a.start ≤ b.start) 0 with
  | .error e => .error e
  | .ok reached => if reached ≠ h.spec.size then .error .integrity else .ok ()

/-- Every recorded range is hashed again. -/
def rehash : List (ByteRange × Digest) → PartM Unit
  | [] => pure ()
  | (range, digest) :: record => do
    let h ← get
    throwIf (range.stop > h.spec.size) .bounds
    let found ← hash sha256 range.start range.len
    throwIf (found ≠ digest) .integrity
    rehash record

def verify (expected : Option Digest) (record : List (ByteRange × Digest)) : PartM Digest := do
  healthy
  modify fun h ↦ { h with verified := none }
  let h ← get
  throwIf (h.complete = false ∨ h.synchronized = false) .invalidState
  let found : Metadata ← sys (.metadata h.file)
  throwIf (found.len ≠ h.spec.size) .integrity
  MonadExcept.ofExcept (h.attested record)
  rehash sha256 record
  let digest ← hash sha256 0 h.spec.size
  throwIf (expected.any (· ≠ digest) = true) .integrity
  modify fun h ↦ { h with verified := some digest }
  return digest

/-! ### Removal -/

/-- Removes a file, or finds that it is gone. -/
def removeGone (path : Path) : StorageM τ Unit := do
  match ← attempt (.removeFile path) with
  | .ok _ | .error .notFound => pure ()
  | .error kind => throw (.io kind)

def discard : PartM Unit := do
  let h ← get
  throwIf (h.published = false ∧ h.cancelled = false) .invalidState
  modify fun h ↦ { h with poisoned := true }
  -- the part first, then its sidecar
  removeGone h.path
  removeGone (h.spec.path h.directory .sidecar)
  sys (.syncDirectory h.directory)

def abandon : PartM Unit := modify fun h ↦ { h with cancelled := true }

/-! ### Publication -/

/-- Nothing has this name. -/
def checkAbsent (path : Path) : StorageM τ Unit := do
  match ← attempt (.symlinkMetadata path) with
  | .ok _ => throw .conflict
  | .error .notFound => pure ()
  | .error kind => throw (.io kind)

/-- What has to be true before anything is done. -/
def checkPublishable (destination : Path) : PartM (Digest × Path) := do
  healthy
  let h ← get
  match h.verified with
  | none => throw .invalidState
  | some expected =>
    throwIf (h.synchronized = false ∨ h.complete = false) .invalidState
    let destination ← resolveDestination destination
    checkAbsent destination
    ordinary h.path false
    let found : Metadata ← sys (.metadata h.file)
    if found.len ≠ h.spec.size then
      modify fun h ↦ { h with verified := none }
      throw .integrity
    else
      return (expected, destination)

/-- Freezes the generation, on disk before a second name can expose it. -/
def freeze : PartM Unit := do
  modify fun h ↦ { h with poisoned := true }
  let h ← get
  sys (.seek h.metadata 33)
  sys (.writeAll h.metadata 33 [1])
  sys (.syncAll h.metadata)
  modify fun h ↦ { h with isSealed := true }

/-- `hash_whole` of the staged link. -/
def hashStaged (staged : Path) (size : ℕ) : StorageM τ Digest := do
  let file : Inode ← sys (.openFile staged)
  hashFile sha256 file 0 size

/-- Proves the staged link. -/
def proveStaged (staged : Path) (expected : Digest) : PartM Unit := do
  let h ← get
  let proved ← observe (hashStaged sha256 staged h.spec.size)
  if proved ≠ .ok expected then
    let _ ← attempt (.removeFile staged)
    modify fun h ↦ { h with poisoned := false, isSealed := false, verified := none }
    throw .integrity
  else
    pure ()

/-- Links the part under a name of its own, and proves that link. -/
def stage (staged : Path) (expected : Digest) : PartM Unit := do
  let h ← get
  let _ ← attempt (.removeFile staged)
  match ← attempt (.hardLink h.path staged) with
  | .error kind =>
    modify fun h ↦ { h with poisoned := false, isSealed := false }
    throw (.io kind)
  | .ok _ => proveStaged sha256 staged expected

/-- The destination appears. -/
def expose (staged destination : Path) : PartM Unit := do
  match ← attempt (.hardLink staged destination) with
  | .ok _ => pure ()
  | .error kind =>
    let _ ← attempt (.removeFile staged)
    modify fun h ↦ { h with poisoned := false }
    throw (match kind with
      | .alreadyExists => .conflict
      | .unsupported | .crossesDevices => .unsupported
      | kind => .io kind)

def publish (destination : Path) : PartM Path := do
  let (expected, destination) ← checkPublishable destination
  freeze
  let h ← get
  let staged := h.spec.path h.directory .staged
  stage sha256 staged expected
  expose staged destination
  let _ ← attempt (.removeFile staged)
  sys (.syncAll h.file)
  syncParent destination
  sys (.syncDirectory h.directory)
  modify fun h ↦ { h with published := true, poisoned := false }
  return destination

end FilePart

end Fhd
