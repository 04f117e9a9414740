import FhdEngine.Library.Routine
import FhdEngine.Application.Storage
import Mathlib.Logic.Function.Basic

/-!
# The file system under the part store

`crates/adapters/storage/src/lib.rs` works on files through the system calls listed in `Syscall`.
A `Disk` is what they work on: names, the files that names stand for, and the bytes of each file. A
file is not its name. It keeps its bytes and its number while names come and go, two names may stand
for one file, and an open handle goes on naming a file whose name is gone.

Folders are not redirected here, so a path that leads somewhere is its own canonical form.

`Disk.serve` answers a call, or lets it fail. A call that fails leaves no trace, except a write, which
may have got through in part. A program over these calls that stops between two of them is a crash of
the engine, so every crash point of a storage operation is a point that `Process.Reaches`.
-/

namespace Fhd

open Process (Prog Environment)

/-- The number of a file. -/
abbrev Inode := ℕ

/-- What a name stands for; `other` is a link or a device. -/
inductive Node
  | file (inode : Inode)
  | directory
  | other
deriving DecidableEq, Repr

/-- Names, and the bytes of files. -/
structure Disk where
  names : Path → Option Node
  contents : Inode → List UInt8
  fresh : Inode
  lt_fresh : ∀ {path inode}, names path = some (.file inode) → inode < fresh

/-- Bytes put at a position, over what stands there and beyond the end if need be. -/
def overwrite (old : List UInt8) (position : ℕ) (bytes : List UInt8) : List UInt8 :=
  if bytes = [] then old else old.takeD position 0 ++ bytes ++ old.drop (position + bytes.length)

inductive FileType
  | file
  | directory
  | other
deriving DecidableEq, Repr

structure Metadata where
  fileType : FileType
  len : ℕ
deriving DecidableEq, Repr

inductive Syscall
  | createDir (path : Path)
  | canonicalize (path : Path)
  /-- Opens a directory and syncs it. -/
  | syncDirectory (path : Path)
  | symlinkMetadata (path : Path)
  /-- For reading and writing, either a new file or one that is there. -/
  | openOptions (path : Path) (createNew : Bool)
  /-- For reading. -/
  | openFile (path : Path)
  | metadata (file : Inode)
  | setLen (file : Inode) (length : ℕ)
  | syncAll (file : Inode)
  | seek (file : Inode) (position : ℕ)
  /-- At the position the last seek of this handle went to. -/
  | writeAll (file : Inode) (position : ℕ) (bytes : List UInt8)
  | readExact (file : Inode) (position length : ℕ)
  | removeFile (path : Path)
  | hardLink (original link : Path)
deriving DecidableEq, Repr

/-- What a call gives when it does not fail. -/
def Output : Syscall → Type
  | .canonicalize _ => Path
  | .symlinkMetadata _ | .metadata _ => Metadata
  | .openOptions _ _ | .openFile _ => Inode
  | .readExact _ _ _ => List UInt8
  | _ => Unit

abbrev Reply (op : Syscall) := Except ErrorKind (Output op)

/-- How a call fails, and how much of a write got through before. -/
structure Fault where
  kind : ErrorKind
  written : ℕ
deriving DecidableEq, Repr

namespace Disk

variable (d : Disk)

/-! ### What calls do to a disk -/

/-- A name goes. -/
def unlink (path : Path) : Disk :=
  { d with
    names := Function.update d.names path none
    lt_fresh := fun {p i} h ↦ by
      by_cases hp : p = path
      · rw [hp, Function.update_self] at h
        cases h
      · rw [Function.update_of_ne hp] at h
        exact d.lt_fresh h }

/-- A name comes, for something that is there. -/
def link (path : Path) (node : Node) (hnode : ∀ inode, node = .file inode → inode < d.fresh) : Disk :=
  { d with
    names := Function.update d.names path (some node)
    lt_fresh := fun {p i} h ↦ by
      by_cases hp : p = path
      · rw [hp, Function.update_self] at h
        exact hnode i (Option.some.inj h)
      · rw [Function.update_of_ne hp] at h
        exact d.lt_fresh h }

/-- A new empty file, with its name. -/
def create (path : Path) : Disk :=
  { d with
    names := Function.update d.names path (some (.file d.fresh))
    contents := Function.update d.contents d.fresh []
    fresh := d.fresh + 1
    lt_fresh := fun {p i} h ↦ by
      by_cases hp : p = path
      · rw [hp, Function.update_self] at h
        cases h
        exact Nat.lt_succ_self _
      · rw [Function.update_of_ne hp] at h
        exact Nat.lt_succ_of_lt (d.lt_fresh h) }

/-- Other bytes in a file. -/
def put (file : Inode) (bytes : List UInt8) : Disk :=
  { d with contents := Function.update d.contents file bytes }

def fileType : Node → FileType
  | .file _ => .file
  | .directory => .directory
  | .other => .other

def lenOf : Node → ℕ
  | .file inode => (d.contents inode).length
  | _ => 0

def isDirectory (path : Path) : Prop := path = [] ∨ d.names path = some .directory

instance (path : Path) : Decidable (d.isDirectory path) := inferInstanceAs (Decidable (_ ∨ _))

/-- What a call does when nothing is wrong with the device. -/
def answer : (op : Syscall) → Reply op × Disk
  | .createDir path =>
    if (d.names path).isSome then (.error .alreadyExists, d)
    else if d.isDirectory path.dropLast then (.ok (), d.link path .directory nofun)
    else (.error .notFound, d)
  | .canonicalize path =>
    if path = [] ∨ (d.names path).isSome then (.ok path, d) else (.error .notFound, d)
  | .syncDirectory path => if d.isDirectory path then (.ok (), d) else (.error .notFound, d)
  | .symlinkMetadata path =>
    match d.names path with
    | some node => (.ok ⟨fileType node, d.lenOf node⟩, d)
    | none => (.error .notFound, d)
  | .openOptions path createNew =>
    match d.names path with
    | some (.file inode) => if createNew then (.error .alreadyExists, d) else (.ok inode, d)
    | some _ => (.error (if createNew then .alreadyExists else .other), d)
    | none => if createNew then (.ok d.fresh, d.create path) else (.error .notFound, d)
  | .openFile path =>
    match d.names path with
    | some (.file inode) => (.ok inode, d)
    | some _ => (.error .other, d)
    | none => (.error .notFound, d)
  | .metadata file => (.ok ⟨.file, (d.contents file).length⟩, d)
  | .setLen file length => (.ok (), d.put file ((d.contents file).takeD length 0))
  | .syncAll _ => (.ok (), d)
  | .seek _ _ => (.ok (), d)
  | .writeAll file position bytes => (.ok (), d.put file (overwrite (d.contents file) position bytes))
  | .readExact file position length =>
    if position + length ≤ (d.contents file).length then
      (.ok (((d.contents file).drop position).take length), d)
    else (.error .unexpectedEof, d)
  | .removeFile path =>
    match d.names path with
    | some .directory => (.error .other, d)
    | some _ => (.ok (), d.unlink path)
    | none => (.error .notFound, d)
  | .hardLink original name =>
    match h : d.names original with
    | none => (.error .notFound, d)
    | some .directory => (.error .permissionDenied, d)
    | some node =>
      if (d.names name).isSome then (.error .alreadyExists, d)
      else (.ok (), d.link name node fun _ hi ↦ d.lt_fresh (h.trans (congrArg some hi)))

/-- What is left of a call that fails. -/
def spoil : Syscall → ℕ → Disk
  | .writeAll file position bytes, written =>
    d.put file (overwrite (d.contents file) position (bytes.take written))
  | _, _ => d

/-- The answer to a call, which may fail in any way. -/
def serve (op : Syscall) : Option Fault → Reply op × Disk
  | none => d.answer op
  | some fault => (.error fault.kind, d.spoil op fault.written)

end Disk

/-- How a disk may answer. -/
def onDisk : Environment Disk Syscall Reply :=
  fun d op x d' ↦ ∃ fault, d.serve op fault = (x, d')

end Fhd
