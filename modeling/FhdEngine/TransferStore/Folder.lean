import FhdEngine.Library.Synced
import FhdEngine.Storage.Disk

/-!
# The folder of a sequential store

`crates/transfer-store/src/lib.rs` keeps one download in a folder of its own: a lock file, the payload, a
database with one row, and at last the output, which is a second name for the payload. `Call` lists what
the store asks of the operating system and of SQLite, and `Folder` is what they work on.

Every call may fail and leave no trace, or part of a write, and every call may take effect and be reported
as failed. A statement of the database takes effect as a whole or not at all. A crash (`Folder.Crashed`)
takes what was written to a file since its last sync, in any way, and any name that appeared since the last
sync of the folder. Names, once they are there, are never taken away and never made to stand for something
else by any call.
-/

namespace Fhd

open Process (Synced)

namespace TransferStore

/-- The row of the table `job`, column by column. -/
structure JobRow where
  version : ℤ
  original : List UInt8
  final : List UInt8
  etag : Option String
  total : ℤ
  expected : Option (List UInt8)
  output : String
  committed : ℤ
  digest : List UInt8
  phase : ℤ
  /-- Only the second version of the table has this column. -/
  lengthKnown : Option ℤ
deriving DecidableEq, Repr

/-- The constraints of the table. -/
def JobRow.check (r : JobRow) : Bool :=
  r.original.length = 32 ∧ r.final.length = 32 ∧ 0 ≤ r.total ∧ (0 ≤ r.committed ∧ r.committed ≤ r.total) ∧
    r.digest.length = 32 ∧ (0 ≤ r.phase ∧ r.phase ≤ 3) ∧ (r.lengthKnown = none ∨ r.lengthKnown = some 0 ∨
      r.lengthKnown = some 1)

structure Folder where
  /-- Whether it was made, and neither it nor a folder above it is a link. -/
  ordinary : Bool
  entries : List (String × Node)
  /-- The names no crash takes. -/
  settled : List String
  files : Inode → Synced UInt8
  fresh : Inode
  job : Option JobRow
  /-- A ghost record: the names that calls have made, each with its file. -/
  made : List (String × Inode)

inductive Call
  | checkAncestors
  | createDir
  | readDir
  | symlinkMetadata (name : String)
  | openOptions (name : String) (createNew : Bool)
  | tryLock (file : Inode)
  | metadata (file : Inode)
  | setLen (file : Inode) (length : ℕ)
  | syncAll (file : Inode)
  | seek (file : Inode) (position : ℕ)
  | read (file : Inode) (position count : ℕ)
  | writeAll (file : Inode) (position : ℕ) (bytes : List UInt8)
  | hardLink (original link : String)
  | syncDirectory
  /-- `Connection::open`; what `configure` sets goes with it. -/
  | openDatabase (name : String) (create : Bool)
  | createTable
  | addLengthKnown
  | insertJob (row : JobRow)
  | selectVersion
  | selectJob
  | selectLengthKnown
  | updateUrls (original final : List UInt8)
  | updateReceipt (committed : ℤ) (digest : List UInt8)
  | updatePhase (phase : ℤ)
  | beginTransaction
  /-- The update inside the transaction, and its commit. -/
  | executeCompletion (total : ℤ)
  | commitCompletion (total : ℤ)
deriving DecidableEq, Repr

/-- What a call gives when it does not fail; an update tells how many rows it changed. -/
def Output : Call → Type
  | .readDir => List String
  | .symlinkMetadata _ => FileType
  | .openOptions _ _ => Inode
  | .metadata _ => ℕ
  | .read _ _ _ => List UInt8
  | .selectVersion | .selectLengthKnown => ℤ
  | .selectJob => JobRow
  | .updateUrls _ _ | .updateReceipt _ _ | .updatePhase _ | .executeCompletion _ => ℕ
  | _ => Unit

abbrev Reply (op : Call) := Except ErrorKind (Output op)

namespace Folder

variable (f : Folder)

def node (name : String) : Option Node := f.entries.lookup name

/-- A name comes. -/
def link (name : String) (node : Node) : Folder := { f with entries := f.entries ++ [(name, node)] }

/-- A new empty file, with its name. -/
def create (name : String) : Folder :=
  { f.link name (.file f.fresh) with
    files := Function.update f.files f.fresh .empty
    fresh := f.fresh + 1
    made := f.made ++ [(name, f.fresh)] }

def change (file : Inode) (g : Synced UInt8 → Synced UInt8) : Folder :=
  { f with files := Function.update f.files file (g (f.files file)) }

/-- One statement on the one row: it keeps the constraints, or is refused. -/
def update (g : JobRow → JobRow) : Except ErrorKind ℕ × Folder :=
  match f.job with
  | none => (.ok 0, f)
  | some row => if (g row).check then (.ok 1, { f with job := some (g row) }) else (.error .other, f)

/-- The row `mark_unknown_transfer_complete` looks for. -/
def incomplete (row : JobRow) : Bool := row.version = 3 ∧ row.lengthKnown = some 0 ∧ row.phase = 0

def completed (total : ℤ) (row : JobRow) : JobRow :=
  { row with total := total, lengthKnown := some 1, phase := 1 }

/-- What a call does when nothing fails; a read may give fewer bytes than it was asked for, but at least
one where there is one. -/
def answer (taken : ℕ) : (op : Call) → Reply op × Folder
  | .checkAncestors => (.ok (), f)
  | .createDir => if f.ordinary then (.error .alreadyExists, f) else (.ok (), { f with ordinary := true })
  | .readDir => (.ok (f.entries.map (·.1)), f)
  | .symlinkMetadata name =>
    match f.node name with
    | some node => (.ok (Disk.fileType node), f)
    | none => (.error .notFound, f)
  | .openOptions name createNew =>
    match f.node name with
    | some (.file inode) => if createNew then (.error .alreadyExists, f) else (.ok inode, f)
    | some _ => (.error (if createNew then .alreadyExists else .other), f)
    | none => if createNew then (.ok f.fresh, f.create name) else (.error .notFound, f)
  | .tryLock _ => (.ok (), f)
  | .metadata file => (.ok (f.files file).bytes.length, f)
  | .setLen file length => (.ok (), f.change file (.setLen 0 length))
  | .syncAll file => (.ok (), f.change file .sync)
  | .seek _ _ => (.ok (), f)
  | .read file position count =>
    (.ok (((f.files file).bytes.drop position).take (min count (taken + 1))), f)
  | .writeAll file position bytes => (.ok (), f.change file (.write 0 position bytes))
  | .hardLink original link =>
    match f.node original with
    | none => (.error .notFound, f)
    | some (.file inode) =>
      if (f.node link).isSome then (.error .alreadyExists, f)
      else (.ok (), { f.link link (.file inode) with made := f.made ++ [(link, inode)] })
    | some _ => (.error .permissionDenied, f)
  | .syncDirectory => (.ok (), { f with settled := f.entries.map (·.1) })
  | .openDatabase name create =>
    if (f.node name).isSome then (.ok (), f)
    else if create then (.ok (), f.create name)
    else (.error .notFound, f)
  | .createTable => (.ok (), f)
  | .addLengthKnown => (.ok (), f)
  | .insertJob row => if row.check ∧ f.job = none then (.ok (), { f with job := some row }) else (.error .other, f)
  | .selectVersion =>
    match f.job with
    | none => (.error .other, f)
    | some row => (.ok row.version, f)
  | .selectJob =>
    match f.job with
    | none => (.error .other, f)
    | some row => (.ok row, f)
  | .selectLengthKnown =>
    match f.job.bind (·.lengthKnown) with
    | none => (.error .other, f)
    | some known => (.ok known, f)
  | .updateUrls original final => f.update fun row ↦ { row with original := original, final := final }
  | .updateReceipt committed digest => f.update fun row ↦ { row with committed := committed, digest := digest }
  | .updatePhase phase => f.update fun row ↦ { row with phase := phase }
  | .beginTransaction => (.ok (), f)
  | .executeCompletion total =>
    match f.job with
    | none => (.ok (0 : ℕ), f)
    | some row =>
      if incomplete row then
        if (completed total row).check then (.ok (1 : ℕ), f) else (.error .other, f)
      else (.ok (0 : ℕ), f)
  | .commitCompletion total => (.ok (), (f.update (completed total)).2)

/-- What becomes of a call, apart from what it is answered. -/
inductive Fate
  | answered (taken : ℕ)
  /-- It fails, and this much of a write got through. -/
  | failed (kind : ErrorKind) (written : ℕ)
  /-- It takes effect, and is reported as failed. -/
  | lost (kind : ErrorKind)
deriving DecidableEq, Repr

/-- A failure is no answer: a look that fails does not say that nothing is there. -/
def Fate.honest (op : Call) : Fate → Prop
  | .failed .notFound _ | .lost .notFound => ∀ name, op ≠ .symlinkMetadata name
  | _ => True

/-- What is left of a call that fails. -/
def spoil : Call → ℕ → Folder
  | .writeAll file position bytes, written => f.change file (.write 0 position (bytes.take written))
  | _, _ => f

def serve (op : Call) : Fate → Reply op × Folder
  | .answered taken => f.answer taken op
  | .failed kind written => (.error kind, f.spoil op written)
  | .lost kind => (.error kind, (f.answer 0 op).2)

/-- **A crash** takes what no sync has made sure. -/
structure Crashed (f f' : Folder) : Prop where
  ordinary : f'.ordinary = f.ordinary
  entries : ∃ kept : String → Bool, f'.entries = f.entries.filter fun e ↦ kept e.1
  settled : f'.settled = f.settled
  names : ∀ name ∈ f.settled, f'.node name = f.node name
  files : ∀ inode, (f.files inode).Crashed (f'.files inode)
  fresh : f'.fresh = f.fresh
  job : f'.job = f.job
  made : f'.made = f.made

/-! ### Others -/

/-- What somebody else may put under a name: something new, or another name for a file that is there. -/
inductive Arrival
  | directory
  | other
  | file (content : Synced UInt8)
  | link (inode : Inode)

def arrive (name : String) : Arrival → Folder
  | .directory => f.link name .directory
  | .other => f.link name .other
  | .file content =>
    { f.link name (.file f.fresh) with
      files := Function.update f.files f.fresh content
      fresh := f.fresh + 1 }
  | .link inode => f.link name (.file inode)

/-- **What others do between two calls**: nothing, or they take the name of the output. -/
def Stirred (alone : Prop) (output : String) (f f' : Folder) : Prop :=
  f' = f ∨ ¬alone ∧ f.node output = none ∧ ∃ arrival, f' = f.arrive output arrival ∧
    ∀ inode, arrival = .link inode → inode < f.fresh

end Folder

/-- How a folder may answer. -/
def onFolder (alone : Prop) (output : String) : Process.Environment Folder Call Reply :=
  fun f op x f' ↦ ∃ f₁ fate, f.Stirred alone output f₁ ∧ fate.honest op ∧ f₁.serve op fate = (x, f')

/-- How a folder answers while nothing fails. -/
def calmly (alone : Prop) (output : String) : Process.Environment Folder Call Reply :=
  fun f op x f' ↦ ∃ f₁ taken, f.Stirred alone output f₁ ∧ f₁.answer taken op = (x, f')

end TransferStore

end Fhd
