import FhdEngine.Runtime.Buffers
import FhdEngine.Library.Routine

/-!
# The writer lane

`crates/runtime/src/writer.rs`. One thread owns the file of a part. Workers send it commands through a bounded channel,
each with a sender for the one reply. The thread takes a command at a time, except that a write takes up those
neighbours that are queued already, as long as the buffer has room. The first failure that is no verdict stays, and
answers everything that comes later.

What the thread does between two commands of the channel, and how much of the channel it finds whenever it looks, is up
to the steps below: a `Turn` is the thread's, an `Offer` is anybody else's. The file behind the trait object is an
environment. What was accepted, called and answered is recorded.
-/

namespace Fhd

open Process (Environment)
open Buffers (Buffer)

namespace Writer

/-! ### The file -/

/-- What the lane asks of its file. -/
inductive FileCall
  | writeAt (offset : ℕ) (bytes : Bytes)
  | sync
  | hashRange (range : ByteRange)
  | verify (expected : Option Digest) (record : List (ByteRange × Digest))
  | publish (destination : Path)
  /-- After `abandon` if the transfer is given up. -/
  | discard (abandon : Bool)
deriving DecidableEq

def FileCall.Output : FileCall → Type
  | .hashRange _ | .verify _ _ => Digest
  | .publish _ => Path
  | _ => Unit

abbrev FileReply (call : FileCall) := Except StorageError call.Output

/-- What a command is answered if nothing fails. -/
inductive Answer
  | done
  | digest (digest : Digest)
  | path (path : Path)
deriving DecidableEq

def FileCall.answer : (call : FileCall) → call.Output → Answer
  | .hashRange _, digest | .verify _ _, digest => .digest digest
  | .publish _, path => .path path
  | .writeAt _ _, _ | .sync, _ | .discard _, _ => .done

/-- What is sent to whoever waits for a call. -/
def FileCall.verdict (call : FileCall) : FileReply call → Except WriterError Answer
  | .ok x => .ok (call.answer x)
  | .error e => .error (.storage e)

/-- What stays of a call. A conflict and a digest that does not match are verdicts and leave the lane as it is; a file
that was removed is gone either way. -/
def FileCall.poisons (call : FileCall) (x : FileReply call) : Option WriterError :=
  match call, x with
  | .discard _, .ok _ => some .closed
  | _, .ok _ => none
  | .publish _, .error .conflict => none
  | .verify _ _, .error .integrity => none
  | _, .error e => some (.storage e)

/-! ### Commands -/

/-- Everything but a write is a barrier. The last argument is the sender of the reply. -/
inductive Command
  | write (offset : ℕ) (buffer : Buffer) (reply : ℕ)
  | sync (reply : ℕ)
  | hash (range : ByteRange) (reply : ℕ)
  | verify (expected : Option Digest) (record : List (ByteRange × Digest)) (reply : ℕ)
  | publish (destination : Path) (reply : ℕ)
  | discard (abandon : Bool) (reply : ℕ)
deriving DecidableEq

namespace Command

def reply : Command → ℕ
  | write _ _ reply | sync reply | hash _ reply | verify _ _ reply | publish _ reply | discard _ reply => reply

def isWrite : Command → Bool
  | write _ _ _ => true
  | _ => false

/-- What is asked of the file for this command alone. -/
def call : Command → FileCall
  | write offset buffer _ => .writeAt offset (buffer.bytes.take buffer.len)
  | sync _ => .sync
  | hash range _ => .hashRange range
  | verify expected record _ => .verify expected record
  | publish destination _ => .publish destination
  | discard abandon _ => .discard abandon

/-- What is checked before a command is sent: a write comes with the part it is meant for. -/
def check (spec : PartSpec) (given : PartSpec) : Command → Except WriterError Unit
  | write offset buffer _ =>
    if given ≠ spec then .error .wrongGeneration
    else
      match checkedAdd offset buffer.len with
      | none => .error .bounds
      | some stop => if stop > spec.size then .error .bounds else .ok ()
  | hash range _ => if range.stop > spec.size then .error .bounds else .ok ()
  | _ => .ok ()

/-- Its buffer is one of the pool. -/
def Pooled (pool : BufferPool) : Command → Prop
  | write _ buffer _ => buffer.Fits pool.block
  | _ => True

end Command

/-! ### The lane -/

/-- What has happened. -/
inductive Event (φ : Type)
  /-- The file was called, and what it was then. -/
  | called (seen : φ) (call : FileCall) (result : FileReply call)
  | replied (reply : ℕ) (result : Except WriterError Answer)

/-- The file, the failure that stays, and what has happened, the last first. -/
structure Work (φ : Type) where
  file : φ
  failure : Option WriterError
  history : List (Event φ)

namespace Work

variable {φ : Type}

/-- Everybody who waits is answered the same. -/
def answer (w : Work φ) (replies : List ℕ) (result : Except WriterError Answer) : Work φ :=
  { w with history := (replies.map fun reply ↦ .replied reply result).reverse ++ w.history }

/-- The file was called. -/
def settle (w : Work φ) (call : FileCall) (x : FileReply call) (file : φ) (replies : List ℕ) : Work φ :=
  answer ⟨file, call.poisons x, .called w.file call x :: w.history⟩ replies (call.verdict x)

/-- The file is called unless something has failed before. -/
inductive Serves (E : Environment φ FileCall FileReply) (w : Work φ) (call : FileCall) (replies : List ℕ) : Work φ → Prop
  | refused {e : WriterError} (hfailure : w.failure = some e) : Serves E w call replies (w.answer replies (.error e))
  | called {x : FileReply call} {file : φ} (hfailure : w.failure = none) (hcall : E w.file call x file) :
    Serves E w call replies (w.settle call x file replies)

end Work

/-- Where the thread is. -/
inductive Phase
  /-- At the head of the loop. -/
  | waiting
  /-- With a write, and so many looks at the channel left. -/
  | gathering (rounds offset : ℕ) (buffer : Buffer) (replies : List ℕ)
  | ended

structure Lane (φ : Type) extends Work φ where
  spec : PartSpec
  capacity : ℕ
  /-- Somebody may still send. -/
  admitting : Bool
  channel : List Command
  pending : Option Command
  phase : Phase
  /-- Every command that was ever sent. -/
  accepted : List Command

/-- `Writer::start`. -/
def start {φ : Type} (file : φ) (spec : PartSpec) (capacity : ℕ) : Except WriterError (Lane φ) :=
  if 1 ≤ capacity ∧ capacity ≤ 256 then
    .ok {
      file, spec, capacity
      failure := none
      history := []
      admitting := true
      channel := []
      pending := none
      phase := .waiting
      accepted := [] }
  else .error .invalidCapacity

/-- A buffer with the next command in it, if that is a neighbour and there is room; unless a copy is out of bounds. -/
def coalesce (offset : ℕ) (buffer : Buffer) : Command → Option (Option Buffer)
  | .write next other _ =>
    if checkedAdd offset buffer.len = some next then
      (buffer.append other).map fun (joined, fits) ↦ if fits then some joined else none
    else some none
  | _ => some none

namespace Lane

variable {φ : Type}

/-- `pending.take()`, or what comes out of the channel. -/
def next (L : Lane φ) : Option (Command × Lane φ) :=
  match L.pending, L.channel with
  | some c, _ => some (c, { L with pending := none })
  | none, c :: channel => some (c, { L with channel })
  | none, [] => none

/-- One step of the thread. -/
inductive Turn (E : Environment φ FileCall FileReply) (L : Lane φ) : Lane φ → Prop
  | take {offset reply : ℕ} {buffer : Buffer} {L' : Lane φ} (hphase : L.phase = .waiting)
    (hnext : L.next = some (.write offset buffer reply, L')) :
    Turn E L { L' with phase := .gathering (L.capacity - 1) offset buffer [reply] }
  | serve {c : Command} {L' : Lane φ} {w : Work φ} (hphase : L.phase = .waiting) (hnext : L.next = some (c, L'))
    (hbarrier : c.isWrite = false) (hserves : L.toWork.Serves E c.call [c.reply] w) : Turn E L { L' with toWork := w }
  | absorb {rounds offset : ℕ} {buffer joined : Buffer} {replies : List ℕ} {c : Command} {channel : List Command}
    (hphase : L.phase = .gathering (rounds + 1) offset buffer replies) (hchannel : L.channel = c :: channel)
    (hjoined : coalesce offset buffer c = some (some joined)) :
    Turn E L { L with channel, phase := .gathering rounds offset joined (replies ++ [c.reply]) }
  | hold {rounds offset : ℕ} {buffer : Buffer} {replies : List ℕ} {c : Command} {channel : List Command}
    (hphase : L.phase = .gathering (rounds + 1) offset buffer replies) (hchannel : L.channel = c :: channel)
    (happart : coalesce offset buffer c = some none) :
    Turn E L { L with channel, pending := some c, phase := .gathering 0 offset buffer replies }
  /-- Nothing is found in the channel, or nothing yet. -/
  | dry {rounds offset : ℕ} {buffer : Buffer} {replies : List ℕ}
    (hphase : L.phase = .gathering (rounds + 1) offset buffer replies) :
    Turn E L { L with phase := .gathering 0 offset buffer replies }
  | write {offset : ℕ} {buffer : Buffer} {replies : List ℕ} {bytes : Bytes} {w : Work φ}
    (hphase : L.phase = .gathering 0 offset buffer replies) (hslice : buffer.asSlice = some bytes)
    (hserves : L.toWork.Serves E (.writeAt offset bytes) replies w) :
    Turn E L { L with toWork := w, phase := .waiting }
  | stop (hphase : L.phase = .waiting) (hnext : L.next = none) (hclosed : L.admitting = false) :
    Turn E L { L with phase := .ended }

/-- What anybody else does. -/
inductive Offer (pool : BufferPool) (L : Lane φ) : Lane φ → Prop
  | send {given : PartSpec} {c : Command} (hopen : L.admitting = true) (hroom : L.channel.length < L.capacity)
    (hreply : c.reply = L.accepted.length) (hpooled : c.Pooled pool) (hcheck : c.check L.spec given = .ok ()) :
    Offer pool L { L with channel := L.channel ++ [c], accepted := L.accepted ++ [c] }
  | close : Offer pool L { L with admitting := false }

/-- Any history of the lane and of those who send to it. -/
inductive Run (E : Environment φ FileCall FileReply) (pool : BufferPool) (L₀ : Lane φ) : Lane φ → Prop
  | start : Run E pool L₀ L₀
  | turn {L L' : Lane φ} (hrun : Run E pool L₀ L) (hturn : L.Turn E L') : Run E pool L₀ L'
  | offer {L L' : Lane φ} (hrun : Run E pool L₀ L) (hoffer : L.Offer pool L') : Run E pool L₀ L'

end Lane

end Writer

end Fhd
