import FhdEngine.Daemon.Service
import FhdEngine.DownloadEngine.Options

/-!
# The wire contract

`crates/protocol/src/lib.rs`: what a client and the engine say to each other, what no message may carry, and
how a message becomes a frame of four bytes of length and that many bytes of JSON. The JSON text of a message
is the library's (`toVec`).
-/

namespace Fhd.Protocol

open DownloadEngine (utf8)

/-- The largest frame either side will build or accept. -/
def maxFrame : ℕ := 256 * 1024

/-- This contract. -/
def version : ℕ := 1

def maxUrl : ℕ := 16384

def maxPath : ℕ := 32768

/-- A listing is paged rather than unbounded. -/
def maxJobsPerPage : ℕ := 512

/-- The largest single read a transport is expected to hand over. -/
def maxRead : ℕ := 64 * 1024

inductive ProtocolError
  | tooLarge
  | malformed
  | unsupportedVersion (v : ℕ)
  | invalid
deriving DecidableEq, Repr

def ProtocolError.code : ProtocolError → String
  | .tooLarge => "IPC-TOO-LARGE"
  | .malformed => "IPC-MALFORMED"
  | .unsupportedVersion _ => "IPC-VERSION"
  | .invalid => "IPC-INVALID"

inductive Request
  | add (request : AddRequest)
  | list (after : Option ℕ)
  | pause (job : ℕ)
  | resume (job : ℕ)
  | cancel (job : ℕ)
  | shutdown
deriving DecidableEq, Repr

structure JobSummary where
  job : ℕ
  state : String
  reason : Option String
  durableBytes : ℕ
  total : Option ℕ
deriving DecidableEq, Repr

inductive Response
  | accepted (job : ℕ)
  /-- With `next` more jobs follow. -/
  | jobs (jobs : List JobSummary) (next : Option ℕ)
  | done
  | failed (code : String)
deriving DecidableEq, Repr

/-- Lowercase hex of a digest. -/
def isHex (hex : String) : Bool :=
  hex.utf8ByteSize = 64 && (utf8 hex).all fun b ↦ isDigit b || (97 ≤ b && b ≤ 102)

def Request.check : Request → Except ProtocolError Unit
  | .add asked =>
    if asked.url = "" ∨ asked.url.utf8ByteSize > maxUrl ∨ asked.destination = "" ∨
        asked.destination.utf8ByteSize > maxPath ∨ asked.maxBytes = 0 then .error .invalid
    else if asked.expectedSha256.all isHex then .ok ()
    else .error .invalid
  | .pause job | .resume job | .cancel job => if job = 0 then .error .invalid else .ok ()
  | .list (some 0) => .error .invalid
  | .list _ => .ok ()
  | .shutdown => .ok ()

def Response.check : Response → Except ProtocolError Unit
  | .accepted job => if job = 0 then .error .invalid else .ok ()
  | .jobs page _ =>
    if page.length > maxJobsPerPage then .error .invalid
    else if page.any (·.job = 0) then .error .invalid
    else .ok ()
  | .failed code => if code = "" ∨ code.utf8ByteSize > 64 then .error .invalid else .ok ()
  | .done => .ok ()

/-! ### Frames -/

structure Envelope (T : Type) where
  v : ℕ
  /-- Echoed in the answer. -/
  id : ℕ
  body : T

/-- `u32::to_be_bytes`. -/
def be32 (n : ℕ) : Bytes := [UInt8.ofNat (n / 2 ^ 24), UInt8.ofNat (n / 2 ^ 16), UInt8.ofNat (n / 2 ^ 8), UInt8.ofNat n]

/-- `u32::from_be_bytes`. -/
def fromBe32 (a b c d : UInt8) : ℕ := ((a.toNat * 256 + b.toNat) * 256 + c.toNat) * 256 + d.toNat

theorem fromBe32_be32 {n : ℕ} (h : n < 2 ^ 32) : fromBe32 (UInt8.ofNat (n / 2 ^ 24)) (UInt8.ofNat (n / 2 ^ 16))
    (UInt8.ofNat (n / 2 ^ 8)) (UInt8.ofNat n) = n := by
  simp only [fromBe32, UInt8.toNat_ofNat']
  omega

def encode {T : Type} (check : T → Except ProtocolError Unit) (toVec : Envelope T → Option Bytes) (id : ℕ) (body : T) :
    Except ProtocolError Bytes := do
  check body
  match toVec ⟨version, id, body⟩ with
  | none => throw .malformed
  | some json => if json.length > maxFrame then throw .tooLarge else return be32 json.length ++ json

/-- What `encode` builds. -/
theorem encode_eq_ok {T : Type} {check : T → Except ProtocolError Unit} {toVec : Envelope T → Option Bytes} {id : ℕ}
    {body : T} {frame : Bytes} (h : encode check toVec id body = .ok frame) :
    ∃ json, toVec ⟨version, id, body⟩ = some json ∧ json.length ≤ maxFrame ∧ frame = be32 json.length ++ json := by
  unfold encode at h
  obtain ⟨-, -, h⟩ := Fallible.bind_eq_ok.1 h
  split at h
  next => cases h
  next json hjson =>
    split at h
    next => cases h
    next hshort =>
      cases h
      exact ⟨json, hjson, not_lt.1 hshort, rfl⟩

end Fhd.Protocol
