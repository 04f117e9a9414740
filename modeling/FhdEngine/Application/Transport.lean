import FhdEngine.Application.Ports

/-!
# The network port

`crates/application/src/transport.rs`: what a probe reports, how a request may fail, and the opaque
key that groups sources by origin.
-/

namespace Fhd

/-- The grouping key of an origin, `[u8; 16]` in the source. -/
structure OriginId where
  get : Vector UInt8 16
deriving DecidableEq, Repr

structure Probe where
  total : ℕ
  /-- A digest of the representation's strong validator. -/
  validator : Option Digest
deriving DecidableEq, Repr

/-- Without a validator there is no range support and no resume. -/
def Probe.ranges (p : Probe) : Bool := p.validator.isSome

inductive TransportError
  /-- Reset, timeout, truncated body: retry with backoff. -/
  | transient
  /-- The server's delay in milliseconds when it gave one. -/
  | throttled (retryAfterMs : Option ℕ)
  /-- A different representation than the one probed. -/
  | representationChanged
  | userAction (reason : StopReason)
  | fatal (reason : StopReason)
deriving DecidableEq, Repr

end Fhd
