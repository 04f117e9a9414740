import FhdEngine.Domain.Job

/-!
# The values that cross the application's ports

From `crates/application/src/lib.rs`: receipts for idempotent admission, the unit of work that admits
a job, durable extents and publish intents, and the errors a port may answer with. The ports
themselves are modelled where they are implemented.
-/

namespace Fhd

/-- An authenticated principal: a nonzero `u64`. -/
@[ext] structure Principal where
  get : ℕ
  get_ne_zero : get ≠ 0
deriving Repr

instance : DecidableEq Principal := fun a b ↦ decidable_of_iff (a.get = b.get) Principal.ext_iff.symm

/-- The identity of a request, scoped by its principal. -/
structure ReceiptKey where
  principal : Principal
  digest : Digest
deriving DecidableEq, Repr

inductive AppError
  | invalidInput
  | forbidden
  | entitlementDenied
  | persistenceUnavailable
  | idempotencyConflict
  | previouslyRemoved
  | capacity
  | corruptRepository
deriving DecidableEq, Repr

structure Receipt where
  key : ReceiptKey
  original : JobSpec
  job : JobId
  removed : Bool
deriving DecidableEq, Repr

namespace Receipt

def new (key : ReceiptKey) (original : JobSpec) (job : JobId) : Receipt := ⟨key, original, job, false⟩

def tombstone (r : Receipt) : Receipt := { r with removed := true }

/-- The answer a receipt gives to a repeated request. -/
def replay (r : Receipt) (key : ReceiptKey) (spec : JobSpec) : Except AppError JobId :=
  if r.key ≠ key then .error .corruptRepository
  else if r.original ≠ spec then .error .idempotencyConflict
  else if r.removed then .error .previouslyRemoved
  else .ok r.job

end Receipt

/-- An indivisible create transaction. -/
structure AddUnitOfWork where
  job : Job
  receipt : Receipt

inductive CommitError
  | conflict
  | unavailable
  | capacity
deriving DecidableEq, Repr

/-- A synced range and the digest of its bytes, hashed after the sync. -/
structure DurableExtent where
  range : ByteRange
  digest : Digest
deriving DecidableEq, Repr

/-- Recorded before a publish attempt, so that a crash between renaming and committing can be
reconciled. -/
structure PublishIntent where
  job : JobId
  generation : Generation
  attempt : UInt32
  size : ℕ
  digest : Digest
deriving DecidableEq, Repr

end Fhd
