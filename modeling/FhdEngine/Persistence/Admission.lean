import FhdEngine.Persistence.Tables

/-!
# Admission transactions

The admission half of `crates/adapters/persistence/src/lib.rs`: looking up a receipt, reserving an
identifier, admitting a job with its receipt, and removing a settled job. Deleting a job row cascades
to its state, extents and intent.
-/

namespace Fhd

open Fallible

namespace Persistence

/-- A live receipt belongs to a job with the same specification, a tombstone to none. -/
def matchesJob (removed : ℤ) (spec : JobSpec) (saved : Option JobsRow) :
    Except PersistenceError Unit :=
  match removed, saved with
  | 0, some saved => do
    let saved ← decodeSpec saved.spec
    require (saved = spec) .corrupt
  | 1, none => .ok ()
  | _, _ => .error .corrupt

/-- Looks a receipt up and compares it with the job it names. -/
def loadReceipt (s : Store) (key : ReceiptKey) : Except PersistenceError (Option Receipt) :=
  match s.receipts.lookup key with
  | none => .ok none
  | some row => do
    let spec ← decodeSpec row.spec
    let job ← orCorrupt (Identifier.new (← loaded row.jobId))
    matchesJob row.removed spec (s.jobs.lookup row.jobId)
    let receipt := Receipt.new key spec job
    pure (some (if row.removed = 1 then receipt.tombstone else receipt))

/-- **What a receipt that was found says**: a live one names a job row, a tombstone names none. -/
theorem loadReceipt_eq_some {s : Store} {key : ReceiptKey} {receipt : Receipt}
    (h : loadReceipt s key = .ok (some receipt)) : ∃ row, s.receipts.lookup key = some row ∧
      receipt.key = key ∧ row.jobId = receipt.job.get ∧ decodeSpec row.spec = .ok receipt.original ∧
      (row.removed = 0 ∧ receipt.removed = false ∧ s.jobs.lookup row.jobId ≠ none ∨
        row.removed = 1 ∧ receipt.removed = true ∧ s.jobs.lookup row.jobId = none) := by
  unfold loadReceipt at h
  split at h
  · cases h
  next row hrow =>
    obtain ⟨spec, hspec, h⟩ := bind_eq_ok.1 h
    obtain ⟨number, hnumber, h⟩ := bind_eq_ok.1 h
    obtain ⟨job, hjob, h⟩ := bind_eq_ok.1 h
    have hid : row.jobId = job.get := by rw [loaded_eq_ok.1 hnumber, get_of_identifier hjob]
    obtain ⟨_, hmatch, h⟩ := bind_eq_ok.1 h
    refine ⟨row, hrow, ?_⟩
    unfold matchesJob at hmatch
    split at hmatch
    next hremoved hsaved =>
      rw [hremoved] at h
      cases h
      exact ⟨rfl, hid, hspec, Or.inl ⟨hremoved, rfl, by simp [hsaved]⟩⟩
    next hremoved hsaved =>
      rw [hremoved] at h
      cases h
      exact ⟨rfl, hid, hspec, Or.inr ⟨hremoved, rfl, hsaved⟩⟩
    · cases hmatch

/-- Reserves the next identifier. -/
def reserveId (s : Store) : Except PersistenceError (JobId × Store) := do
  require (0 ≤ s.lastId) .corrupt
  require (s.lastId + 1 ≤ i64Max) .capacity
  let next := s.lastId + 1
  let id ← orCorrupt (Identifier.new next.toNat)
  pure (id, { s with lastId := next })

theorem reserveId_eq_ok {s s' : Store} {id : JobId} (h : reserveId s = .ok (id, s')) :
    0 ≤ s.lastId ∧ (id.get : ℤ) = s.lastId + 1 ∧ s' = { s with lastId := id.get } := by
  unfold reserveId at h
  obtain ⟨_, hpos, h⟩ := bind_eq_ok.1 h
  obtain ⟨_, -, h⟩ := bind_eq_ok.1 h
  obtain ⟨next, hnext, h⟩ := bind_eq_ok.1 h
  have hpos := require_eq_ok.1 hpos
  have hget := get_of_identifier hnext
  cases h
  have hcast : (id.get : ℤ) = s.lastId + 1 := by omega
  exact ⟨hpos, hcast, by rw [hcast]⟩

/-- Admits a job together with its receipt. -/
def commitAdd (s : Store) (unit : AddUnitOfWork) : Except PersistenceError Store := do
  let job := unit.job
  let receipt := unit.receipt
  require (job.id = receipt.job ∧ job.spec = receipt.original ∧ receipt.removed = false ∧
    job.version = 0 ∧ job.state = .queued ∧ job.generation.get = 1) .corrupt
  let id ← signedId job.id
  require (s.receipts.lookup receipt.key = none ∧ s.jobs.lookup id = none ∧
    ∀ entry ∈ s.receipts.entries, entry.2.jobId ≠ id) .conflict
  require (id ≤ s.lastId) .corrupt
  require (s.jobs.entries.length < s.limits.jobs ∧
    s.receipts.entries.length < s.limits.receipts) .capacity
  pure { s with
    jobs := s.jobs.insert id ⟨encodeSpec receipt.original, 0⟩
    receipts := s.receipts.insert receipt.key ⟨id, encodeSpec receipt.original, 0⟩ }

/-- **What an accepted admission has checked and written.** -/
theorem commitAdd_eq_ok {s s' : Store} {unit : AddUnitOfWork} (h : commitAdd s unit = .ok s') :
    unit.job.id = unit.receipt.job ∧ unit.receipt.job.get ≤ i64Max ∧
      s.receipts.lookup unit.receipt.key = none ∧
      s.jobs.lookup (unit.receipt.job.get : ℤ) = none ∧
      (∀ entry ∈ s.receipts.entries, entry.2.jobId ≠ unit.receipt.job.get) ∧
      unit.receipt.job.get ≤ s.lastId ∧
      s' = { s with
        jobs := s.jobs.insert (unit.receipt.job.get : ℤ) ⟨encodeSpec unit.receipt.original, 0⟩
        receipts := s.receipts.insert unit.receipt.key
          ⟨unit.receipt.job.get, encodeSpec unit.receipt.original, 0⟩ } := by
  unfold commitAdd at h
  obtain ⟨_, hunit, h⟩ := bind_eq_ok.1 h
  obtain ⟨id, hid, h⟩ := bind_eq_ok.1 h
  obtain ⟨hle, rfl⟩ := stored_eq_ok.1 hid
  obtain ⟨_, hnew, h⟩ := bind_eq_ok.1 h
  obtain ⟨_, hlast, h⟩ := bind_eq_ok.1 h
  obtain ⟨_, -, h⟩ := bind_eq_ok.1 h
  have hjob := (require_eq_ok.1 hunit).1
  obtain ⟨hkey, hrow, hreceipt⟩ := require_eq_ok.1 hnew
  have hlast := require_eq_ok.1 hlast
  rw [hjob] at hle hrow hreceipt hlast
  cases h
  exact ⟨hjob, hle, hkey, hrow, hreceipt, hlast, by rw [hjob]⟩

/-- Removes a settled job; its receipt stays behind as a tombstone. -/
def remove (s : Store) (key : ReceiptKey) (expectedVersion : ℕ) : Except PersistenceError Store := do
  require (expectedVersion ≤ i64Max) .conflict
  let receipt ← okOr (← loadReceipt s key) .missing
  require (receipt.removed = false) .removed
  let id ← signedId receipt.job
  require (∀ row ∈ s.states.lookup id, row.state ∈ removableCodes) .conflict
  let row ← okOr (s.jobs.lookup id) .conflict
  require (row.version = expectedVersion) .conflict
  let saved ← okOr (s.receipts.lookup key) .corrupt
  require (saved.removed = 0) .corrupt
  pure { s with
    jobs := s.jobs.erase id
    states := s.states.erase id
    extents := s.extents.filter (·.job ≠ id)
    intents := s.intents.erase id
    receipts := s.receipts.insert key { saved with removed := 1 } }

/-- **What an accepted removal has checked and written.** -/
theorem remove_eq_ok {s s' : Store} {key : ReceiptKey} {expectedVersion : ℕ}
    (h : remove s key expectedVersion = .ok s') : ∃ saved row, s.receipts.lookup key = some saved ∧
      saved.removed = 0 ∧ s.jobs.lookup saved.jobId = some row ∧
      s' = { s with
        jobs := s.jobs.erase saved.jobId
        states := s.states.erase saved.jobId
        extents := s.extents.filter (·.job ≠ saved.jobId)
        intents := s.intents.erase saved.jobId
        receipts := s.receipts.insert key { saved with removed := 1 } } := by
  unfold remove at h
  obtain ⟨_, -, h⟩ := bind_eq_ok.1 h
  obtain ⟨found, hfound, h⟩ := bind_eq_ok.1 h
  obtain ⟨receipt, hreceipt, h⟩ := bind_eq_ok.1 h
  obtain ⟨_, -, h⟩ := bind_eq_ok.1 h
  obtain ⟨id, hid, h⟩ := bind_eq_ok.1 h
  obtain ⟨-, rfl⟩ := stored_eq_ok.1 hid
  obtain ⟨_, -, h⟩ := bind_eq_ok.1 h
  obtain ⟨row, hrow, h⟩ := bind_eq_ok.1 h
  obtain ⟨_, -, h⟩ := bind_eq_ok.1 h
  obtain ⟨saved, hsaved, h⟩ := bind_eq_ok.1 h
  obtain ⟨_, hremoved, h⟩ := bind_eq_ok.1 h
  rw [okOr_eq_ok.1 hreceipt] at hfound
  obtain ⟨row', hrow', -, hjob, -⟩ := loadReceipt_eq_some hfound
  obtain rfl : saved = row' := Option.some.inj ((okOr_eq_ok.1 hsaved).symm.trans hrow')
  have hrow := okOr_eq_ok.1 hrow
  rw [← hjob] at hrow h
  cases h
  exact ⟨saved, row, hrow', require_eq_ok.1 hremoved, hrow, rfl⟩

/-- How the ports report a failed commit. -/
def commitError : PersistenceError → CommitError
  | .conflict => .conflict
  | .capacity => .capacity
  | _ => .unavailable

/-- How the ports report a failed read. -/
def appError : PersistenceError → AppError
  | .capacity => .capacity
  | .corrupt | .unsupportedVersion => .corruptRepository
  | _ => .persistenceUnavailable

end Persistence

end Fhd
