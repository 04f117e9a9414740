import FhdEngine.Application.Ports
import FhdEngine.Library.Fallible
import Mathlib.Data.List.AList

/-!
# The tables of the repository

The schema of `crates/adapters/persistence/migrations` and the codecs of `transfer.rs` and `lib.rs`.
Columns hold integers and blobs, as SQLite does, and every reader decodes and may find a row corrupt;
that no reader ever does is proved elsewhere and is not built into the types. A table with a primary
key is an association list, whose keys are distinct by construction; eight-byte blobs are kept as the
number they encode.

`Header` is what a row of `job_state` says of a job, decoded. Encoding and decoding are inverse
(`decodeState_encodeState`), which is all later modules use of the codes.
-/

namespace Fhd

open Fallible

inductive PersistenceError
  | invalidPath
  | invalidLimits
  | locked
  | unavailable
  | unsupportedVersion
  | corrupt
  | capacity
  | conflict
  | missing
  | removed
deriving DecidableEq, Repr

namespace Persistence

/-- `if !condition { return Err(error) }`. -/
def require (condition : Prop) [Decidable condition] (error : PersistenceError) :
    Except PersistenceError Unit :=
  if condition then .ok () else .error error

theorem require_eq_ok {condition : Prop} [Decidable condition] {error : PersistenceError} {u : Unit} :
    require condition error = .ok u ↔ condition := by
  unfold require
  split <;> simp_all

theorem require_eq_error {condition : Prop} [Decidable condition] {error e : PersistenceError} :
    require condition error = .error e ↔ ¬condition ∧ error = e := by
  unfold require
  split <;> simp_all

/-- `option.ok_or(error)`. -/
def okOr {α : Type*} (x : Option α) (error : PersistenceError) : Except PersistenceError α :=
  match x with
  | none => .error error
  | some a => .ok a

theorem okOr_eq_ok {α : Type*} {x : Option α} {error : PersistenceError} {a : α} :
    okOr x error = .ok a ↔ x = some a := by
  cases x <;> simp [okOr]

/-- `result.map_err(|_| PersistenceError::Corrupt)`. -/
def orCorrupt {ε α : Type*} : Except ε α → Except PersistenceError α
  | .error _ => .error .corrupt
  | .ok a => .ok a

theorem orCorrupt_eq_ok {ε α : Type*} {x : Except ε α} {a : α} : orCorrupt x = .ok a ↔ x = .ok a := by
  cases x with
  | error e => exact ⟨nofun, nofun⟩
  | ok b => exact Iff.of_eq (by rw [orCorrupt, Except.ok.injEq, Except.ok.injEq])

/-- `option.map(f).transpose()?`. -/
def traverse {α β : Type*} (f : α → Except PersistenceError β) :
    Option α → Except PersistenceError (Option β)
  | none => .ok none
  | some a => (f a).map some

/-! ### Codecs -/

def stored (value : ℕ) : Except PersistenceError ℤ :=
  if value ≤ i64Max then .ok value else .error .corrupt

def loaded (value : ℤ) : Except PersistenceError ℕ :=
  if 0 ≤ value then .ok value.toNat else .error .corrupt

theorem stored_eq_ok {n : ℕ} {v : ℤ} : stored n = .ok v ↔ n ≤ i64Max ∧ v = n := by
  unfold stored
  split
  next h => simp [h, eq_comm]
  next h => simp [h]

@[simp] theorem loaded_natCast (n : ℕ) : loaded (n : ℤ) = .ok n := by simp [loaded]

def signedId (id : JobId) : Except PersistenceError ℤ := stored id.get

def states : List JobState :=
  [.queued, .probing, .transferring, .stopping, .paused, .retryWait, .needsAction, .verifying,
    .publishing, .cancelling, .failed, .completed, .cancelled]

def stateCode : JobState → ℤ
  | .queued => 0
  | .probing => 1
  | .transferring => 2
  | .stopping => 3
  | .paused => 4
  | .retryWait => 5
  | .needsAction => 6
  | .verifying => 7
  | .publishing => 8
  | .cancelling => 9
  | .failed => 10
  | .completed => 11
  | .cancelled => 12

/-- Codes of states from which `remove` may delete a job. -/
def removableCodes : List ℤ := [0, 4, 5, 6, 10, 11, 12]

def stateOf (code : ℤ) : Except PersistenceError JobState :=
  if 0 ≤ code then okOr (states[code.toNat]?) .corrupt else .error .corrupt

@[simp] theorem stateOf_stateCode (s : JobState) : stateOf (stateCode s) = .ok s := by
  cases s <;> rfl

def reasons : List StopReason :=
  [.sourceChanged, .authentication, .storage, .integrity, .network, .policy, .unknown, .destination]

def reasonCode : StopReason → ℤ
  | .sourceChanged => 0
  | .authentication => 1
  | .storage => 2
  | .integrity => 3
  | .network => 4
  | .policy => 5
  | .unknown => 6
  | .destination => 7

def reasonOf (code : ℤ) : Except PersistenceError StopReason :=
  if 0 ≤ code then okOr (reasons[code.toNat]?) .corrupt else .error .corrupt

@[simp] theorem reasonOf_reasonCode (r : StopReason) : reasonOf (reasonCode r) = .ok r := by
  cases r <;> rfl

def stopColumns : Option StopTarget → Except PersistenceError (Option ℤ × Option ℤ)
  | none => .ok (none, none)
  | some .verifying => .ok (some 0, none)
  | some .queued => .ok (some 1, none)
  | some .paused => .ok (some 2, none)
  | some (.retryWait atTick) => (stored atTick).map fun v ↦ (some 3, some v)
  | some (.needsAction reason) => .ok (some 4, some (reasonCode reason))
  | some (.failed reason) => .ok (some 5, some (reasonCode reason))

def stopOf (kind value : Option ℤ) : Except PersistenceError (Option StopTarget) :=
  match kind, value with
  | none, none => .ok none
  | some 0, none => .ok (some .verifying)
  | some 1, none => .ok (some .queued)
  | some 2, none => .ok (some .paused)
  | some 3, some v => (loaded v).map fun atTick ↦ some (.retryWait atTick)
  | some 4, some v => (reasonOf v).map fun reason ↦ some (.needsAction reason)
  | some 5, some v => (reasonOf v).map fun reason ↦ some (.failed reason)
  | _, _ => .error .corrupt

theorem stopOf_stopColumns {stop : Option StopTarget} {kind value : Option ℤ}
    (h : stopColumns stop = .ok (kind, value)) : stopOf kind value = .ok stop := by
  rcases stop with - | target
  · cases h
    rfl
  cases target with
  | retryWait atTick =>
    simp only [stopColumns, stored] at h
    split at h
    · cases h
      simp [stopOf, Except.map]
    · cases h
  | needsAction reason =>
    cases h
    simp [stopOf, Except.map]
  | failed reason =>
    cases h
    simp [stopOf, Except.map]
  | _ =>
    cases h
    rfl

def priorityCode : Priority → ℤ
  | .low => 0
  | .normal => 1
  | .high => 2

/-! ### Rows -/

/-- The columns of a job specification. -/
structure SpecRow where
  source : ℕ
  destination : ℕ
  expected : Option Digest
  priority : ℤ
  maxBytes : ℤ
deriving DecidableEq, Repr

def encodeSpec (spec : JobSpec) : SpecRow :=
  ⟨spec.source.get, spec.destination.get, spec.expectedSha256, priorityCode spec.priority,
    spec.maxBytes⟩

def decodePriority (code : ℤ) : Except PersistenceError Priority :=
  match code with
  | 0 => .ok .low
  | 1 => .ok .normal
  | 2 => .ok .high
  | _ => .error .corrupt

def decodeSpec (row : SpecRow) : Except PersistenceError JobSpec := do
  let importance ← decodePriority row.priority
  let source ← orCorrupt (Identifier.new row.source)
  let destination ← orCorrupt (Identifier.new row.destination)
  let maxBytes ← loaded row.maxBytes
  orCorrupt (JobSpec.new source destination row.expected importance maxBytes)

@[simp] theorem decodeSpec_encodeSpec (spec : JobSpec) : decodeSpec (encodeSpec spec) = .ok spec := by
  obtain ⟨source, destination, expected, priority, maxBytes, hpos, hle⟩ := spec
  have hpriority : decodePriority (priorityCode priority) = .ok priority := by
    cases priority <;> rfl
  have hsource : Identifier.new source.get = .ok source := dif_neg source.get_ne_zero
  have hdestination : Identifier.new destination.get = .ok destination :=
    dif_neg destination.get_ne_zero
  have hspec : JobSpec.new source destination expected priority maxBytes =
      .ok ⟨source, destination, expected, priority, maxBytes, hpos, hle⟩ := dif_neg (by omega)
  simp [decodeSpec, encodeSpec, hpriority, hsource, hdestination, hspec, orCorrupt, bind,
    Except.bind]

structure JobsRow where
  spec : SpecRow
  version : ℤ
deriving DecidableEq, Repr

structure StateRow where
  state : ℤ
  generation : ℤ
  reason : Option ℤ
  retryAt : Option ℤ
  stopKind : Option ℤ
  stopValue : Option ℤ
  replaceOnDrain : ℤ
  attempts : ℤ
  total : Option ℤ
  maxSegments : Option ℤ
  validator : Option Digest
deriving DecidableEq, Repr

/-- The `CHECK` constraints of `job_state`. -/
def StateRow.admissible (r : StateRow) : Bool :=
  (0 ≤ r.state ∧ r.state ≤ 12) ∧ 0 < r.generation ∧
  (∀ v ∈ r.reason, 0 ≤ v ∧ v ≤ 7) ∧ (∀ v ∈ r.retryAt, 0 ≤ v) ∧
  (∀ v ∈ r.stopKind, 0 ≤ v ∧ v ≤ 5) ∧ (∀ v ∈ r.stopValue, 0 ≤ v) ∧
  (r.replaceOnDrain = 0 ∨ r.replaceOnDrain = 1) ∧ (0 ≤ r.attempts ∧ r.attempts ≤ 255) ∧
  (∀ v ∈ r.total, 0 ≤ v) ∧ (∀ v ∈ r.maxSegments, 1 ≤ v ∧ v ≤ 262144) ∧
  (r.total = none ↔ r.maxSegments = none) ∧ (r.validator = none ∨ r.total ≠ none)

structure ExtentRow where
  job : ℤ
  generation : ℤ
  start : ℤ
  endExcl : ℤ
  digest : Digest
deriving DecidableEq, Repr

structure IntentRow where
  generation : ℤ
  attempt : ℤ
  size : ℤ
  digest : Digest
deriving DecidableEq, Repr

structure ReceiptRow where
  jobId : ℤ
  spec : SpecRow
  removed : ℤ
deriving DecidableEq, Repr

/-- The bounds on the number of rows, and the ranges `Limits::new` allows. -/
structure Limits where
  jobs : ℕ
  receipts : ℕ
  jobs_pos : 1 ≤ jobs
  jobs_le : jobs ≤ 10000
  le_receipts : jobs ≤ receipts
  receipts_le : receipts ≤ 100000

/-- The database. -/
structure Store where
  limits : Limits
  lastId : ℤ
  jobs : AList fun _ : ℤ ↦ JobsRow
  receipts : AList fun _ : ReceiptKey ↦ ReceiptRow
  states : AList fun _ : ℤ ↦ StateRow
  extents : List ExtentRow
  intents : AList fun _ : ℤ ↦ IntentRow

/-- The database after its migrations. -/
def Store.empty (limits : Limits) : Store := ⟨limits, 0, ∅, ∅, ∅, [], ∅⟩

/-! ### What a state row says -/

/-- The part of a job record that a row of `job_state` carries. -/
structure Header where
  state : JobState
  generation : Generation
  reason : Option StopReason
  retryAt : Option ℕ
  stop : Option StopTarget
  replaceOnDrain : Bool
  attempts : UInt8
  plan : Option (ℕ × ℕ)
  validator : Option Digest
deriving DecidableEq

/-- A job that the transfer tables do not mention yet. -/
def Header.initial : Header :=
  ⟨.queued, Generation.initial, none, none, none, false, 0, none, none⟩

/-- The two columns of a plan. -/
def columns (plan : Option (ℕ × ℕ)) : Option (ℤ × ℤ) := plan.map fun p ↦ ((p.1 : ℤ), (p.2 : ℤ))

/-- The header of a job in memory. -/
def Header.of (j : Job) : Header :=
  ⟨j.state, j.generation, j.reason, j.retryAt, j.stop, j.replaceOnDrain, j.attempts, j.plan,
    j.validator⟩

/-- The row `transition` writes. -/
def encodeState (outcome : JobProjection) (generation : ℤ) (plan : Option (ℤ × ℤ))
    (validator : Option Digest) : Except PersistenceError StateRow := do
  let (stopKind, stopValue) ← stopColumns outcome.stop
  let retryAt ← traverse stored outcome.retryAt
  pure ⟨stateCode outcome.state, generation, outcome.reason.map reasonCode, retryAt, stopKind,
    stopValue, if outcome.replaceOnDrain then 1 else 0, outcome.attempts.toNat, plan.map (·.1),
    plan.map (·.2), validator⟩

/-- `u8::try_from`. -/
def loadedByte (value : ℤ) : Except PersistenceError UInt8 :=
  if 0 ≤ value ∧ value ≤ 255 then .ok (UInt8.ofNat value.toNat) else .error .corrupt

/-- The decoding `load_jobs` performs on a row of `job_state`. -/
def decodeState (row : StateRow) : Except PersistenceError Header := do
  let plan ← traverse (fun plan : ℤ × ℤ ↦ do
    let total ← loaded plan.1
    let maximum ← loaded plan.2
    pure (total, maximum)) (row.total.bind fun t ↦ row.maxSegments.map fun m ↦ (t, m))
  let state ← stateOf row.state
  let generation ← orCorrupt (Identifier.new (← loaded row.generation))
  let reason ← traverse reasonOf row.reason
  let retryAt ← traverse loaded row.retryAt
  let stop ← stopOf row.stopKind row.stopValue
  let attempts ← loadedByte row.attempts
  pure ⟨state, generation, reason, retryAt, stop, row.replaceOnDrain == 1, attempts, plan,
    row.validator⟩

theorem traverse_eq_ok {α β : Type} {f : α → Except PersistenceError β} {g : β → Except PersistenceError α}
    (hfg : ∀ a b, f a = .ok b → g b = .ok a) {x : Option α} {y : Option β}
    (h : traverse f x = .ok y) : traverse g y = .ok x := by
  rcases x with - | a
  · cases h
    rfl
  · rcases hb : f a with e | b
    · rw [traverse, hb] at h
      cases h
    · rw [traverse, hb] at h
      cases h
      rw [traverse, hfg a b hb]
      rfl

/-- **Decoding undoes encoding.** -/
theorem decodeState_encodeState {outcome : JobProjection} {plan : Option (ℕ × ℕ)}
    {validator : Option Digest} {row : StateRow}
    (h : encodeState outcome outcome.generation.get (columns plan) validator = .ok row) :
    row.generation = outcome.generation.get ∧ decodeState row =
      .ok ⟨outcome.state, outcome.generation, outcome.reason, outcome.retryAt, outcome.stop,
        outcome.replaceOnDrain, outcome.attempts, plan, validator⟩ := by
  unfold encodeState at h
  obtain ⟨⟨stopKind, stopValue⟩, hstop, h⟩ := bind_eq_ok.1 h
  obtain ⟨retryAt, hretry, h⟩ := bind_eq_ok.1 h
  cases h
  refine ⟨rfl, ?_⟩
  have hretry' : traverse loaded retryAt = .ok outcome.retryAt :=
    traverse_eq_ok (fun a b hab ↦ by rw [(stored_eq_ok.1 hab).2, loaded_natCast]) hretry
  have hreason : traverse reasonOf (outcome.reason.map reasonCode) = .ok outcome.reason := by
    rcases outcome.reason with - | r <;> simp [traverse, Except.map]
  have hgen : Identifier.new outcome.generation.get = .ok outcome.generation :=
    dif_neg outcome.generation.get_ne_zero
  have hattempts : loadedByte outcome.attempts.toNat = .ok outcome.attempts := by
    have := outcome.attempts.toNat_lt
    rw [loadedByte, if_pos (by omega)]
    simp
  have hreplace : ((if outcome.replaceOnDrain then (1 : ℤ) else 0) == 1) = outcome.replaceOnDrain := by
    cases outcome.replaceOnDrain <;> rfl
  have hplan : traverse (fun plan : ℤ × ℤ ↦ do
      let total ← loaded plan.1
      let maximum ← loaded plan.2
      pure (total, maximum)) (((columns plan).map (·.1)).bind fun t ↦
        ((columns plan).map (·.2)).map fun m ↦ (t, m)) = .ok plan := by
    rcases plan with - | ⟨t, m⟩
    · rfl
    · simp [columns, traverse, Except.map, bind, Except.bind, pure, Except.pure]
  unfold decodeState
  rw [hplan]
  simp [hretry', hreason, hgen, hattempts, stopOf_stopColumns hstop, hreplace, orCorrupt, bind,
    Except.bind, pure, Except.pure]

theorem loaded_eq_ok {v : ℤ} {n : ℕ} : loaded v = .ok n ↔ v = n := by
  unfold loaded
  split
  · rw [Except.ok.injEq]
    omega
  · simp only [reduceCtorEq, false_iff]
    omega

/-- A stored number that was read as an identifier. -/
theorem get_of_identifier {name : IdentifierName} {n : ℕ} {id : Identifier name}
    (h : orCorrupt (Identifier.new n) = .ok id) : id.get = n := by
  unfold Identifier.new at h
  split at h <;> cases h
  rfl

/-- What a decoded row has in the columns that a transaction reads. -/
theorem decodeState_eq_ok {row : StateRow} {h : Header} (hrow : decodeState row = .ok h) :
    stateOf row.state = .ok h.state ∧ row.generation = h.generation.get ∧
      (row.total.bind fun t ↦ row.maxSegments.map fun m ↦ (t, m)) = columns h.plan ∧
      row.validator = h.validator := by
  unfold decodeState at hrow
  obtain ⟨plan, hplan, hrow⟩ := bind_eq_ok.1 hrow
  obtain ⟨state, hstate, hrow⟩ := bind_eq_ok.1 hrow
  obtain ⟨number, hnumber, hrow⟩ := bind_eq_ok.1 hrow
  obtain ⟨generation, hgeneration, hrow⟩ := bind_eq_ok.1 hrow
  obtain ⟨reason, -, hrow⟩ := bind_eq_ok.1 hrow
  obtain ⟨retryAt, -, hrow⟩ := bind_eq_ok.1 hrow
  obtain ⟨stop, -, hrow⟩ := bind_eq_ok.1 hrow
  obtain ⟨attempts, -, hrow⟩ := bind_eq_ok.1 hrow
  cases hrow
  refine ⟨hstate, ?_, ?_, rfl⟩
  · rw [loaded_eq_ok.1 hnumber, get_of_identifier hgeneration]
  · revert hplan
    generalize (row.total.bind fun t ↦ row.maxSegments.map fun m ↦ (t, m)) = x
    intro hplan
    rcases x with - | ⟨t, m⟩
    · cases hplan
      rfl
    · rcases ht : loaded t with e | t' <;> rcases hm : loaded m with e' | m' <;>
        simp only [traverse, ht, hm, bind, Except.bind, Except.map, pure, Except.pure] at hplan <;>
        cases hplan
      rw [loaded_eq_ok.1 ht, loaded_eq_ok.1 hm]
      rfl

end Persistence

end Fhd
