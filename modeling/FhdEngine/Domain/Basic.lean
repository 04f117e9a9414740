import Mathlib.Data.Nat.Basic
import Mathlib.Algebra.GroupWithZero.Nat
import Mathlib.Tactic.Common

/-!
# The values of the domain

The vocabulary of `crates/domain/src/lib.rs`: error codes, nonzero identifiers, byte ranges and job
specifications. Every value type carries its own well-formedness as a field, exactly as the source
makes the fields private behind a checking constructor, so an empty range or a zero identifier
cannot be built.

Machine integers of the source (`u64`, `usize`) are natural numbers here. Where the code checks an
addition or a multiplication, the check is kept (`checkedAdd`, `checkedMul`); where it does not, the
quantity is bounded by an invariant that is proved.
-/

namespace Fhd

/-- `i64::MAX`, the largest offset a range or a plan may have. -/
def i64Max : ℕ := 2 ^ 63 - 1

theorem one_le_i64Max : 1 ≤ i64Max := by decide
theorem two_le_i64Max : 2 ≤ i64Max := by decide
theorem four_le_i64Max : 4 ≤ i64Max := by decide
theorem six_le_i64Max : 6 ≤ i64Max := by decide
theorem eight_le_i64Max : 8 ≤ i64Max := by decide
theorem ten_le_i64Max : 10 ≤ i64Max := by decide

/-- `u64::MAX`. -/
def u64Max : ℕ := 2 ^ 64 - 1

theorem one_le_u64Max : 1 ≤ u64Max := by decide

/-- `u64::checked_add`. -/
def checkedAdd (a b : ℕ) : Option ℕ :=
  if a + b ≤ u64Max then some (a + b) else none

/-- `u64::checked_mul`. -/
def checkedMul (a b : ℕ) : Option ℕ :=
  if a * b ≤ u64Max then some (a * b) else none

theorem checkedAdd_eq_some {a b c : ℕ} : checkedAdd a b = some c ↔ a + b ≤ u64Max ∧ c = a + b := by
  unfold checkedAdd
  split <;> simp [*, eq_comm]

inductive DomainError
  | invalidInput
  | overflow
  | capacity
  | unknownSegment
  | invalidTransition
  | staleToken
  | checkpointPending
  | incomplete
  | staleEvent
  | publishInProgress
deriving DecidableEq, Repr

/-! ### Identifiers -/

/-- The names the source's `identifier!` macro is instantiated at. -/
inductive IdentifierName
  | jobId
  | generation
  | sourceRef
  | destinationRef
deriving DecidableEq, Repr

/-- A nonzero identifier, one type for each instance of the macro. -/
structure Identifier (name : IdentifierName) where
  get : ℕ
  get_ne_zero : get ≠ 0
deriving DecidableEq, Repr

abbrev JobId := Identifier .jobId
abbrev Generation := Identifier .generation
abbrev SourceRef := Identifier .sourceRef
abbrev DestinationRef := Identifier .destinationRef

theorem Identifier.ext {name : IdentifierName} {a b : Identifier name} (h : a.get = b.get) :
    a = b := by
  cases a; cases b; cases h; rfl

def Identifier.new {name : IdentifierName} (value : ℕ) : Except DomainError (Identifier name) :=
  if h : value = 0 then .error .invalidInput else .ok ⟨value, h⟩

namespace Generation

def initial : Generation := ⟨1, Nat.one_ne_zero⟩

def next (g : Generation) : Except DomainError Generation :=
  if g.get + 1 ≤ u64Max then .ok ⟨g.get + 1, Nat.succ_ne_zero _⟩ else .error .overflow

/-- A generation that has a successor moves up by exactly one. -/
theorem get_of_next {g g' : Generation} (h : g.next = .ok g') : g'.get = g.get + 1 := by
  unfold next at h
  split at h
  · cases h
    rfl
  · cases h

theorem ne_of_next {g g' : Generation} (h : g.next = .ok g') : g' ≠ g := by
  rintro rfl
  have := get_of_next h
  omega

end Generation

/-! ### Byte ranges -/

/-- A nonempty half-open range of offsets; `stop` is the source's `end`. -/
@[ext]
structure ByteRange where
  start : ℕ
  stop : ℕ
  start_lt : start < stop
  stop_le : stop ≤ i64Max
deriving DecidableEq, Repr

namespace ByteRange

def new (start stop : ℕ) : Except DomainError ByteRange :=
  if h : start ≥ stop ∨ stop > i64Max then .error .invalidInput
  else .ok ⟨start, stop, by omega, by omega⟩

def len (r : ByteRange) : ℕ := r.stop - r.start

def split (r : ByteRange) (at' : ℕ) : Except DomainError (ByteRange × ByteRange) :=
  match new r.start at' with
  | .error e => .error e
  | .ok left =>
    match new at' r.stop with
    | .error e => .error e
    | .ok right => .ok (left, right)

instance : Membership ℕ ByteRange := ⟨fun r p ↦ r.start ≤ p ∧ p < r.stop⟩

theorem mem_def {r : ByteRange} {p : ℕ} : p ∈ r ↔ r.start ≤ p ∧ p < r.stop := Iff.rfl

instance (r : ByteRange) (p : ℕ) : Decidable (p ∈ r) :=
  inferInstanceAs (Decidable (_ ∧ _))

theorem new_eq_ok {start stop : ℕ} {r : ByteRange} :
    new start stop = .ok r ↔ r.start = start ∧ r.stop = stop := by
  unfold new
  constructor
  · intro h
    split at h
    · cases h
    · cases h
      exact ⟨rfl, rfl⟩
  · rintro ⟨rfl, rfl⟩
    rw [dif_neg (by have := r.start_lt; have := r.stop_le; omega)]

theorem len_pos (r : ByteRange) : 0 < r.len := Nat.sub_pos_of_lt r.start_lt

/-- A split yields the two halves, both nonempty by construction. -/
theorem split_eq_ok {r left right : ByteRange} {at' : ℕ} (h : r.split at' = .ok (left, right)) :
    left.start = r.start ∧ left.stop = at' ∧ right.start = at' ∧ right.stop = r.stop := by
  unfold split at h
  split at h
  · cases h
  next hl =>
    split at h
    · cases h
    next hr =>
      cases h
      obtain ⟨h₁, h₂⟩ := new_eq_ok.1 hl
      obtain ⟨h₃, h₄⟩ := new_eq_ok.1 hr
      exact ⟨h₁, h₂, h₃, h₄⟩

/-- A cut that is refused is not inside the range. -/
theorem split_eq_error {r : ByteRange} {at' : ℕ} {e : DomainError} (h : r.split at' = .error e) :
    e = .invalidInput ∧ ¬(r.start < at' ∧ at' < r.stop) := by
  have hle := r.stop_le
  unfold split new at h
  split at h
  next e' hl =>
    cases h
    split at hl
    · cases hl
      exact ⟨rfl, by omega⟩
    · cases hl
  next hl =>
    split at h
    next e' hr =>
      cases h
      split at hr
      · cases hr
        exact ⟨rfl, by omega⟩
      · cases hr
    · cases h

end ByteRange

/-! ### Job specifications -/

/-- A SHA-256 value, `[u8; 32]` in the source. -/
abbrev Digest := Vector UInt8 32

inductive Priority
  | low
  | normal
  | high
deriving DecidableEq, Repr

structure JobSpec where
  source : SourceRef
  destination : DestinationRef
  expectedSha256 : Option Digest
  priority : Priority
  maxBytes : ℕ
  maxBytes_pos : maxBytes ≠ 0
  maxBytes_le : maxBytes ≤ i64Max
deriving DecidableEq, Repr

def JobSpec.new (source : SourceRef) (destination : DestinationRef) (expectedSha256 : Option Digest)
    (priority : Priority) (maxBytes : ℕ) : Except DomainError JobSpec :=
  if h : maxBytes = 0 ∨ maxBytes > i64Max then .error .invalidInput
  else .ok ⟨source, destination, expectedSha256, priority, maxBytes, by omega, by omega⟩

end Fhd
