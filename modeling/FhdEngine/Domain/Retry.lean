import FhdEngine.Domain.Basic

/-!
# When a failed transfer is tried again

`crates/domain/src/retry.rs`: capped exponential backoff with the caller's own jitter, never below the
delay the server asked for, and never after `maximumAttempts`.
-/

namespace Fhd

/-- `u64::saturating_add`. -/
def saturatingAdd (a b : ℕ) : ℕ := min (a + b) u64Max

/-- `u64::saturating_mul`. -/
def saturatingMul (a b : ℕ) : ℕ := min (a * b) u64Max

inductive ErrorClass
  | transient
  | throttled
  | userAction
  | integrity
  | fatal
deriving DecidableEq, Repr

inductive RetryDecision
  | retryAt (tick : ℕ)
  | needsAction
  | exhausted
deriving DecidableEq, Repr

@[ext] structure RetryPolicy where
  maximumAttempts : UInt8
  baseDelay : ℕ
  maximumDelay : ℕ
  maximumAttempts_pos : 1 ≤ maximumAttempts.toNat
  maximumAttempts_le : maximumAttempts.toNat ≤ 32
  baseDelay_pos : baseDelay ≠ 0
  baseDelay_le : baseDelay ≤ maximumDelay
  maximumDelay_le : maximumDelay ≤ 86400000
deriving Repr

instance : DecidableEq RetryPolicy := fun a b ↦
  decidable_of_iff (a.maximumAttempts = b.maximumAttempts ∧ a.baseDelay = b.baseDelay ∧
    a.maximumDelay = b.maximumDelay) RetryPolicy.ext_iff.symm

namespace RetryPolicy

def new (maximumAttempts : UInt8) (baseDelay maximumDelay : ℕ) : Except DomainError RetryPolicy :=
  if h : ¬(1 ≤ maximumAttempts.toNat ∧ maximumAttempts.toNat ≤ 32) ∨ baseDelay = 0 ∨
      maximumDelay < baseDelay ∨ maximumDelay > 86400000 then .error .invalidInput
  else
    .ok ⟨maximumAttempts, baseDelay, maximumDelay, by omega, by omega, by omega, by omega, by omega⟩

/-- The most a retry after this many attempts may be delayed. -/
def cap (p : RetryPolicy) (attempts : UInt8) : ℕ :=
  min (saturatingMul p.baseDelay (2 ^ min (attempts.toNat - 1) 31)) p.maximumDelay

def decide (p : RetryPolicy) (errorClass : ErrorClass) (attempts : UInt8) (now : ℕ)
    (retryAfterDeadline : Option ℕ) (jitter : ℕ) : Except DomainError RetryDecision :=
  if attempts = 0 then .error .invalidInput
  else if errorClass = .userAction ∨ errorClass = .integrity ∨ errorClass = .fatal then
    .ok .needsAction
  else if attempts ≥ p.maximumAttempts then .ok .exhausted
  else
    match checkedAdd now (jitter % (p.cap attempts + 1)) with
    | none => .error .overflow
    | some at' => .ok (.retryAt (max at' (retryAfterDeadline.getD now)))

/-- **A retry is granted only below the maximum.** -/
theorem lt_of_decide_retryAt {p : RetryPolicy} {errorClass : ErrorClass} {attempts : UInt8}
    {now : ℕ} {deadline : Option ℕ} {jitter tick : ℕ}
    (h : p.decide errorClass attempts now deadline jitter = .ok (.retryAt tick)) :
    attempts < p.maximumAttempts := by
  unfold decide at h
  split at h
  · cases h
  split at h
  · cases h
  split at h
  · cases h
  next hlt => exact UInt8.not_le.1 hlt

end RetryPolicy

/-- One attempt. -/
def Sample.retry : RetryPolicy := ⟨1, 1, 1, by decide, by decide, by decide, by decide, by decide⟩

end Fhd
