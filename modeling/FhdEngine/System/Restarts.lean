import FhdEngine.System.Scheduling

/-!
# How often a job is started by itself

A job that no command reaches comes back to the queue in two ways: its retry falls due, or its
representation changed and it starts again in the next generation. The first is paid with an attempt,
of which the policy allows a maximum; the second is not counted by anything. So the number of sessions
is bounded by the maximum and the number of times the representation changed, and a server that changes
it every time keeps a job running for as long as it likes.
-/

namespace Fhd

open Loop

/-! ### Attempts are never given back -/

theorem toNat_saturatingSucc (n : UInt8) : (saturatingSucc n).toNat = min (n.toNat + 1) 255 := by
  unfold saturatingSucc
  have hlt := n.toNat_lt
  split
  next h =>
    subst h
    rfl
  next h =>
    have hne : n.toNat ≠ 255 := fun heq ↦ h (UInt8.toNat_inj.1 heq)
    rw [UInt8.toNat_add]
    show (n.toNat + 1) % 2 ^ 8 = _
    omega

/-- **What is known of a job after `n` sessions**, `m` of which left it queued anew: the attempts count
the sessions, up to one that only verified it; and a job that is to be started again has room for it. -/
structure Restarted (limit r n m : ℕ) (job : Job) : Prop where
  attempts : min (n - r) 255 ≤ job.attempts.toNat
  again : job.state = .queued ∨ job.state = .retryWait → n + 1 ≤ limit + r + m
  reverified : job.state = .verifying ∨ job.state = .publishing → n = 0 ∧ r = 1

variable {S : Scheduler} {governor : OriginGovernor} {jobs : List (Job × Answers × OriginId)}
  {turns : List Turn} {id : JobId}

theorem Restarted.of_new {limit r m : ℕ} {job : Job} (hlimit : 1 ≤ limit)
    (hr : job.state = .verifying ∨ job.state = .publishing → r = 1) : Restarted limit r 0 m job :=
  ⟨by omega, fun _ ↦ by omega, fun hs ↦ ⟨rfl, hr hs⟩⟩

end Fhd
