import FhdEngine.Application.Transport
import FhdEngine.Domain.Retry
import Mathlib.Logic.Function.Basic

/-!
# The origin governor

`crates/runtime/src/origin.rs`: how many connections one origin may carry at once, and when it may be
approached again after it pushed back. The governor is a table of accounts behind a lock, so every
call is one atomic change of it; an origin without an account has nothing outstanding.

What the scheduler needs of it is one number for each origin, `inFlight`, and one fact about each call:
`admit` adds what it grants, `release` subtracts what it is given, and the reports of how an origin
behaved (`succeeded`, `throttled`, `failed`) leave it alone.
-/

namespace Fhd

structure OriginLimits where
  connections : ℕ
  failuresBeforePause : ℕ
  pauseMs : ℕ
  maximumPauseMs : ℕ
deriving DecidableEq, Repr

def OriginLimits.valid (l : OriginLimits) : Bool :=
  (1 ≤ l.connections ∧ l.connections ≤ 64) ∧ l.failuresBeforePause ≥ 1 ∧ l.pauseMs > 0 ∧
    l.pauseMs ≤ l.maximumPauseMs ∧ l.maximumPauseMs ≤ 86400000

/-- `u32::saturating_add(1)`. -/
def saturatingSucc32 (n : ℕ) : ℕ := min (n + 1) (2 ^ 32 - 1)

/-- The account of one origin, `State` in the source. -/
structure OriginState where
  inFlight : ℕ
  failures : ℕ
  /-- Our own doing: backoff after failures, cleared as soon as bytes arrive. -/
  backoffUntil : ℕ
  /-- The server's own instruction. -/
  floorUntil : ℕ
deriving DecidableEq, Repr

namespace OriginState

/-- `State::default()`. -/
def empty : OriginState := ⟨0, 0, 0, 0⟩

def readyAt (s : OriginState) : ℕ := max s.backoffUntil s.floorUntil

def settled (s : OriginState) (now : ℕ) : Bool :=
  s.inFlight = 0 ∧ s.failures = 0 ∧ s.readyAt ≤ now

end OriginState

structure OriginGovernor where
  limits : OriginLimits
  origins : OriginId → Option OriginState

namespace OriginGovernor

/-- `new`, which refuses limits that could never admit or never pause. -/
def new (limits : OriginLimits) : Option OriginGovernor :=
  if limits.valid then some ⟨limits, fun _ ↦ none⟩ else none

/-- The account of an origin, `or_default`. -/
def account (g : OriginGovernor) (origin : OriginId) : OriginState :=
  (g.origins origin).getD .empty

def put (g : OriginGovernor) (origin : OriginId) (s : Option OriginState) : OriginGovernor :=
  { g with origins := Function.update g.origins origin s }

/-- Grants up to `want` connections, or nothing while the origin is standing down or at its cap. -/
def admitConnections (g : OriginGovernor) (origin : OriginId) (want now : ℕ) : ℕ × OriginGovernor :=
  let s := g.account origin
  if now < s.readyAt then (0, g.put origin (some s))
  else
    let grant := min want (g.limits.connections - s.inFlight)
    (grant, g.put origin (some { s with inFlight := s.inFlight + grant }))

/-- The account after a change, forgotten once nothing is left in it. -/
def keep (s : OriginState) (now : ℕ) : Option OriginState := if s.settled now then none else some s

def release (g : OriginGovernor) (origin : OriginId) (granted now : ℕ) : OriginGovernor :=
  match g.origins origin with
  | none => g
  | some s => g.put origin (keep { s with inFlight := s.inFlight - granted } now)

/-- The origin served bytes: our backoff no longer applies, the server's own delay does. -/
def succeeded (g : OriginGovernor) (origin : OriginId) (now : ℕ) : OriginGovernor :=
  match g.origins origin with
  | none => g
  | some s => g.put origin (keep { s with failures := 0, backoffUntil := 0 } now)

def pauseFor (g : OriginGovernor) (failures : ℕ) : ℕ :=
  min (saturatingMul g.limits.pauseMs (2 ^ min (failures - 1) 31)) g.limits.maximumPauseMs

/-- The server asked for less. Its own delay is a floor, up to `maximumPauseMs`. -/
def throttled (g : OriginGovernor) (origin : OriginId) (retryAfterMs : Option ℕ) (now : ℕ) :
    OriginGovernor :=
  let s := g.account origin
  let failures := saturatingSucc32 s.failures
  let floorUntil :=
    match retryAfterMs with
    | none => s.floorUntil
    | some asked => max s.floorUntil (saturatingAdd now (min asked g.limits.maximumPauseMs))
  g.put origin (some
    { s with
      failures, floorUntil
      backoffUntil := max s.backoffUntil (saturatingAdd now (g.pauseFor failures)) })

/-- A connection failure. Isolated ones are tolerated; a run of them stands the origin down. -/
def failed (g : OriginGovernor) (origin : OriginId) (now : ℕ) : OriginGovernor :=
  let s := g.account origin
  let failures := saturatingSucc32 s.failures
  g.put origin (some
    { s with
      failures
      backoffUntil :=
        if failures ≥ g.limits.failuresBeforePause then
          max s.backoffUntil
            (saturatingAdd now (g.pauseFor (failures - g.limits.failuresBeforePause + 1)))
        else s.backoffUntil })

/-- When this origin may be approached again, if it is standing down now. -/
def readyAt (g : OriginGovernor) (origin : OriginId) (now : ℕ) : Option ℕ :=
  ((g.origins origin).map OriginState.readyAt).filter (· > now)

/-! ### What is outstanding -/

/-- The connections an origin carries. -/
def inFlight (g : OriginGovernor) (origin : OriginId) : ℕ := (g.account origin).inFlight

variable {g : OriginGovernor} {origin o : OriginId} {want granted now : ℕ}

theorem account_put (s : Option OriginState) :
    (g.put origin s).account o = if o = origin then s.getD .empty else g.account o := by
  have h : (g.put origin s).origins o = if o = origin then s else g.origins o :=
    Function.update_apply ..
  unfold account
  rw [h]
  split <;> rfl

/-- An account that is forgotten had nothing outstanding. -/
theorem inFlight_keep (s : OriginState) (now : ℕ) :
    ((keep s now).getD .empty).inFlight = s.inFlight := by
  unfold keep
  split
  next h =>
    rw [OriginState.settled, decide_eq_true_eq] at h
    exact h.1.symm
  · rfl

theorem inFlight_put (s : Option OriginState) :
    (g.put origin s).inFlight o =
      if o = origin then (s.getD .empty).inFlight else g.inFlight o := by
  unfold inFlight
  rw [account_put]
  split <;> rfl

/-- A change that puts the number back as it was changes nothing that is outstanding. -/
theorem inFlight_put_same {s : Option OriginState} (h : (s.getD .empty).inFlight = g.inFlight origin) :
    (g.put origin s).inFlight o = g.inFlight o := by
  rw [inFlight_put]
  split
  next ho => rw [h, ho]
  · rfl

theorem account_of_some {s : OriginState} (h : g.origins origin = some s) :
    g.account origin = s := by
  rw [account, h]
  rfl

/-- **What is granted is added**, for the origin it was granted to. -/
theorem inFlight_admit :
    (g.admitConnections origin want now).2.inFlight o =
      g.inFlight o + if o = origin then (g.admitConnections origin want now).1 else 0 := by
  unfold admitConnections
  simp only
  split
  · have hsame : (g.put origin (some (g.account origin))).inFlight o = g.inFlight o :=
      inFlight_put_same rfl
    simpa using hsame
  · show (g.put origin _).inFlight o = _
    rw [inFlight_put]
    split
    next ho => rw [ho]; rfl
    · rfl

theorem admit_le : (g.admitConnections origin want now).1 ≤ want := by
  unfold admitConnections
  simp only
  split
  · exact Nat.zero_le _
  · exact Nat.min_le_left _ _

/-- Nothing is granted to an origin that stands down or is at its cap. -/
theorem admit_eq_zero : (g.admitConnections origin want now).1 = 0 ↔
    now < (g.account origin).readyAt ∨ want = 0 ∨ g.limits.connections ≤ g.inFlight origin := by
  unfold admitConnections inFlight
  simp only
  split
  next h => simp [h]
  next h =>
    simp only [h, false_or, Nat.min_eq_zero_iff]
    omega

theorem inFlight_release :
    (g.release origin granted now).inFlight o =
      if o = origin then g.inFlight o - granted else g.inFlight o := by
  unfold release
  split
  next h =>
    split
    next ho =>
      have : g.inFlight o = 0 := by rw [ho, inFlight, account, h]; rfl
      omega
    · rfl
  next s h =>
    rw [inFlight_put, inFlight_keep]
    split
    next ho => rw [ho, inFlight, account_of_some h]
    · rfl

@[simp] theorem inFlight_succeeded : (g.succeeded origin now).inFlight o = g.inFlight o := by
  unfold succeeded
  split
  · rfl
  next s h =>
    refine inFlight_put_same ?_
    rw [inFlight_keep, inFlight, account_of_some h]

@[simp] theorem inFlight_throttled {retryAfterMs : Option ℕ} :
    (g.throttled origin retryAfterMs now).inFlight o = g.inFlight o :=
  inFlight_put_same rfl

@[simp] theorem inFlight_failed : (g.failed origin now).inFlight o = g.inFlight o :=
  inFlight_put_same rfl

/-- A governor that has just been made has nothing outstanding. -/
theorem inFlight_new {limits : OriginLimits} (h : new limits = some g) : g.inFlight o = 0 := by
  unfold new at h
  split at h
  · cases h
    rfl
  · cases h

/-! ### What never changes -/

@[simp] theorem limits_admit : (g.admitConnections origin want now).2.limits = g.limits := by
  unfold admitConnections
  simp only
  split <;> rfl

@[simp] theorem limits_release : (g.release origin granted now).limits = g.limits := by
  unfold release
  split <;> rfl

@[simp] theorem limits_succeeded : (g.succeeded origin now).limits = g.limits := by
  unfold succeeded
  split <;> rfl

/-- An origin that is granted nothing keeps its account. -/
theorem account_admit (h : (g.admitConnections origin want now).1 = 0) :
    (g.admitConnections origin want now).2.account o = g.account o := by
  have hput : (g.put origin (some (g.account origin))).account o = g.account o := by
    rw [account_put]
    split
    next ho => rw [ho, Option.getD_some]
    · rfl
  revert h
  unfold admitConnections
  simp only
  split
  · exact fun _ ↦ hput
  · intro h
    rw [show min want (g.limits.connections - (g.account origin).inFlight) = 0 from h, Nat.add_zero]
    exact hput

theorem readyAt_eq_some {at' : ℕ} : g.readyAt origin now = some at' ↔
    (∃ s, g.origins origin = some s ∧ s.readyAt = at') ∧ now < at' := by
  unfold readyAt
  rw [Option.filter_eq_some_iff]
  simp [Option.map_eq_some_iff]

end OriginGovernor

end Fhd
