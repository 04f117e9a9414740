import FhdEngine.Runtime.Origin
import Mathlib.Algebra.BigOperators.Group.List.Basic

/-!
# What an origin is granted, over whole histories of its governor

The calls of `crates/runtime/src/origin.rs` in any order, over any origins, by a clock that never goes
back. Each of them holds the lock from end to end, so a history is a list of calls.

The governor forgets accounts. `standing` is the account of an origin when none is ever forgotten, and
what is proved of the histories rests on one relation between the two: they say the same of every moment
from now on (`Agrees`). A row that is not there says that nothing is outstanding, that no failure is
counted and that no deadline is left, so this relation is also the reason why rows may be forgotten.
-/

namespace Fhd

open OriginGovernor (keep)

inductive OriginCall
  | admission (want : ℕ)
  | release (granted : ℕ)
  | succeeded
  | throttled (retryAfterMs : Option ℕ)
  | failed
deriving DecidableEq, Repr

/-- One call, and what it was granted. -/
structure OriginEntry where
  origin : OriginId
  call : OriginCall
  now : ℕ
  granted : ℕ
deriving DecidableEq, Repr

/-- The server pushed back, or the connection failed. -/
def OriginCall.isReport : OriginCall → Bool
  | .throttled _ | .failed => true
  | _ => false

def OriginGovernor.call (g : OriginGovernor) (origin : OriginId) (now : ℕ) :
    OriginCall → ℕ × OriginGovernor
  | .admission want => g.admitConnections origin want now
  | .release granted => (0, g.release origin granted now)
  | .succeeded => (0, g.succeeded origin now)
  | .throttled retryAfterMs => (0, g.throttled origin retryAfterMs now)
  | .failed => (0, g.failed origin now)

/-- The grants that are held after a call: a grant comes in, or one of them goes back. -/
def hold (held : List (OriginId × ℕ)) (e : OriginEntry) : List (OriginId × ℕ) :=
  match e.call with
  | .admission _ => (e.origin, e.granted) :: held
  | .release granted => held.erase (e.origin, granted)
  | _ => held

/-- A history of a governor, newest call first. The clock does not go back, and only a grant that is
held is returned. -/
inductive Governs (limits : OriginLimits) :
    List OriginEntry → List (OriginId × ℕ) → OriginGovernor → Prop
  | new {g : OriginGovernor} (hnew : OriginGovernor.new limits = some g) : Governs limits [] [] g
  | call {log : List OriginEntry} {held : List (OriginId × ℕ)} {g : OriginGovernor}
      (origin : OriginId) (c : OriginCall) (now : ℕ) (hrun : Governs limits log held g)
      (hclock : ∀ e ∈ log, e.now ≤ now) (hnow : now ≤ u64Max)
      (hheld : ∀ granted, c = .release granted → (origin, granted) ∈ held) :
      Governs limits (⟨origin, c, now, (g.call origin now c).1⟩ :: log)
        (hold held ⟨origin, c, now, (g.call origin now c).1⟩) (g.call origin now c).2

/-- The connections of one origin in a list of grants. -/
def carried (held : List (OriginId × ℕ)) (o : OriginId) : ℕ :=
  (held.map fun grant ↦ if grant.1 = o then grant.2 else 0).sum

/-- The last report on an origin. -/
def lastReport (log : List OriginEntry) (o : OriginId) : Option OriginEntry :=
  log.find? fun e ↦ e.origin = o && e.call.isReport

/-- A deadline is at most the longest pause after the last report, and there is none before it. -/
def Ceiling (limits : OriginLimits) (log : List OriginEntry) (o : OriginId) (deadline : ℕ) : Prop :=
  match lastReport log o with
  | none => deadline = 0
  | some e => deadline ≤ e.now + limits.maximumPauseMs

/-! ### Accounts that are never forgotten -/

/-- What a call does to the account of its origin. -/
def OriginState.change (limits : OriginLimits) (s : OriginState) (e : OriginEntry) : OriginState :=
  let pauseFor := OriginGovernor.pauseFor ⟨limits, fun _ ↦ none⟩
  let failures := saturatingSucc32 s.failures
  match e.call with
  | .admission _ => { s with inFlight := s.inFlight + e.granted }
  | .release granted => { s with inFlight := s.inFlight - granted }
  | .succeeded => { s with failures := 0, backoffUntil := 0 }
  | .throttled retryAfterMs =>
    { s with
      failures
      floorUntil :=
        match retryAfterMs with
        | none => s.floorUntil
        | some asked => max s.floorUntil (saturatingAdd e.now (min asked limits.maximumPauseMs))
      backoffUntil := max s.backoffUntil (saturatingAdd e.now (pauseFor failures)) }
  | .failed =>
    { s with
      failures
      backoffUntil :=
        if failures ≥ limits.failuresBeforePause then
          max s.backoffUntil
            (saturatingAdd e.now (pauseFor (failures - limits.failuresBeforePause + 1)))
        else s.backoffUntil }

/-- **The account a history adds up to.** -/
def standing (limits : OriginLimits) : List OriginEntry → OriginId → OriginState
  | [], _ => .empty
  | e :: log, o =>
    if e.origin = o then (standing limits log o).change limits e else standing limits log o

/-- Two accounts that say the same of every moment from `now` on. What they say of the past, the first
may have forgotten. -/
structure OriginState.Agrees (now : ℕ) (s t : OriginState) : Prop where
  inFlight : s.inFlight = t.inFlight
  failures : s.failures = t.failures
  backoff : max now s.backoffUntil = max now t.backoffUntil
  backoff_le : s.backoffUntil ≤ t.backoffUntil
  floor : max now s.floorUntil = max now t.floorUntil
  floor_le : s.floorUntil ≤ t.floorUntil

namespace OriginState

variable {limits : OriginLimits} {s t : OriginState} {e : OriginEntry} {now now' : ℕ}

theorem le_saturatingAdd {a : ℕ} (h : now ≤ u64Max) : now ≤ saturatingAdd now a := by
  unfold saturatingAdd
  omega

theorem saturatingAdd_le {a : ℕ} : saturatingAdd now a ≤ now + a := Nat.min_le_left _ _

/-- Time passes. -/
theorem Agrees.later (h : Agrees now s t) (hle : now ≤ now') : Agrees now' s t := by
  have hb := h.backoff
  have hf := h.floor
  exact ⟨h.inFlight, h.failures, by omega, h.backoff_le, by omega, h.floor_le⟩

/-- **A call changes both in the same way**: every deadline it sets is one from now on. -/
theorem Agrees.change (h : Agrees e.now s t) (hnow : e.now ≤ u64Max) :
    Agrees e.now (s.change limits e) (t.change limits e) := by
  have hb := h.backoff
  have hb' := h.backoff_le
  have hf := h.floor
  have hf' := h.floor_le
  have hlater : ∀ a, e.now ≤ saturatingAdd e.now a := fun a ↦ le_saturatingAdd hnow
  unfold OriginState.change
  cases e.call with
  | admission want => exact ⟨by simp only [h.inFlight], h.failures, hb, hb', hf, hf'⟩
  | release granted => exact ⟨by simp only [h.inFlight], h.failures, hb, hb', hf, hf'⟩
  | succeeded => exact ⟨h.inFlight, rfl, rfl, le_rfl, hf, hf'⟩
  | throttled retryAfterMs =>
    refine ⟨h.inFlight, by simp only [h.failures], ?_, ?_, ?_, ?_⟩
    · simp only [h.failures]
      omega
    · simp only [h.failures]
      omega
    · cases retryAfterMs with
      | none => exact hf
      | some asked => dsimp only; omega
    · cases retryAfterMs with
      | none => exact hf'
      | some asked => dsimp only; omega
  | failed =>
    refine ⟨h.inFlight, by simp only [h.failures], ?_, ?_, hf, hf'⟩
    · simp only [h.failures]
      split <;> omega
    · simp only [h.failures]
      split <;> omega

/-- A settled account says what no account says. -/
theorem Agrees.of_settled (h : Agrees now s t) (hs : s.settled now = true) : Agrees now .empty t := by
  obtain ⟨hflight, hfailures, hready⟩ := of_decide_eq_true hs
  have hb := h.backoff
  have hf := h.floor
  unfold readyAt at hready
  refine ⟨hflight.symm.trans h.inFlight, hfailures.symm.trans h.failures, ?_, Nat.zero_le _, ?_,
    Nat.zero_le _⟩ <;> dsimp only [empty] <;> omega

/-- **No account**: nothing is left in the other one. -/
theorem Agrees.settled_of_empty (h : Agrees now .empty t) : t.settled now = true := by
  have hb := h.backoff
  have hf := h.floor
  dsimp only [empty] at hb hf
  refine decide_eq_true ⟨h.inFlight.symm, h.failures.symm, ?_⟩
  unfold readyAt
  omega

theorem Agrees.readyAt (h : Agrees now s t) : max now s.readyAt = max now t.readyAt := by
  have hb := h.backoff
  have hf := h.floor
  unfold OriginState.readyAt
  omega

theorem Agrees.readyAt_le (h : Agrees now s t) : s.readyAt ≤ t.readyAt := by
  have hb := h.backoff_le
  have hf := h.floor_le
  unfold OriginState.readyAt
  omega

theorem Agrees.keep (h : Agrees now s t) : Agrees now ((keep s now).getD .empty) t := by
  unfold OriginGovernor.keep
  split
  next hs => exact h.of_settled hs
  · exact h

/-- What a call makes of an account fits its machine words. -/
structure Fits (s : OriginState) : Prop where
  failures : s.failures ≤ 2 ^ 32 - 1
  backoff : s.backoffUntil ≤ u64Max
  floor : s.floorUntil ≤ u64Max

theorem saturatingAdd_le_u64Max {a : ℕ} : saturatingAdd now a ≤ u64Max := Nat.min_le_right _ _

theorem saturatingSucc32_le (n : ℕ) : saturatingSucc32 n ≤ 2 ^ 32 - 1 := Nat.min_le_right _ _

theorem Fits.empty : Fits .empty := ⟨by decide, by decide, by decide⟩

theorem Fits.change (h : Fits s) : Fits (s.change limits e) := by
  have hadd : ∀ a, saturatingAdd e.now a ≤ u64Max := fun a ↦ saturatingAdd_le_u64Max
  unfold OriginState.change
  cases e.call with
  | admission want => exact ⟨h.failures, h.backoff, h.floor⟩
  | release granted => exact ⟨h.failures, h.backoff, h.floor⟩
  | succeeded => exact ⟨Nat.zero_le _, Nat.zero_le _, h.floor⟩
  | throttled retryAfterMs =>
    refine ⟨saturatingSucc32_le _, max_le h.backoff (hadd _), ?_⟩
    cases retryAfterMs with
    | none => exact h.floor
    | some asked => exact max_le h.floor (hadd _)
  | failed =>
    refine ⟨saturatingSucc32_le _, ?_, h.floor⟩
    dsimp only
    split
    · exact max_le h.backoff (hadd _)
    · exact h.backoff

theorem Fits.keep (h : Fits s) : Fits ((keep s now).getD .empty) := by
  unfold OriginGovernor.keep
  split
  · exact .empty
  · exact h

end OriginState

/-! ### One call -/

namespace OriginGovernor

variable {g : OriginGovernor} {origin o : OriginId} {now : ℕ} {c : OriginCall}

@[simp] theorem limits_call : (g.call origin now c).2.limits = g.limits := by
  cases c with
  | admission want => exact limits_admit
  | release granted => exact limits_release
  | succeeded => exact limits_succeeded
  | throttled retryAfterMs => rfl
  | failed => rfl

theorem account_call_other (h : o ≠ origin) : (g.call origin now c).2.account o = g.account o := by
  have hput : ∀ s, (g.put origin s).account o = g.account o := fun s ↦ by
    rw [account_put, if_neg h]
  cases c with
  | admission want =>
    show (g.admitConnections origin want now).2.account o = _
    unfold admitConnections
    simp only
    split <;> exact hput _
  | release granted =>
    show (g.release origin granted now).account o = _
    unfold release
    split
    · rfl
    · exact hput _
  | succeeded =>
    show (g.succeeded origin now).account o = _
    unfold succeeded
    split
    · rfl
    · exact hput _
  | throttled retryAfterMs => exact hput _
  | failed => exact hput _

/-- **One call is one change of the account**, which may be forgotten after it. -/
theorem account_call :
    (g.call origin now c).2.account origin =
        (g.account origin).change g.limits ⟨origin, c, now, (g.call origin now c).1⟩ ∨
      (g.call origin now c).2.account origin =
        (keep ((g.account origin).change g.limits ⟨origin, c, now, (g.call origin now c).1⟩)
          now).getD .empty := by
  have hput : ∀ s, (g.put origin s).account origin = s.getD .empty := fun s ↦ by
    rw [account_put, if_pos rfl]
  cases c with
  | admission want =>
    refine .inl ?_
    show (g.admitConnections origin want now).2.account origin =
      { g.account origin with
        inFlight := (g.account origin).inFlight + (g.admitConnections origin want now).1 }
    unfold admitConnections
    simp only
    split <;> exact hput _
  | release granted =>
    show (g.release origin granted now).account origin = _ ∨
      (g.release origin granted now).account origin = _
    unfold release
    split
    next h =>
      have hempty : g.account origin = .empty := by rw [account, h]; rfl
      rw [hempty]
      exact .inl (congrArg (fun n ↦ OriginState.mk n 0 0 0) (Nat.zero_sub granted).symm)
    next s h =>
      rw [account_of_some h]
      exact .inr (hput _)
  | succeeded =>
    show (g.succeeded origin now).account origin = _ ∨ (g.succeeded origin now).account origin = _
    unfold succeeded
    split
    next h =>
      have hempty : g.account origin = .empty := by rw [account, h]; rfl
      rw [hempty]
      exact .inl rfl
    next s h =>
      rw [account_of_some h]
      exact .inr (hput _)
  | throttled retryAfterMs => exact .inl (hput _)
  | failed => exact .inl (hput _)

/-- The accounts keep what a change and forgetting keep. -/
theorem account_call_of {P : OriginState → Prop}
    (hother : ∀ o, o ≠ origin → P (g.account o))
    (hchange : P ((g.account origin).change g.limits ⟨origin, c, now, (g.call origin now c).1⟩))
    (hkeep : ∀ s, P s → P ((keep s now).getD .empty)) (o : OriginId) :
    P ((g.call origin now c).2.account o) := by
  by_cases ho : o = origin
  · subst ho
    rcases (account_call : (g.call o now c).2.account o = _ ∨ _) with h | h
    · rw [h]
      exact hchange
    · rw [h]
      exact hkeep _ hchange
  · rw [account_call_other ho]
    exact hother o ho

end OriginGovernor

/-! ### Histories -/

namespace Governs

open OriginState (Agrees Fits)

variable {limits : OriginLimits} {log : List OriginEntry} {held : List (OriginId × ℕ)}
  {g : OriginGovernor} {o : OriginId} {now : ℕ}

theorem limits_eq (h : Governs limits log held g) : g.limits = limits := by
  induction h with
  | new hnew =>
    unfold OriginGovernor.new at hnew
    split at hnew
    · cases hnew
      rfl
    · cases hnew
  | call origin c now hrun hclock hnow hheld ih => rw [OriginGovernor.limits_call, ih]

theorem valid (h : Governs limits log held g) : limits.valid = true := by
  induction h with
  | new hnew =>
    unfold OriginGovernor.new at hnew
    split at hnew
    next hvalid => exact hvalid
    · cases hnew
  | call origin c now hrun hclock hnow hheld ih => exact ih

theorem account_new (h : OriginGovernor.new limits = some g) : g.account o = .empty := by
  unfold OriginGovernor.new at h
  split at h
  · cases h
    rfl
  · cases h

/-- The last call's clock is a clock to go on with. -/
theorem exists_now (h : Governs limits log held g) : ∃ now, ∀ e ∈ log, e.now ≤ now := by
  cases h with
  | new hnew => exact ⟨0, nofun⟩
  | @call log held g origin c now hrun hclock hnow hheld =>
    exact ⟨now, List.forall_mem_cons.2 ⟨le_rfl, hclock⟩⟩

/-- **The governor forgets nothing**: its accounts say of every moment from now on what the whole
history says of it. -/
theorem agrees (h : Governs limits log held g) (hnow : ∀ e ∈ log, e.now ≤ now) (o : OriginId) :
    Agrees now (g.account o) (standing limits log o) := by
  induction h generalizing now o with
  | new hnew =>
    rw [account_new hnew]
    exact ⟨rfl, rfl, rfl, le_rfl, rfl, le_rfl⟩
  | @call log held g origin c now' hrun hclock hle hheld ih =>
    have hlimits := hrun.limits_eq
    set e : OriginEntry := ⟨origin, c, now', (g.call origin now' c).1⟩ with he
    refine Agrees.later ?_ (hnow e (List.mem_cons_self ..))
    by_cases ho : o = origin
    · subst ho
      have hsame : Agrees e.now ((g.account o).change limits e) ((standing limits log o).change limits e) :=
        (ih hclock o).change hle
      show Agrees now' _ (if e.origin = o then _ else _)
      rw [if_pos rfl]
      rcases (OriginGovernor.account_call : (g.call o now' c).2.account o = _ ∨ _) with h | h
      · rw [h, hlimits]
        exact hsame
      · rw [h, hlimits]
        exact hsame.keep
    · show Agrees now' _ (if e.origin = o then _ else _)
      rw [if_neg (fun heq ↦ ho heq.symm), OriginGovernor.account_call_other ho]
      exact ih hclock o

/-- Everything an account holds fits its machine words. -/
theorem fits (h : Governs limits log held g) (o : OriginId) : Fits (g.account o) := by
  induction h generalizing o with
  | new hnew =>
    rw [account_new hnew]
    exact .empty
  | call origin c now hrun hclock hnow hheld ih =>
    exact OriginGovernor.account_call_of (fun o _ ↦ ih o) (ih _).change (fun s hs ↦ hs.keep) o

/-! #### Grants -/

theorem carried_cons (grant : OriginId × ℕ) :
    carried (grant :: held) o = (if grant.1 = o then grant.2 else 0) + carried held o := by
  simp only [carried, List.map_cons, List.sum_cons]

theorem carried_erase {grant : OriginId × ℕ} (h : grant ∈ held) :
    carried held o = (if grant.1 = o then grant.2 else 0) + carried (held.erase grant) o := by
  rw [← carried_cons]
  exact ((List.perm_cons_erase h).map _).sum_eq

/-- **What an origin carries is what is held of it.** -/
theorem outstanding (h : Governs limits log held g) (o : OriginId) : g.inFlight o = carried held o := by
  induction h generalizing o with
  | new hnew => exact OriginGovernor.inFlight_new hnew
  | @call log held g origin c now hrun hclock hnow hheld ih =>
    cases c with
    | admission want =>
      show (g.admitConnections origin want now).2.inFlight o = carried (_ :: held) o
      rw [OriginGovernor.inFlight_admit, carried_cons, ih, Nat.add_comm]
      simp only [eq_comm]
      rfl
    | release granted =>
      show (g.release origin granted now).inFlight o = carried (held.erase (origin, granted)) o
      have hcarried := carried_erase (o := o) (hheld granted rfl)
      rw [OriginGovernor.inFlight_release, ih, hcarried]
      by_cases ho : o = origin
      · rw [if_pos ho, if_pos ho.symm]
        exact Nat.add_sub_cancel_left ..
      · rw [if_neg ho, if_neg (Ne.symm ho), Nat.zero_add]
    | succeeded => exact OriginGovernor.inFlight_succeeded.trans (ih o)
    | throttled retryAfterMs => exact OriginGovernor.inFlight_throttled.trans (ih o)
    | failed => exact OriginGovernor.inFlight_failed.trans (ih o)

/-- A grant that is held is part of what its origin carries. -/
theorem le_inFlight (h : Governs limits log held g) {granted : ℕ} (hheld : (o, granted) ∈ held) :
    granted ≤ g.inFlight o := by
  have hcarried := carried_erase (o := o) hheld
  rw [if_pos rfl] at hcarried
  rw [h.outstanding]
  omega

end Governs

namespace OriginGovernor

/-- A grant stays within the cap if what is carried does. -/
theorem inFlight_admit_le (g : OriginGovernor) (origin o : OriginId) (want now : ℕ)
    (h : ∀ o, g.inFlight o ≤ g.limits.connections) :
    g.inFlight o + (if o = origin then (g.admitConnections origin want now).1 else 0) ≤
      g.limits.connections := by
  have ho := h o
  split
  next heq =>
    subst heq
    unfold admitConnections
    simp only
    split
    · exact ho
    · unfold inFlight at ho ⊢
      dsimp only
      omega
  · exact ho

end OriginGovernor

namespace Governs

variable {limits : OriginLimits} {log : List OriginEntry} {held : List (OriginId × ℕ)}
  {g : OriginGovernor} {o : OriginId} {now : ℕ}

/-- **No origin carries more than its cap.** -/
theorem capped (h : Governs limits log held g) (o : OriginId) : g.inFlight o ≤ limits.connections := by
  induction h generalizing o with
  | new hnew =>
    rw [OriginGovernor.inFlight_new hnew]
    exact Nat.zero_le _
  | @call log held g origin c now hrun hclock hnow hheld ih =>
    cases c with
    | admission want =>
      show (g.admitConnections origin want now).2.inFlight o ≤ _
      rw [OriginGovernor.inFlight_admit, ← hrun.limits_eq]
      exact g.inFlight_admit_le origin o want now (hrun.limits_eq ▸ ih)
    | release granted =>
      have ho := ih o
      show (g.release origin granted now).inFlight o ≤ _
      rw [OriginGovernor.inFlight_release]
      split <;> omega
    | succeeded => exact OriginGovernor.inFlight_succeeded.trans_le (ih o)
    | throttled retryAfterMs => exact OriginGovernor.inFlight_throttled.trans_le (ih o)
    | failed => exact OriginGovernor.inFlight_failed.trans_le (ih o)

/-! #### Deadlines -/

theorem pauseFor_le {failures : ℕ} : g.pauseFor failures ≤ g.limits.maximumPauseMs :=
  Nat.min_le_right _ _

/-- A call never brings the server's own deadline forward. -/
theorem floor_le_change (s : OriginState) (e : OriginEntry) :
    s.floorUntil ≤ (s.change limits e).floorUntil := by
  unfold OriginState.change
  rcases e.call with want | granted | _ | _ | _
  all_goals first
    | exact le_rfl
    | skip
  rename_i retryAfterMs
  cases retryAfterMs with
  | none => exact le_rfl
  | some asked => exact le_max_left _ _

/-- **The server's delay stands**, whatever is reported after it. -/
theorem le_standing (limits : OriginLimits) {log : List OriginEntry} {e : OriginEntry} {asked : ℕ}
    (he : e ∈ log) (hcall : e.call = .throttled (some asked)) :
    saturatingAdd e.now (min asked limits.maximumPauseMs) ≤
      (standing limits log e.origin).floorUntil := by
  induction log with
  | nil => cases he
  | cons e' log ih =>
    rw [standing]
    rcases List.mem_cons.1 he with rfl | hold
    · rw [if_pos rfl, OriginState.change, hcall]
      exact le_max_right _ _
    · split
      · exact (ih hold).trans (floor_le_change _ _)
      · exact ih hold

theorem readyAt_change_le (limits : OriginLimits) (s : OriginState) (e : OriginEntry) :
    (s.change limits e).readyAt ≤
      if e.call.isReport then max s.readyAt (e.now + limits.maximumPauseMs) else s.readyAt := by
  have hadd : ∀ a, saturatingAdd e.now a ≤ e.now + a := fun a ↦ Nat.min_le_left _ _
  have hours : ∀ failures, saturatingAdd e.now (OriginGovernor.pauseFor ⟨limits, fun _ ↦ none⟩ failures) ≤
      e.now + limits.maximumPauseMs := fun failures ↦
    (hadd _).trans (Nat.add_le_add_left (Nat.min_le_right _ _) _)
  unfold OriginState.change OriginState.readyAt
  cases e.call with
  | admission want => exact le_rfl
  | release granted => exact le_rfl
  | succeeded => exact max_le (Nat.zero_le _) (le_max_right _ _)
  | throttled retryAfterMs =>
    have hbackoff := hours (saturatingSucc32 s.failures)
    simp only [OriginCall.isReport, if_true]
    cases retryAfterMs with
    | none => dsimp only; omega
    | some asked =>
      have hasked := hadd (min asked limits.maximumPauseMs)
      dsimp only
      omega
  | failed =>
    have hbackoff := hours (saturatingSucc32 s.failures - limits.failuresBeforePause + 1)
    simp only [OriginCall.isReport, if_true]
    split <;> omega

theorem Ceiling.mono {deadline deadline' : ℕ} (h : Ceiling limits log o deadline)
    (hle : deadline' ≤ deadline) : Ceiling limits log o deadline' := by
  unfold Ceiling at h ⊢
  split at h
  · omega
  · omega

/-- **No deadline is later than the last report and the longest pause.** -/
theorem ceiling (h : Governs limits log held g) (o : OriginId) :
    Ceiling limits log o (standing limits log o).readyAt := by
  induction h generalizing o with
  | new hnew => rfl
  | @call log held g origin c now hrun hclock hnow hheld ih =>
    generalize (g.call origin now c).1 = granted
    have hold : (standing limits log o).readyAt ≤ now + limits.maximumPauseMs := by
      have ho := ih o
      unfold Ceiling at ho
      split at ho
      · omega
      next e he =>
        have := hclock e (List.mem_of_find?_eq_some he)
        omega
    unfold Ceiling lastReport
    rw [standing, List.find?_cons]
    by_cases ho : origin = o
    · subst ho
      have hchange := readyAt_change_le limits (standing limits log origin)
        ⟨origin, c, now, granted⟩
      rw [if_pos rfl]
      cases hc : c.isReport with
      | true =>
        simp only [hc, decide_true, Bool.and_true, if_true] at hchange ⊢
        omega
      | false =>
        simp only [hc, Bool.and_false, Bool.false_eq_true, if_false] at hchange ⊢
        exact Ceiling.mono (ih origin) hchange
    · simp only [ho, decide_false, Bool.false_and, if_false]
      exact ih o

end Governs

/-! ### What is promised of a governor -/

/-- **The promise**, of the state after a history. -/
structure Governed (limits : OriginLimits) (log : List OriginEntry) (held : List (OriginId × ℕ))
    (g : OriginGovernor) : Prop where
  /-- What an origin carries are the grants that are held of it. -/
  outstanding : ∀ o, g.inFlight o = carried held o
  capped : ∀ o, g.inFlight o ≤ limits.connections
  /-- An origin without a row has nothing outstanding, no failure and no deadline left. -/
  forgotten : ∀ o, g.origins o = none → carried held o = 0 ∧
    ∀ now, (∀ e ∈ log, e.now ≤ now) → (standing limits log o).settled now = true
  /-- The server's own delay is waited for, as far as the clock can tell time. -/
  floor : ∀ e ∈ log, ∀ asked, e.call = .throttled (some asked) → ∀ want now, (∀ e ∈ log, e.now ≤ now) →
    now < min (e.now + min asked limits.maximumPauseMs) u64Max →
    (g.admitConnections e.origin want now).1 = 0
  /-- No origin stands down for longer than the longest pause after its last report. -/
  ceiling : ∀ o, Ceiling limits log o (g.account o).readyAt
  /-- `in_flight += grant` -/
  grant : ∀ o want now, g.inFlight o + (g.admitConnections o want now).1 ≤ limits.connections
  /-- `in_flight.saturating_sub(granted)` is a subtraction. -/
  returned : ∀ o granted, (o, granted) ∈ held → granted ≤ g.inFlight o
  /-- `failures - failures_before_pause + 1`, where it is computed -/
  count : ∀ o, let failures := saturatingSucc32 (g.account o).failures
    limits.failuresBeforePause ≤ failures →
      1 ≤ limits.failuresBeforePause ∧ failures - limits.failuresBeforePause + 1 ≤ 2 ^ 32 - 1
  fits : ∀ o, (g.account o).Fits

/-- **Every history keeps the promise.** -/
theorem governed {limits : OriginLimits} {log : List OriginEntry} {held : List (OriginId × ℕ)}
    {g : OriginGovernor} (h : Governs limits log held g) : Governed limits log held g where
  outstanding := h.outstanding
  capped := h.capped
  forgotten o hrow := by
    have hempty : g.account o = .empty := by rw [OriginGovernor.account, hrow]; rfl
    refine ⟨?_, fun now hnow ↦ ?_⟩
    · rw [← h.outstanding, OriginGovernor.inFlight, hempty]
      rfl
    · have hagrees := h.agrees hnow o
      rw [hempty] at hagrees
      exact hagrees.settled_of_empty
  floor e he asked hcall want now hnow hlt := by
    refine OriginGovernor.admit_eq_zero.2 (.inl ?_)
    have hready := (h.agrees hnow e.origin).readyAt
    have hstands : saturatingAdd e.now (min asked limits.maximumPauseMs) ≤
        (standing limits log e.origin).readyAt :=
      (Governs.le_standing limits he hcall).trans (le_max_right _ _)
    unfold saturatingAdd at hstands
    omega
  ceiling o := by
    obtain ⟨now, hnow⟩ := h.exists_now
    exact Governs.Ceiling.mono (h.ceiling o) (h.agrees hnow o).readyAt_le
  grant o want now := by
    have hle := g.inFlight_admit_le o o want now (h.limits_eq ▸ h.capped)
    rwa [if_pos rfl, h.limits_eq] at hle
  returned o granted := h.le_inFlight
  count o := by
    have hvalid := of_decide_eq_true h.valid
    have hcount := OriginState.saturatingSucc32_le (g.account o).failures
    dsimp only
    intro hle
    omega
  fits := h.fits

namespace OriginLimits.Sample

/-- `OriginLimits::default()`. -/
def limits : OriginLimits := ⟨8, 3, 1000, 300000⟩

def origin : OriginId := ⟨.replicate 16 0⟩

def governor : OriginGovernor := ⟨limits, fun _ ↦ none⟩

/-- Three connections of which two came back, and a server that asks for thirty seconds. -/
def log : List OriginEntry :=
  [⟨origin, .throttled (some 30000), 1000, 0⟩, ⟨origin, .release 2, 900, 0⟩,
    ⟨origin, .admission 1, 500, 1⟩, ⟨origin, .admission 2, 500, 2⟩]

end OriginLimits.Sample

open OriginLimits.Sample in
theorem governed_sample : ∃ g, Governed limits log [(origin, 1)] g ∧ g.inFlight origin = 1 ∧
    (g.admitConnections origin 1 30999).1 = 0 ∧ (g.admitConnections origin 1 31000).1 = 1 := by
  have h₀ : Governs limits [] [] governor := .new rfl
  have h₁ := Governs.call origin (.admission 2) 500 h₀ nofun (by decide) nofun
  have h₂ := Governs.call origin (.admission 1) 500 h₁ (by decide) (by decide) nofun
  have h₃ := Governs.call origin (.release 2) 900 h₂ (by decide) (by decide)
    (by intro granted h; cases h; decide)
  have h₄ := Governs.call origin (.throttled (some 30000)) 1000 h₃ (by decide) (by decide) nofun
  exact ⟨_, governed h₄, by decide, by decide, by decide⟩

open OriginLimits.Sample in
/-- At the end of time a delay cannot be added, and the origin is approached at once. -/
theorem not_waits_past_the_clock : ¬∀ (limits : OriginLimits) (log : List OriginEntry)
    (held : List (OriginId × ℕ)) (g : OriginGovernor), Governs limits log held g →
    ∀ e ∈ log, ∀ asked, e.call = .throttled (some asked) → ∀ want now, (∀ e ∈ log, e.now ≤ now) →
      now ≤ u64Max → now < e.now + min asked limits.maximumPauseMs →
      (g.admitConnections e.origin want now).1 = 0 := by
  intro hall
  have h₀ : Governs limits [] [] governor := .new rfl
  have h₁ := Governs.call origin (.throttled (some 1)) u64Max h₀ nofun le_rfl nofun
  have hgrant := hall _ _ _ _ h₁ _ (List.mem_cons_self ..) 1 rfl 1 u64Max (by decide) le_rfl (by decide)
  revert hgrant
  decide

end Fhd
