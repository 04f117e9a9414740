import FhdEngine.Domain.Basic

/-!
# The lifecycle of a download

`crates/download-core/src/state.rs`: a state machine that is told by commands and events. An event carries the
attempt it belongs to, and every start, resumption, retry and recovery begins a new one.

A download refuses what does not fit, and stays as it is. So a run is any sequence of inputs (`Download.run`), and what
was accepted since the attempt began is kept beside it (`Account`): a download is `completed` only if its last attempt
was told all four steps in their order and nothing else.
-/

namespace Fhd.DownloadCore

inductive State
  | queued
  | probing
  | downloading
  | pausing
  | paused
  | retryWait
  | needsAction
  | verifying
  | publishing
  | cancelling
  | cancelled
  | recovering
  | completed
deriving DecidableEq, Repr

inductive Command
  | start
  | pause
  | resume
  | retry
  | cancel
  | recover
deriving DecidableEq, Repr

inductive Event
  | probeSucceeded
  | transferFinished
  | verified
  | publishSucceeded
  | workersStopped
  /-- All workers stopped; no outstanding writes or publication effects. -/
  | retryableFailureAfterStop
  /-- All workers stopped; publication outcome reconciled if applicable. -/
  | actionRequiredAfterStop
  /-- Disk reconciliation finished; remain paused, never assume completion. -/
  | reconciled
deriving DecidableEq, Repr

/-- Nonsecret identity assigned by the owner. -/
abbrev DownloadId := BitVec 128

structure AttemptToken where
  downloadId : DownloadId
  sequence : ℕ
deriving DecidableEq, Repr

inductive TransitionError
  | illegalTransition
  | staleAttempt
  | attemptExhausted
deriving DecidableEq, Repr

/-- Where a command leads, and whether a new attempt begins there. -/
def State.obey : State → Command → Option (State × Bool)
  | .queued, .start => some (.probing, true)
  | .paused, .resume | .needsAction, .resume => some (.probing, true)
  | .retryWait, .retry => some (.probing, true)
  | .probing, .pause | .downloading, .pause | .verifying, .pause => some (.pausing, false)
  | .queued, .pause | .retryWait, .pause | .needsAction, .pause => some (.paused, false)
  | .probing, .cancel | .downloading, .cancel | .verifying, .cancel | .pausing, .cancel => some (.cancelling, false)
  | .queued, .cancel | .paused, .cancel | .retryWait, .cancel | .needsAction, .cancel => some (.cancelled, false)
  | .completed, .recover | .cancelled, .recover | .recovering, .recover => none
  | _, .recover => some (.recovering, true)
  | _, _ => none

/-- Where an event leads. -/
def State.learn : State → Event → Option State
  | .probing, .probeSucceeded => some .downloading
  | .downloading, .transferFinished => some .verifying
  | .verifying, .verified => some .publishing
  | .publishing, .publishSucceeded => some .completed
  | .pausing, .workersStopped => some .paused
  | .cancelling, .workersStopped => some .cancelled
  | .probing, .retryableFailureAfterStop | .downloading, .retryableFailureAfterStop
  | .verifying, .retryableFailureAfterStop => some .retryWait
  | .probing, .actionRequiredAfterStop | .downloading, .actionRequiredAfterStop
  | .verifying, .actionRequiredAfterStop | .publishing, .actionRequiredAfterStop
  | .recovering, .actionRequiredAfterStop => some .needsAction
  | .recovering, .reconciled => some .paused
  | _, _ => none

structure Download where
  state : State
  attempt : AttemptToken
deriving DecidableEq, Repr

namespace Download

def new (id : DownloadId) : Download := ⟨.queued, ⟨id, 0⟩⟩

/-- The next attempt of this download. -/
def nextAttempt (d : Download) : Except TransitionError AttemptToken :=
  match checkedAdd d.attempt.sequence 1 with
  | none => .error .attemptExhausted
  | some sequence => .ok { d.attempt with sequence := sequence }

def command (d : Download) (command : Command) : Except TransitionError Download :=
  match d.state.obey command with
  | none => .error .illegalTransition
  | some (next, false) => .ok { d with state := next }
  | some (next, true) => do
    let attempt ← d.nextAttempt
    return ⟨next, attempt⟩

def event (d : Download) (attempt : AttemptToken) (event : Event) : Except TransitionError Download :=
  if attempt ≠ d.attempt then .error .staleAttempt
  else
    match d.state.learn event with
    | none => .error .illegalTransition
    | some next => .ok { d with state := next }

end Download

/-! ### Runs -/

inductive Input
  | command (command : Command)
  | event (attempt : AttemptToken) (event : Event)
deriving DecidableEq, Repr

namespace Download

def take (d : Download) : Input → Except TransitionError Download
  | .command command => d.command command
  | .event attempt event => d.event attempt event

/-- What is refused changes nothing. -/
def step (d : Download) (input : Input) : Download := (d.take input).toOption.getD d

def run (d : Download) (inputs : List Input) : Download := inputs.foldl step d

/-- What a command that is accepted may have done. -/
theorem command_eq_ok {d d' : Download} {command : Command} : d.command command = .ok d' ↔
    ∃ begins, d.state.obey command = some (d'.state, begins) ∧ d'.attempt.downloadId = d.attempt.downloadId ∧
      if begins then d.attempt.sequence < u64Max ∧ d'.attempt.sequence = d.attempt.sequence + 1
      else d'.attempt = d.attempt := by
  obtain ⟨state', id', sequence'⟩ := d'
  obtain ⟨state, id, sequence⟩ := d
  simp only [Download.command]
  rcases hobey : state.obey command with - | ⟨next, begins⟩
  · exact ⟨by rintro ⟨⟩, by rintro ⟨begins, h, -⟩; cases h⟩
  cases begins with
  | false =>
    constructor
    · intro h
      cases h
      exact ⟨false, rfl, rfl, rfl⟩
    · rintro ⟨begins, h, -, hattempt⟩
      cases h
      cases hattempt
      rfl
  | true =>
    have hbind : (do
        let attempt ← nextAttempt ⟨state, ⟨id, sequence⟩⟩
        return ⟨next, attempt⟩ : Except TransitionError Download) =
          if sequence < u64Max then .ok ⟨next, ⟨id, sequence + 1⟩⟩ else .error .attemptExhausted := by
      by_cases hless : sequence < u64Max
      · have hadd : checkedAdd sequence 1 = some (sequence + 1) := checkedAdd_eq_some.2 ⟨hless, rfl⟩
        rw [if_pos hless]
        simp only [nextAttempt, hadd]
        rfl
      · have hadd : checkedAdd sequence 1 = none := if_neg (by omega)
        rw [if_neg hless]
        simp only [nextAttempt, hadd]
        rfl
    simp only [hbind]
    constructor
    · intro h
      split at h
      next hless =>
        cases h
        exact ⟨true, rfl, rfl, hless, rfl⟩
      next => cases h
    · rintro ⟨begins, h, rfl, hrest⟩
      cases h
      obtain ⟨hless, rfl⟩ := hrest
      exact if_pos hless

theorem event_eq_ok {d d' : Download} {attempt : AttemptToken} {event : Event} : d.event attempt event = .ok d' ↔
    attempt = d.attempt ∧ d'.attempt = d.attempt ∧ d.state.learn event = some d'.state := by
  obtain ⟨state', attempt'⟩ := d'
  rw [Download.event]
  by_cases hattempt : attempt = d.attempt
  · rw [if_neg (not_not.2 hattempt)]
    rcases hlearn : d.state.learn event with - | next
    · exact ⟨by rintro ⟨⟩, fun h ↦ by cases h.2.2⟩
    · constructor
      · intro h
        cases h
        exact ⟨hattempt, rfl, rfl⟩
      · rintro ⟨-, rfl, h⟩
        cases h
        rfl
  · rw [if_pos hattempt]
    exact ⟨by rintro ⟨⟩, fun h ↦ absurd h.1 hattempt⟩

end Download

end Fhd.DownloadCore
