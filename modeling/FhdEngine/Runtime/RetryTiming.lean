import FhdEngine.Runtime.SessionTrace

/-!
# When a session's failures are tried again

Every transient failure of a session reads the clock, draws a jitter and asks the retry policy. The
record of a session's calls shows all of them (`failures`), so it also shows the command that each of them
was answered with (`commandFor`), and the job that ends up waiting is to wait for the latest of their
ticks.
-/

namespace Fhd

open Process (Returns Does)

namespace RetryPolicy

variable {p : RetryPolicy} {errorClass : ErrorClass} {attempts : UInt8} {now jitter tick : ℕ}
  {deadline : Option ℕ}

end RetryPolicy

/-- The transport failure of a worker that ended. -/
def WorkerDone.failure {workers : List ℕ} (done : WorkerDone workers) : Option TransportError :=
  match done.outcome with
  | .error (.transport error) => some error
  | _ => none

/-- The transport failure an answer brings. -/
def failing : (op : Port) → Answer op → Option TransportError
  | .awaitProbe _ _, .probe (.error error) => some error
  | .awaitWorker _ _, .worker done => done.failure
  | .joinWorker _, done => WorkerDone.failure done
  | _, _ => none

def clockReading : (op : Port) → Answer op → Option ℕ
  | .nowMs, now => some now
  | _, _ => none

def drawn : (op : Port) → Answer op → Option ℕ
  | .jitter, jitter => some jitter
  | _, _ => none

/-- A transition that was handed to the repository. -/
def handedOver : (op : Port) → Answer op → Option JobEvent
  | .job (.commitTransition event), _ => some event
  | _, _ => none

/-- A failure, with the clock and the jitter it was decided by. -/
structure TimedFailure where
  error : TransportError
  now : ℕ
  jitter : ℕ
deriving DecidableEq

/-- The last failure in a record. -/
def lastFailure (l : List Called) : Option TransportError := l.findSome? fun x ↦ failing x.1 x.2

/-- The last clock reading in a record. -/
def lastReading (l : List Called) : ℕ := (l.findSome? fun x ↦ clockReading x.1 x.2).getD 0

/-- Every failure the retry policy was asked about. -/
def failures : List Called → List TimedFailure
  | [] => []
  | x :: l =>
    match drawn x.1 x.2 with
    | some jitter => ⟨(lastFailure l).getD .transient, lastReading l, jitter⟩ :: failures l
    | none => failures l

/-- The transitions that were handed to the repository, whatever it answered. -/
def transitions (l : List Called) : List JobEvent := l.filterMap fun x ↦ handedOver x.1 x.2

/-- The command a failure is answered with, after so many attempts. -/
def commandFor (c : Coordinator) (attempts : UInt8) (f : TimedFailure) : JobCommand :=
  match c.config.retry.decide (Session.asked f.error f.now).1 attempts f.now
      (Session.asked f.error f.now).2 f.jitter with
  | .ok (.retryAt atTick) => .retry atTick
  | _ => .requireAction .network

def retryTick : JobCommand → Option ℕ
  | .retry atTick => some atTick
  | _ => none

/-- The ticks of the failures in a record. -/
def ticks (c : Coordinator) (attempts : UInt8) (l : List Called) : List ℕ :=
  (failures l).filterMap fun f ↦ retryTick (commandFor c attempts f)

/-! ### A job and its ticks -/

/-- A stop that was caused by these ticks, among others. -/
def StopTarget.After (ticks : List ℕ) : StopTarget → Prop
  | .retryWait atTick => ticks.max? = some atTick
  | .needsAction _ | .failed _ => True
  | _ => ticks = []

/-- A job that went through these ticks. -/
def Job.After (ticks : List ℕ) (j : Job) : Prop :=
  match j.state with
  | .queued | .probing | .transferring => ticks = []
  | .stopping => ∀ target, j.stop = some target → target.After ticks
  | .retryWait => ∃ atTick, j.retryAt = some atTick ∧ ticks.max? = some atTick
  | _ => True

namespace StopTarget

variable {ticks : List ℕ} {current cause : StopTarget}

/-- A cause that is no retry changes nothing about the latest tick. -/
theorem After.raise (h : current.After ticks) (hcause : ∀ atTick, cause ≠ .retryWait atTick) :
    (current.raise cause).After ticks := by
  cases cause with
  | retryWait atTick => exact absurd rfl (hcause atTick)
  | needsAction reason =>
    cases current <;> exact trivial
  | failed reason =>
    cases current <;> exact trivial
  | _ => cases current <;> exact h

/-- **One more tick**: the stop waits for the latest, or for more than a tick. -/
theorem After.retry (h : current.After ticks) (atTick : ℕ) :
    (current.raise (.retryWait atTick)).After (atTick :: ticks) := by
  have hfirst : ticks = [] → (atTick :: ticks).max? = some atTick := by
    rintro rfl
    rfl
  cases current with
  | retryWait a =>
    show (atTick :: ticks).max? = some (max a atTick)
    rw [List.max?_cons, show ticks.max? = some a from h]
    exact congrArg some (max_comm atTick a)
  | needsAction reason => exact trivial
  | failed reason => exact trivial
  | verifying => exact hfirst h
  | queued => exact hfirst h
  | paused => exact hfirst h

end StopTarget

/-- A command that neither retries nor brings a job back to its queue or out of it. -/
def JobCommand.settles : JobCommand → Bool
  | .start | .resume | .preempt | .retry _ | .retryDue _ | .replaceRepresentation => false
  | _ => true

/-- Of these, the ones that leave a running job in its session. -/
def JobCommand.goesOn : JobCommand → Bool
  | .workersDrained | .cleanupFinished | .publishCommitted | .verificationPassed => false
  | command => command.settles

namespace Job

variable {ticks : List ℕ} {j next : Job} {command : JobCommand}

theorem After.of_running (hstate : j.state = .probing ∨ j.state = .transferring) (h : j.After ticks) :
    ticks = [] := by
  unfold After at h
  rcases hstate with hs | hs
  · rwa [hs] at h
  · rwa [hs] at h

theorem After.of_stopping {target : StopTarget} (hstate : j.state = .stopping) (h : j.After ticks)
    (hstop : j.stop = some target) : target.After ticks := by
  unfold After at h
  rw [hstate] at h
  exact h target hstop

theorem after_stopping {target : StopTarget} (hstate : j.state = .stopping) (hstop : j.stop = some target)
    (h : target.After ticks) : j.After ticks := by
  unfold After
  rw [hstate]
  rintro target' hstop'
  rw [hstop] at hstop'
  cases hstop'
  exact h

/-- A stop that begins for another reason than a retry. -/
theorem after_beginStop {target : StopTarget} (hnil : ticks = [])
    (htarget : ∀ atTick, target ≠ .retryWait atTick) : target.After ticks := by
  cases target with
  | retryWait atTick => exact absurd rfl (htarget atTick)
  | needsAction reason => exact trivial
  | failed reason => exact trivial
  | _ => exact hnil

/-- **Landing**: what the stop was caused by, the job rests with. -/
theorem after_land {target : StopTarget} (h : target.After ticks) (j : Job) : (land j target).After ticks := by
  cases target with
  | verifying =>
    unfold land
    dsimp only
    split <;> exact trivial
  | retryWait atTick => exact ⟨atTick, rfl, h⟩
  | queued => exact h
  | paused => exact trivial
  | needsAction reason => exact trivial
  | failed reason => exact trivial

theorem After.drained (hstate : j.state = .stopping) (h : j.After ticks)
    (hexec : drained j = .ok (true, next)) : next.After ticks := by
  unfold Job.drained at hexec
  split at hexec
  · cases hexec
  split at hexec
  · cases hexec
  next target hstop =>
    have htarget := h.of_stopping hstate hstop
    split at hexec
    · split at hexec
      · cases hexec
      · cases hexec
        exact after_land htarget _
    · cases hexec
      exact after_land htarget _

theorem After.raised {cause : StopTarget} (hstate : j.state = .stopping) (h : j.After ticks)
    (hcause : Job.cause command = some cause) (hne : ∀ atTick, cause ≠ .retryWait atTick)
    (hexec : raised j command = .ok (true, next)) : next.After ticks := by
  unfold Job.raised at hexec
  rw [hcause] at hexec
  dsimp only at hexec
  split at hexec
  · cases hexec
  next current hstop =>
    split at hexec
    · cases hexec
    · cases hexec
      exact after_stopping rfl rfl ((h.of_stopping hstate hstop).raise hne)

/-- A job that stops, or goes on to stop, for a cause that is no retry. -/
theorem After.stop (h : j.After ticks) (cause : StopTarget) (hcause : Job.cause command = some cause)
    (hne : ∀ atTick, cause ≠ .retryWait atTick)
    (hstate : j.state = .probing ∨ j.state = .transferring ∨ j.state = .stopping)
    (hbegin : j.state = .probing ∨ j.state = .transferring → execute j command = beginStop j cause)
    (hraise : j.state = .stopping → execute j command = Job.raised j command)
    (hexec : execute j command = .ok (true, next)) : next.After ticks := by
  rw [← or_assoc] at hstate
  rcases hstate with hs | hs
  · rw [hbegin hs] at hexec
    cases hexec
    exact after_stopping rfl rfl (after_beginStop (h.of_running hs) hne)
  · rw [hraise hs] at hexec
    exact h.raised hs hcause hne hexec

theorem After.probed {total maxSegments : ℕ} {validator : Option Digest} (hnil : ticks = [])
    (hexec : probed j total maxSegments validator = .ok (true, next)) : next.After ticks := by
  unfold Job.probed at hexec
  split at hexec
  · cases hexec
  split at hexec
  · split at hexec
    · cases hexec
    · cases hexec
      exact hnil
  · split at hexec
    · cases hexec
    · cases hexec
      exact hnil

/-- **Any command that settles** keeps the job behind its ticks. -/
theorem After.execute (h : j.After ticks) (hcommand : command.settles = true)
    (hexec : execute j command = .ok (true, next)) : next.After ticks := by
  cases command with
  | start | resume | preempt | retry atTick | retryDue now | replaceRepresentation => cases hcommand
  | probeSucceeded total maxSegments validator =>
    cases hs : j.state <;> simp only [Job.execute, hs] at hexec
    case probing => exact .probed (h.of_running (Or.inl hs)) hexec
    all_goals cases hexec
  | pause =>
    cases hs : j.state
    case probing | transferring | stopping =>
      exact h.stop .paused rfl (by rintro _ ⟨⟩) (by simp [hs]) (by simp [Job.execute, hs])
        (by simp [Job.execute, hs]) hexec
    all_goals
      simp only [Job.execute, hs, Job.moved] at hexec
      cases hexec
    all_goals exact trivial
  | requireAction reason =>
    cases hs : j.state
    case probing | transferring | stopping =>
      exact h.stop (.needsAction reason) rfl (by rintro _ ⟨⟩) (by simp [hs]) (by simp [Job.execute, hs])
        (by simp [Job.execute, hs]) hexec
    all_goals
      simp only [Job.execute, hs, Job.moved] at hexec
      cases hexec
    all_goals exact trivial
  | fail reason =>
    cases hs : j.state
    case probing | transferring | stopping =>
      exact h.stop (.failed reason) rfl (by rintro _ ⟨⟩) (by simp [hs]) (by simp [Job.execute, hs])
        (by simp [Job.execute, hs]) hexec
    all_goals
      simp only [Job.execute, hs, Job.moved] at hexec
      cases hexec
    all_goals exact trivial
  | representationChanged =>
    cases hs : j.state <;> simp only [Job.execute, hs] at hexec
    case probing =>
      cases hexec
      exact after_stopping rfl rfl (after_beginStop (h.of_running (Or.inl hs)) (by rintro _ ⟨⟩))
    case transferring =>
      cases hexec
      exact after_stopping rfl rfl (after_beginStop (h.of_running (Or.inr hs)) (by rintro _ ⟨⟩))
    case stopping =>
      split at hexec
      · cases hexec
      split at hexec
      · cases hexec
      next current hstop =>
        cases hexec
        exact after_stopping rfl rfl ((h.of_stopping hs hstop).raise (by rintro _ ⟨⟩))
    all_goals cases hexec
  | allSegmentsDurable =>
    cases hs : j.state <;> simp only [Job.execute, hs] at hexec
    case transferring =>
      split at hexec
      · cases hexec
      · cases hexec
        exact after_stopping rfl rfl (after_beginStop (h.of_running (Or.inr hs)) (by rintro _ ⟨⟩))
    all_goals cases hexec
  | workersDrained =>
    cases hs : j.state <;> simp only [Job.execute, hs] at hexec
    case stopping => exact h.drained hs hexec
    all_goals cases hexec
  | cleanupFinished =>
    cases hs : j.state <;> simp only [Job.execute, hs] at hexec
    case cancelling =>
      split at hexec
      · cases hexec
      · cases hexec
        exact trivial
    all_goals cases hexec
  | cancel | verificationPassed | publishCommitted =>
    cases hs : j.state <;> simp only [Job.execute, hs, Job.moved] at hexec <;> cases hexec
    all_goals exact trivial

/-- **One more tick.** -/
theorem After.retry {atTick : ℕ} {changed : Bool} (h : j.After ticks)
    (hstate : j.state = .probing ∨ j.state = .transferring ∨ j.state = .stopping)
    (hexec : Job.execute j (.retry atTick) = .ok (changed, next)) : next.After (atTick :: ticks) := by
  rw [← or_assoc] at hstate
  rcases hstate with hs | hs
  · have hbegin : Job.execute j (.retry atTick) = Job.beginStop j (.retryWait atTick) := by
      rcases hs with hs | hs <;> simp only [Job.execute, hs]
    rw [hbegin] at hexec
    cases hexec
    have hnil := h.of_running hs
    exact after_stopping rfl rfl (by rw [hnil]; rfl)
  · have hraise : Job.execute j (.retry atTick) = Job.raised j (.retry atTick) := by
      simp only [Job.execute, hs]
    rw [hraise] at hexec
    unfold Job.raised at hexec
    dsimp only [Job.cause] at hexec
    split at hexec
    · cases hexec
    next current hstop =>
      have hraised := (h.of_stopping hs hstop).retry atTick
      split at hexec
      next hsame =>
        cases hexec
        rw [hsame] at hraised
        exact after_stopping hs hstop hraised
      · cases hexec
        exact after_stopping rfl rfl hraised

end Job

/-! ### Records that grow -/

section Records

variable {c : Coordinator} {attempts : UInt8} {l : List Called} {op : Port} {a : Answer op}

theorem failures_cons (h : drawn op a = none) : failures (⟨op, a⟩ :: l) = failures l := by
  rw [failures, h]

theorem drawn_of_plain (h : op.plain = true) : drawn op a = none := by
  cases op <;> first | rfl | cases h

theorem transitions_of_plain (h : op.plain = true) : transitions (⟨op, a⟩ :: l) = transitions l := by
  have hnone : handedOver op a = none := by
    cases op with
    | job op => cases op <;> first | rfl | cases h
    | _ => rfl
  exact List.filterMap_cons_none hnone

theorem ticks_of_plain (h : op.plain = true) : ticks c attempts (⟨op, a⟩ :: l) = ticks c attempts l := by
  rw [ticks, failures_cons (drawn_of_plain h), ticks]

/-- Every retry that was committed, or tried to be, is the answer to a failure. -/
def Issued (c : Coordinator) (attempts : UInt8) (l : List Called) : Prop :=
  ∀ event ∈ transitions l, ∀ atTick, event.command = .retry atTick →
    ∃ f ∈ failures l, commandFor c attempts f = .retry atTick

theorem Issued.of_plain (h : Issued c attempts l) (hop : op.plain = true) :
    Issued c attempts (⟨op, a⟩ :: l) := by
  unfold Issued
  rw [transitions_of_plain hop, failures_cons (drawn_of_plain hop)]
  exact h

theorem Issued.commit (h : Issued c attempts l) {event : JobEvent} {answer : Except CommitError Unit}
    (hevent : ∀ atTick, event.command = .retry atTick →
      ∃ f ∈ failures l, commandFor c attempts f = .retry atTick) :
    Issued c attempts (⟨.job (.commitTransition event), answer⟩ :: l) := by
  intro event' hmem
  rcases List.mem_cons.1 hmem with rfl | hmem
  · exact hevent
  · exact h event' hmem

/-- One more failure. -/
theorem Issued.draw (h : Issued c attempts l) (jitter : ℕ) :
    Issued c attempts (⟨.jitter, jitter⟩ :: l) := by
  intro event hmem atTick hcommand
  obtain ⟨f, hf, hfor⟩ := h event hmem atTick hcommand
  exact ⟨f, List.mem_cons_of_mem _ hf, hfor⟩

end Records

/-! ### What a session keeps -/

/-- **A session at work**: its job runs, under the attempts it was started with, and stops for what its
failures were answered with. -/
structure AtWork (c : Coordinator) (attempts : UInt8) (j : Job) (l : List Called) : Prop where
  state : j.state = .probing ∨ j.state = .transferring ∨ j.state = .stopping ∨ j.state = .cancelling
  attempted : Session.attempted j = attempts
  after : j.After (ticks c attempts l)
  issued : Issued c attempts l

/-- A session whose workers have ended. -/
structure Drained (c : Coordinator) (attempts : UInt8) (j : Job) (l : List Called) : Prop where
  after : j.After (ticks c attempts l)
  issued : Issued c attempts l

/-- What is left when a session ends with an error. -/
structure Waits (c : Coordinator) (attempts : UInt8) (j : Job) (l : List Called) : Prop where
  after : j.state = .retryWait → j.After (ticks c attempts l)
  issued : Issued c attempts l

section Kept

variable {c : Coordinator} {attempts : UInt8} {j next : Job} {l : List Called} {command : JobCommand}

theorem AtWork.waits (h : AtWork c attempts j l) : Waits c attempts j l where
  after _ := h.after
  issued := h.issued

theorem AtWork.drained (h : AtWork c attempts j l) : Drained c attempts j l := ⟨h.after, h.issued⟩

theorem Drained.waits (h : Drained c attempts j l) : Waits c attempts j l := ⟨fun _ ↦ h.after, h.issued⟩

theorem Job.After.congr {ticks : List ℕ} {j' : Job} (h : j.After ticks) (hstate : j'.state = j.state)
    (hstop : j'.stop = j.stop) (hretry : j'.retryAt = j.retryAt) : j'.After ticks := by
  unfold Job.After at h ⊢
  rwa [hstate, hstop, hretry]

theorem JobCommand.settles_of_goesOn (h : command.goesOn = true) : command.settles = true := by
  cases command <;> first | exact h | cases h

theorem Job.of_raised (h : Job.raised j command = .ok (true, next)) :
    next.state = .stopping ∧ next.attempts = j.attempts := by
  unfold Job.raised at h
  split at h
  · cases h
  split at h
  · cases h
  split at h
  · cases h
  · cases h
    exact ⟨rfl, rfl⟩

/-- A running job that goes on runs, under the same attempts. -/
theorem Job.execute_goesOn (hcommand : command.goesOn = true)
    (hstate : j.state = .probing ∨ j.state = .transferring ∨ j.state = .stopping ∨ j.state = .cancelling)
    (hexec : Job.execute j command = .ok (true, next)) :
    (next.state = .probing ∨ next.state = .transferring ∨ next.state = .stopping ∨
      next.state = .cancelling) ∧ next.attempts = j.attempts := by
  have hprobed : ∀ total maxSegments validator,
      Job.probed j total maxSegments validator = .ok (true, next) →
      next.state = .transferring ∧ next.attempts = j.attempts := by
    intro total maxSegments validator h
    unfold Job.probed at h
    split at h
    · cases h
    split at h
    · split at h
      · cases h
      · cases h
        exact ⟨rfl, rfl⟩
    · split at h
      · cases h
      · cases h
        exact ⟨rfl, rfl⟩
  have hstop : next.state = .stopping ∧ next.attempts = j.attempts → _ := fun h ↦
    (⟨Or.inr (Or.inr (Or.inl h.1)), h.2⟩ : (next.state = .probing ∨ next.state = .transferring ∨
      next.state = .stopping ∨ next.state = .cancelling) ∧ next.attempts = j.attempts)
  cases command with
  | start | resume | preempt | retry _ | retryDue _ | replaceRepresentation | workersDrained
  | cleanupFinished | publishCommitted | verificationPassed => cases hcommand
  | probeSucceeded total maxSegments validator =>
    rcases hstate with hs | hs | hs | hs <;> simp only [Job.execute, hs] at hexec
    · obtain ⟨hnext, hattempts⟩ := hprobed _ _ _ hexec
      exact ⟨Or.inr (Or.inl hnext), hattempts⟩
    all_goals cases hexec
  | pause | requireAction reason | fail reason =>
    rcases hstate with hs | hs | hs | hs <;> simp only [Job.execute, hs, Job.beginStop, Job.moved] at hexec
    · cases hexec
      exact hstop ⟨rfl, rfl⟩
    · cases hexec
      exact hstop ⟨rfl, rfl⟩
    · exact hstop (Job.of_raised hexec)
    · cases hexec
  | cancel =>
    rcases hstate with hs | hs | hs | hs <;> simp only [Job.execute, hs, Job.moved] at hexec <;>
      cases hexec
    all_goals exact ⟨Or.inr (Or.inr (Or.inr rfl)), rfl⟩
  | allSegmentsDurable =>
    rcases hstate with hs | hs | hs | hs <;> simp only [Job.execute, hs, Job.beginStop, Job.moved] at hexec
    case inr.inl =>
      split at hexec
      · cases hexec
      · cases hexec
        exact hstop ⟨rfl, rfl⟩
    all_goals cases hexec
  | representationChanged =>
    rcases hstate with hs | hs | hs | hs <;> simp only [Job.execute, hs, Job.beginStop, Job.moved] at hexec
    case inr.inr.inl =>
      split at hexec
      · cases hexec
      split at hexec
      · cases hexec
      · cases hexec
        exact hstop ⟨rfl, rfl⟩
    all_goals cases hexec
    all_goals exact hstop ⟨rfl, rfl⟩

theorem steady_atWork (c : Coordinator) (attempts : UInt8) :
    Steady (·.goesOn = true) (AtWork c attempts) (Waits c attempts) where
  excuse h := h.waits
  segments segments h := ⟨h.state, h.attempted, h.after, h.issued⟩
  call op a hop h := ⟨h.state, h.attempted, by rw [ticks_of_plain hop]; exact h.after, h.issued.of_plain hop⟩
  refused event error hc h := by
    refine ⟨fun _ ↦ h.after, h.issued.commit fun atTick hretry ↦ ?_⟩
    rw [hretry] at hc
    cases hc
  moved event hc hexec h version := by
    obtain ⟨hstate, hattempts⟩ := Job.execute_goesOn hc h.state hexec
    refine ⟨hstate, ?_, ?_, h.issued.commit fun atTick hretry ↦ ?_⟩
    · rw [← h.attempted]
      exact congrArg (fun n ↦ if n = 0 then 1 else n) hattempts
    · exact (h.after.execute (JobCommand.settles_of_goesOn hc) hexec).congr rfl rfl rfl
    · rw [hretry] at hc
      cases hc

end Kept

namespace Session

variable {c : Coordinator} {attempts : UInt8} {s : Session} {l : List Called}

theorem call_does (op : Port) : Does recorded (fun _ ↦ True) s l (call op)
    (fun a s' l' ↦ s' = s ∧ l' = ⟨op, a⟩ :: l) fun _ _ _ ↦ False := by
  rintro a l' rfl
  exact ⟨trivial, rfl, rfl⟩

theorem AtWork.call (h : AtWork c attempts s.job l) (op : Port) (a : Answer op) (hop : op.plain = true) :
    AtWork c attempts s.job (⟨op, a⟩ :: l) := (steady_atWork c attempts).call op a hop h

end Session

end Fhd
