import FhdEngine.Domain.Job
import FhdEngine.Domain.SegmentHistory

/-!
# The reachable states of a job

Every arm of `execute` sets and clears correlated fields by hand, and segment operations run between
commands. `Job.Inv` collects what holds of a job throughout: which fields are present in which state,
when the map exists, and what its segments may look like. It is preserved by each shape of change
(`Step.inv`) and by every operation on the map (`Inv.segments`), hence by every interleaving of the two
(`Inv.run`).
-/

namespace Fhd

/-! ### Complete maps -/

/-- A map is complete when every byte of its plan is durable. -/
theorem SegmentMap.Inv.allDurable_iff {m : SegmentMap} (h : m.Inv) :
    m.allDurable = true ↔ ∀ p < m.total, m.DurableAt p := by
  rw [allDurable, List.all_eq_true]
  constructor
  · intro hall p hp
    obtain ⟨s, hs, hmem⟩ := h.tiles.exists_mem (Nat.zero_le p) hp
    exact ⟨s, hs, of_decide_eq_true (hall s hs), hmem⟩
  · intro hall s hs
    obtain ⟨-, hlt, hle⟩ := h.tiles.bounds hs
    obtain ⟨t, ht, hdur, hmem⟩ := hall s.range.start (hlt.trans_le hle)
    rw [h.tiles.eq_of_mem hs ht ⟨le_rfl, hlt⟩ hmem]
    exact decide_eq_true hdur

namespace Job

/-- The states in which workers, lanes and checkpoints may be active. -/
def isActive : JobState → Bool
  | .transferring | .stopping | .cancelling => true
  | _ => false

/-- The states in which the file is known to be complete. -/
def isComplete : JobState → Bool
  | .verifying | .publishing | .completed => true
  | _ => false

theorem isComplete_iff {s : JobState} :
    isComplete s = true ↔ s = .verifying ∨ s = .publishing ∨ s = .completed := by
  cases s <;> simp [isComplete]

/-- **The invariant of a reachable job.** -/
structure Inv (j : Job) : Prop where
  stop_iff : j.stop.isSome ↔ j.state = .stopping
  replace : j.replaceOnDrain = true → j.state = .stopping
  retryAt_iff : j.retryAt.isSome ↔ j.state = .retryWait
  reason : j.state = .needsAction ∨ j.state = .failed → j.reason.isSome
  planned : j.state = .transferring ∨ isComplete j.state → j.segments.isSome
  complete : isComplete j.state → ∀ m ∈ j.segments, ∀ p < m.total, m.DurableAt p
  inFlight : ∀ m ∈ j.segments, ∀ s ∈ m.segments, s.state.isInFlight → isActive j.state
  checkpoint : ∀ m ∈ j.segments, m.checkpoint.isSome → isActive j.state
  written : ∀ m ∈ j.segments, ∀ s ∈ m.segments, s.state.isWritten →
    isActive j.state ∨ j.state = .cancelled
  total_le : ∀ m ∈ j.segments, m.total ≤ j.spec.maxBytes
  validator : j.segments = none → j.validator = none
  generation : ∀ m ∈ j.segments, m.generation = j.generation
  job : ∀ m ∈ j.segments, m.job = j.id
  map : ∀ m ∈ j.segments, m.Inv

variable {j j' : Job} {command : JobCommand}

/-- A new job satisfies the invariant. -/
theorem inv_new (id : JobId) (spec : JobSpec) : (new id spec).Inv := by
  constructor <;> simp [new, isComplete, isActive]

/-! ### Reading the guards -/

theorem quiescent_iff : j.quiescent = true ↔ ∀ m ∈ j.segments,
    (∀ s ∈ m.segments, s.state.isInFlight = false) ∧ m.checkpoint = none := by
  cases hm : j.segments <;> simp [quiescent, hasActiveLeases, SegmentMap.hasPendingCheckpoint, hm]

theorem settled_iff (hreplace : j.replaceOnDrain = false) : j.settled = true ↔ j.quiescent = true ∧
    ∀ m ∈ j.segments, ∀ s ∈ m.segments, s.state.isWritten = false := by
  cases hm : j.segments <;> simp [settled, SegmentMap.hasUnsynced, hreplace, hm]

theorem allDurable_iff : j.allDurable = true ↔ ∃ m, j.segments = some m ∧ m.allDurable = true := by
  cases hm : j.segments <;> simp [allDurable, hm]

/-! ### Commands -/

/-- A job whose map is idle, or that has none, may be in any state that asks for nothing more. -/
theorem Inv.idle (hj : j.Inv) (hquiet : ∀ m ∈ j.segments,
      (∀ s ∈ m.segments, s.state.isInFlight = false ∧ s.state.isWritten = false) ∧
        m.checkpoint = none)
    (hstop : j'.stop.isSome ↔ j'.state = .stopping) (hreplace : j'.replaceOnDrain = false)
    (hretry : j'.retryAt.isSome ↔ j'.state = .retryWait)
    (hreason : j'.state = .needsAction ∨ j'.state = .failed → j'.reason.isSome)
    (hcomplete : isComplete j'.state → j.allDurable = true) (htrans : j'.state ≠ .transferring)
    (hsame : j'.segments = j.segments ∧ j'.validator = j.validator ∧ j'.generation = j.generation ∧
      j'.id = j.id ∧ j'.spec = j.spec) : j'.Inv := by
  obtain ⟨hseg, hval, hgen, hid, hspec⟩ := hsame
  refine ⟨hstop, by simp [hreplace], hretry, hreason, fun h ↦ ?_, fun h m hm p hp ↦ ?_, ?_, ?_, ?_,
    ?_, ?_, ?_, ?_, ?_⟩
  · obtain ⟨m, hm, -⟩ := allDurable_iff.1 (hcomplete (h.resolve_left htrans))
    rw [hseg, hm]
    rfl
  · obtain ⟨m', hm', hdur⟩ := allDurable_iff.1 (hcomplete h)
    rw [hseg] at hm
    obtain rfl : m' = m := Option.some.inj (hm'.symm.trans hm)
    exact (hj.map m' hm).allDurable_iff.1 hdur p hp
  · intro m hm s hs hin
    rw [hseg] at hm
    rw [((hquiet m hm).1 s hs).1] at hin
    cases hin
  · intro m hm hc
    rw [hseg] at hm
    rw [(hquiet m hm).2] at hc
    cases hc
  · intro m hm s hs hw
    rw [hseg] at hm
    rw [((hquiet m hm).1 s hs).2] at hw
    cases hw
  · rw [hseg, hspec]
    exact hj.total_le
  · rw [hseg, hval]
    exact hj.validator
  · rw [hseg, hgen]
    exact hj.generation
  · rw [hseg, hid]
    exact hj.job
  · rw [hseg]
    exact hj.map

/-- Outside the active states and `cancelled` the map is idle. -/
theorem Inv.quiet (hj : j.Inv) (hactive : isActive j.state = false) (hcancelled : j.state ≠ .cancelled) :
    ∀ m ∈ j.segments, (∀ s ∈ m.segments, s.state.isInFlight = false ∧ s.state.isWritten = false) ∧
      m.checkpoint = none := by
  refine fun m hm ↦ ⟨fun s hs ↦ ⟨?_, ?_⟩, ?_⟩
  · by_contra hin
    have := hj.inFlight m hm s hs (by simpa using hin)
    rw [hactive] at this
    cases this
  · by_contra hw
    rcases hj.written m hm s hs (by simpa using hw) with h | h
    · rw [hactive] at h
      cases h
    · exact hcancelled h
  · by_contra hc
    have := hj.checkpoint m hm (Option.isSome_iff_ne_none.2 hc)
    rw [hactive] at this
    cases this

/-- A drained job lands on a state whose own field is set, and on `verifying` only when complete. -/
theorem Inv.land (hj : j.Inv) (hquiet : ∀ m ∈ j.segments,
      (∀ s ∈ m.segments, s.state.isInFlight = false ∧ s.state.isWritten = false) ∧
        m.checkpoint = none)
    (hreplace : j'.replaceOnDrain = false) (hstop : j'.stop = none) (hretry : j'.retryAt = none)
    (hsame : j'.segments = j.segments ∧ j'.validator = j.validator ∧
      j'.generation = j.generation ∧ j'.id = j.id ∧ j'.spec = j.spec) (target : StopTarget) :
    (Job.land j' target).Inv := by
  have hdur : j'.allDurable = true → j.allDurable = true := by
    rw [allDurable_iff, allDurable_iff, hsame.1]
    exact fun h ↦ h
  cases target with
  | verifying =>
    by_cases hd : j'.allDurable = true
    · have hland : Job.land j' .verifying = { j' with state := .verifying } := if_pos hd
      rw [hland]
      refine hj.idle hquiet ?_ ?_ ?_ ?_ (fun _ ↦ hdur hd) ?_ hsame <;> simp [hstop, hreplace, hretry]
    · have hland : Job.land j' .verifying = { j' with state := .paused } := if_neg hd
      rw [hland]
      refine hj.idle hquiet ?_ ?_ ?_ ?_ ?_ ?_ hsame <;> simp [hstop, hreplace, hretry, isComplete]
  | _ =>
    refine hj.idle hquiet ?_ ?_ ?_ ?_ ?_ ?_ hsame <;>
      simp [Job.land, hstop, hreplace, hretry, isComplete]

/-- Landing sets the state and the field that belongs to it. -/
theorem land_eq (j : Job) (target : StopTarget) : ∃ state retryAt reason,
    land j target = { j with state := state, retryAt := retryAt, reason := reason } := by
  unfold land
  split
  · split <;> exact ⟨_, _, _, rfl⟩
  all_goals exact ⟨_, _, _, rfl⟩

/-- A job lands at rest, or is complete and goes on to be verified. -/
theorem land_cases (j : Job) (target : StopTarget) :
    j.allDurable = true ∧ target = .verifying ∧ land j target = { j with state := .verifying } ∨
      (land j target).removable = true ∧
        ((land j target).state = .retryWait → ∃ t, target = .retryWait t) ∧
        ((land j target).state = .queued → target = .queued) := by
  cases target with
  | verifying =>
    by_cases hd : j.allDurable = true
    · exact Or.inl ⟨hd, rfl, if_pos hd⟩
    · right
      rw [show land j .verifying = { j with state := .paused } from if_neg hd]
      exact ⟨rfl, nofun, nofun⟩
  | queued => exact Or.inr ⟨rfl, nofun, fun _ ↦ rfl⟩
  | retryWait t => exact Or.inr ⟨rfl, fun _ ↦ ⟨t, rfl⟩, nofun⟩
  | _ => exact Or.inr ⟨rfl, nofun, nofun⟩

/-- A job that lands paused was told to pause, or was to be verified without all of its bytes. -/
theorem land_forced {j : Job} {target : StopTarget} (hpaused : target ≠ .paused)
    (hwhole : target = .verifying → j.allDurable = true) :
    (land j target).state ≠ .paused ∧ (land j target).state ≠ .cancelled := by
  cases target with
  | verifying =>
    rw [land, if_pos (hwhole rfl)]
    exact ⟨nofun, nofun⟩
  | paused => exact absurd rfl hpaused
  | _ => exact ⟨nofun, nofun⟩

/-- A step keeps the identity of the job; the version is set by whoever applies it. -/
theorem Step.identity (h : Step j command j') :
    j'.id = j.id ∧ j'.spec = j.spec ∧ j'.version = j.version := by
  cases h with
  | @drained target _ _ _ _ =>
    obtain ⟨state, retryAt, reason, hland⟩ := land_eq { j with stop := none } target
    rw [hland]
    exact ⟨rfl, rfl, rfl⟩
  | @replacedOnDrain target next _ _ _ _ =>
    obtain ⟨state, retryAt, reason, hland⟩ := land_eq
      { j with
        stop := none, replaceOnDrain := false, generation := next, segments := none
        validator := none } target
    rw [hland]
    exact ⟨rfl, rfl, rfl⟩
  | _ => exact ⟨rfl, rfl, rfl⟩

/-- **Step lemma** for commands. -/
theorem Step.inv (h : Step j command j') (hj : j.Inv) : j'.Inv := by
  have hstop : j.state ≠ .stopping → j.stop = none := fun hs ↦ by
    have := mt hj.stop_iff.1 hs
    simpa using this
  have hreplace : j.state ≠ .stopping → j.replaceOnDrain = false := fun hs ↦ by
    have := mt hj.replace hs
    simpa using this
  have hretry : j.state ≠ .retryWait → j.retryAt = none := fun hs ↦ by
    have := mt hj.retryAt_iff.1 hs
    simpa using this
  cases h with
  | start hstate =>
    refine hj.idle (hj.quiet (by rw [hstate]; rfl) (by simp [hstate])) ?_ ?_ ?_ ?_ ?_ ?_
      ⟨rfl, rfl, rfl, rfl, rfl⟩ <;>
      simp [hstop, hreplace, hretry, hstate, isComplete]
  | probeKept hstate hle hm htotal hgen hvalidator =>
    have hquiet := hj.quiet (by rw [hstate]; rfl) (by simp [hstate])
    exact { hj with
      stop_iff := by simp [hstop, hstate]
      replace := by simp [hreplace, hstate]
      retryAt_iff := by simp [hretry, hstate]
      reason := by simp
      planned := fun _ ↦ by simp [hm]
      complete := by simp [isComplete]
      inFlight := fun _ _ _ _ _ ↦ rfl
      checkpoint := fun _ _ _ ↦ rfl
      written := fun _ _ _ _ _ ↦ Or.inl rfl }
  | @probeFresh total maxSegments validator m hstate hle hnone hnew =>
    obtain ⟨-, -, -, hm, -⟩ := SegmentMap.new_eq_ok hnew
    have hmem : ∀ {P : SegmentMap → Prop}, P m → ∀ m' ∈ some m, P m' := by
      rintro P hP m' hm'
      rwa [← Option.mem_some_iff.1 hm']
    exact {
      stop_iff := by simp [hstop, hstate]
      replace := by simp [hreplace, hstate]
      retryAt_iff := by simp [hretry, hstate]
      reason := by simp
      planned := fun _ ↦ rfl
      complete := by simp [isComplete]
      inFlight := fun _ _ _ _ _ ↦ rfl
      checkpoint := fun _ _ _ ↦ rfl
      written := fun _ _ _ _ _ ↦ Or.inl rfl
      total_le := hmem (by rw [hm]; exact hle)
      validator := by simp
      generation := hmem (by rw [hm])
      job := hmem (by rw [hm])
      map := hmem (SegmentMap.Inv.of_new hnew) }
  | stop target replace hstate hcommand =>
    have hs : j.state ≠ .retryWait := by rcases hstate with h | h <;> simp [h]
    exact { hj with
      stop_iff := by simp
      replace := by simp
      retryAt_iff := by simp [hretry hs]
      reason := by simp
      planned := by simp [isComplete]
      complete := by simp [isComplete]
      inFlight := fun _ _ _ _ _ ↦ rfl
      checkpoint := fun _ _ _ ↦ rfl
      written := fun _ _ _ _ _ ↦ Or.inl rfl }
  | retarget target replace attempts hstate hreplace' hcommand =>
    exact { hj with
      stop_iff := by simp [hstate]
      replace := by simp [hstate] }
  | drained hstate hstop' hsettled hreplace' =>
    obtain ⟨hq, hw⟩ := (settled_iff hreplace').1 hsettled
    refine hj.land (fun m hm ↦ ?_) ?_ ?_ ?_ ?_ _
    · obtain ⟨hin, hc⟩ := quiescent_iff.1 hq m hm
      exact ⟨fun s hs ↦ ⟨hin s hs, hw m hm s hs⟩, hc⟩
    · exact hreplace'
    · rfl
    · exact hretry (by simp [hstate])
    · exact ⟨rfl, rfl, rfl, rfl, rfl⟩
  | @replacedOnDrain target next hstate hstop' hreplace' hnext =>
    have hbare : Inv { j with
        state := .queued, stop := none, replaceOnDrain := false, generation := next
        segments := none, validator := none, reason := none } := by
      constructor <;> simp [hretry, hstate, isComplete]
    refine hbare.land (by simp) ?_ ?_ ?_ ?_ target
    · rfl
    · rfl
    · exact hretry (by simp [hstate])
    · exact ⟨rfl, rfl, rfl, rfl, rfl⟩
  | park attempts hfrom hstate hcommand =>
    have hs : j.state ≠ .stopping ∧ isActive j.state = false ∧ j.state ≠ .cancelled := by
      revert hfrom
      cases j.state <;> simp [parked, isActive]
    have hcomplete : isComplete j.state = true → j.allDurable = true := by
      intro hc
      obtain ⟨m, hm⟩ := Option.isSome_iff_exists.1 (hj.planned (Or.inr hc))
      exact allDurable_iff.2 ⟨m, hm, (hj.map m hm).allDurable_iff.2 (hj.complete hc m hm)⟩
    have hnone : (if j.state = .retryWait then none else j.retryAt) = none := by
      split
      · rfl
      next h => exact hretry h
    refine hj.idle (hj.quiet hs.2.1 hs.2.2) ?_ ?_ ?_ ?_ ?_ ?_ ⟨rfl, rfl, rfl, rfl, rfl⟩
    · cases hstate <;> simp [hstop hs.1]
    · exact hreplace hs.1
    · dsimp only
      rw [hnone]
      cases hstate <;> simp
    · cases hstate <;> simp_all
    · intro hc
      cases hstate with
      | verifying hd => exact hd
      | publishing hf hcmd => exact hcomplete (by rw [hf]; rfl)
      | completed hf hcmd => exact hcomplete (by rw [hf]; rfl)
      | _ => cases hc
    · cases hstate <;> simp
  | cancel hfrom hpublishing =>
    exact { hj with
      stop_iff := by simp
      replace := by simp
      retryAt_iff := by simp
      reason := by simp
      planned := by simp [isComplete]
      complete := by simp [isComplete]
      inFlight := fun _ _ _ _ _ ↦ rfl
      checkpoint := fun _ _ _ ↦ rfl
      written := fun _ _ _ _ _ ↦ Or.inl rfl }
  | cleaned hstate hquiescent =>
    have hq := quiescent_iff.1 hquiescent
    exact { hj with
      stop_iff := by simp [hstop, hstate]
      replace := by simp [hreplace, hstate]
      retryAt_iff := by simp [hretry, hstate]
      reason := by simp
      planned := by simp [isComplete]
      complete := by simp [isComplete]
      inFlight := fun m hm s hs hin ↦ by
        rw [(hq m hm).1 s hs] at hin
        cases hin
      checkpoint := fun m hm hc ↦ by
        rw [(hq m hm).2] at hc
        cases hc
      written := fun _ _ _ _ _ ↦ Or.inr rfl }
  | replaced hfrom hnext =>
    have hs : j.state ≠ .stopping := by rcases hfrom with h | h | h <;> simp [h]
    constructor <;> simp [hstop hs, hreplace hs, isComplete]

/-! ### Applying events -/

/-- What a decided event is. -/
theorem decide_eq_ok {events : List JobEvent} (h : j.decide command = .ok events) {event : JobEvent}
    (he : event ∈ events) : ∃ next, execute j command = .ok (true, next) ∧ j.version + 1 ≤ u64Max ∧
      event = ⟨j.id, j.version + 1, j.state, next.state, j.generation, command, next.projection⟩ := by
  unfold decide at h
  split at h
  · cases h
  · cases h
    cases he
  next next hexec =>
    split at h
    · cases h
    next version hversion =>
      cases h
      obtain ⟨hle, rfl⟩ := checkedAdd_eq_some.1 hversion
      exact ⟨next, hexec, hle, List.mem_singleton.1 he⟩

/-- What `apply` accepts: the event continues this version of the job, and replaying its command
yields exactly the outcome it carries. -/
theorem apply_cases (j : Job) (event : JobEvent) :
    (∃ e, j.apply event = (.error e, j)) ∨
      ∃ next, event.job = j.id ∧ event.fromState = j.state ∧ event.generation = j.generation ∧
        checkedAdd j.version 1 = some event.version ∧ execute j event.command = .ok (true, next) ∧
        next.state = event.toState ∧ next.projection = event.outcome ∧
        j.apply event = (.ok (), { next with version := event.version }) := by
  unfold apply
  split
  · exact Or.inl ⟨_, rfl⟩
  next hscope =>
    simp only [not_or, not_not] at hscope
    split
    · exact Or.inl ⟨_, rfl⟩
    next changed next hexec =>
      split
      · exact Or.inl ⟨_, rfl⟩
      next hmatch =>
        simp only [not_or, not_not] at hmatch
        obtain ⟨rfl, hto, hout⟩ := hmatch
        exact Or.inr ⟨next, hscope.1, hscope.2.1, hscope.2.2.1, hscope.2.2.2, hexec, hto, hout, rfl⟩

/-- The version plays no part in the invariant. -/
theorem Inv.setVersion (hj : j.Inv) (version : ℕ) : Inv { j with version := version } :=
  { hj with }

theorem Inv.apply (hj : j.Inv) (event : JobEvent) : (j.apply event).2.Inv := by
  rcases j.apply_cases event with ⟨e, he⟩ | ⟨next, -, -, -, -, hexec, -, -, h⟩
  · rw [he]
    exact hj
  · rw [h]
    exact ((execute_step hexec).inv hj).setVersion _

theorem Inv.applyAll (hj : j.Inv) (events : List JobEvent) : (j.applyAll events).2.Inv := by
  induction events generalizing j with
  | nil => exact hj
  | cons event events ih =>
    have happly := hj.apply event
    unfold Job.applyAll
    split
    next h =>
      rw [h] at happly
      exact happly
    next h =>
      rw [h] at happly
      exact ih happly

theorem Inv.handle (hj : j.Inv) (command : JobCommand) : (j.handle command).2.Inv := by
  unfold Job.handle
  split
  · exact hj
  next events _ =>
    have happly := hj.applyAll events
    split
    next h =>
      rw [h] at happly
      exact happly
    next h =>
      rw [h] at happly
      exact happly

/-! ### Segment operations -/

/-- The map stays within its job, generation and plan. -/
def SameScope (m m' : SegmentMap) : Prop :=
  m'.job = m.job ∧ m'.generation = m.generation ∧ m'.total = m.total ∧ m'.maximum = m.maximum

theorem sameScope_perform {m : SegmentMap} (hm : m.Inv) {op : SegmentMap.Op}
    (hop : ∀ total, op ≠ .replaceGeneration total) : SameScope m (m.perform op).2 := by
  rcases SegmentMap.perform_cases hm.ids_nodup op with ⟨e, he⟩ | ⟨r, m', hm', hch⟩
  · rw [he]
    exact ⟨rfl, rfl, rfl, rfl⟩
  · rw [hm']
    exact hch.same hop

/-- What an operation on the map leaves of the job: nothing else changes, and the map is the one some
call of the map produced. -/
theorem onMap_cases {α : Type*} (j : Job) (f : SegmentMap → Except DomainError α × SegmentMap) :
    (∃ e, j.onMap f = (.error e, j)) ∨
      ∃ m, isActive j.state ∧ j.segments = some m ∧
        j.onMap f = ((f m).1, { j with segments := some (f m).2 }) := by
  unfold onMap
  split
  · exact Or.inl ⟨_, rfl⟩
  next hstate =>
    split
    · exact Or.inl ⟨_, rfl⟩
    next m hm =>
      refine Or.inr ⟨m, ?_, hm, rfl⟩
      rcases not_not.1 hstate with h | h | h <;> rw [h] <;> rfl

/-- A call on a job: a command handled or an event applied, or an operation on its segments. -/
inductive Op
  | handle (command : JobCommand)
  | apply (event : JobEvent)
  | leaseSegment (id : SegmentId) (worker : ℕ)
  | splitPending (id : SegmentId) (at' : ℕ)
  | markWritten (lease : Lease)
  | release (lease : Lease)
  | abandonCheckpoint
  | discardUnsynced
  | prepareSync
  | acknowledgeSync (ticket : SyncTicket)
  | acknowledgeCommit (batch : CommitBatch)

/-- The job after a call, accepted or refused. -/
def perform (j : Job) : Op → Job
  | .handle command => (j.handle command).2
  | .apply event => (j.apply event).2
  | .leaseSegment id worker => (j.leaseSegment id worker).2
  | .splitPending id at' => (j.splitPending id at').2
  | .markWritten lease => (j.markWritten lease).2
  | .release lease => (j.release lease).2
  | .abandonCheckpoint => j.abandonCheckpoint.2
  | .discardUnsynced => j.discardUnsynced.2
  | .prepareSync => j.prepareSync.2
  | .acknowledgeSync ticket => (j.acknowledgeSync ticket).2
  | .acknowledgeCommit batch => (j.acknowledgeCommit batch).2

/-- The job after a sequence of calls. -/
def run (j : Job) (ops : List Op) : Job := ops.foldl perform j

/-- The answer to a call. -/
def answer (j : Job) : Op → Except DomainError SegmentMap.Reply
  | .handle command => (j.handle command).1.map fun _ ↦ .done
  | .apply event => (j.apply event).1.map fun _ ↦ .done
  | .leaseSegment id worker => (j.leaseSegment id worker).1.map .lease
  | .splitPending id at' => (j.splitPending id at').1.map .segment
  | .markWritten lease => (j.markWritten lease).1.map fun _ ↦ .done
  | .release lease => (j.release lease).1.map fun _ ↦ .done
  | .abandonCheckpoint => j.abandonCheckpoint.1.map fun _ ↦ .done
  | .discardUnsynced => j.discardUnsynced.1.map fun _ ↦ .done
  | .prepareSync => j.prepareSync.1.map .ticket
  | .acknowledgeSync ticket => (j.acknowledgeSync ticket).1.map .batch
  | .acknowledgeCommit batch => (j.acknowledgeCommit batch).1.map fun _ ↦ .done

/-- The operation on the map behind a call on the job. -/
def Op.onSegments : Op → Option SegmentMap.Op
  | .handle _ | .apply _ => none
  | .leaseSegment id worker => some (.lease id worker)
  | .splitPending id at' => some (.splitPending id at')
  | .markWritten lease => some (.markWritten lease)
  | .release lease => some (.release lease)
  | .abandonCheckpoint => some .discardCheckpoint
  | .discardUnsynced => some .discardUnsynced
  | .prepareSync => some .prepareSync
  | .acknowledgeSync ticket => some (.acknowledgeSync ticket)
  | .acknowledgeCommit batch => some (.acknowledgeCommit batch)

theorem Op.onSegments_ne {op : Op} {mapOp : SegmentMap.Op} (h : op.onSegments = some mapOp)
    (total : ℕ) : mapOp ≠ .replaceGeneration total := by
  rintro rfl
  cases op <;> cases h

/-- **What a call on the segments does**: it is refused, or it is the operation on the map of an
active job, and nothing else changes. -/
theorem perform_segments (j : Job) {op : Op} {mapOp : SegmentMap.Op}
    (h : op.onSegments = some mapOp) : (∃ e, j.answer op = .error e ∧ j.perform op = j) ∨
      ∃ m, isActive j.state ∧ j.segments = some m ∧ j.answer op = (m.perform mapOp).1 ∧
        j.perform op = { j with segments := some (m.perform mapOp).2 } := by
  have key : ∀ {α : Type} {f : SegmentMap → Except DomainError α × SegmentMap}
      {g : α → SegmentMap.Reply}, (∀ m, m.perform mapOp = SegmentMap.reply g (f m)) →
      j.answer op = (j.onMap f).1.map g → j.perform op = (j.onMap f).2 →
      (∃ e, j.answer op = .error e ∧ j.perform op = j) ∨
        ∃ m, isActive j.state ∧ j.segments = some m ∧ j.answer op = (m.perform mapOp).1 ∧
          j.perform op = { j with segments := some (m.perform mapOp).2 } := by
    intro α f g hf hanswer hperform
    rcases j.onMap_cases f with ⟨e, he⟩ | ⟨m, hactive, hm, he⟩
    · rw [he] at hanswer hperform
      exact Or.inl ⟨e, hanswer, hperform⟩
    · rw [he] at hanswer hperform
      refine Or.inr ⟨m, hactive, hm, ?_, ?_⟩
      · rw [hanswer, hf]
        rfl
      · rw [hperform, hf]
        rfl
  cases op with
  | handle command => cases h
  | apply event => cases h
  | leaseSegment id worker =>
    cases h
    by_cases hstate : j.state ≠ .transferring
    · exact Or.inl ⟨.invalidTransition, by rw [answer, leaseSegment, if_pos hstate]; rfl,
        by rw [perform, leaseSegment, if_pos hstate]⟩
    · refine key (f := fun m ↦ m.lease id worker) (fun _ ↦ rfl) ?_ ?_
      · rw [answer, leaseSegment, if_neg hstate]
      · rw [perform, leaseSegment, if_neg hstate]
  | splitPending id at' =>
    cases h
    by_cases hstate : j.state ≠ .transferring
    · exact Or.inl ⟨.invalidTransition, by rw [answer, Job.splitPending, if_pos hstate]; rfl,
        by rw [perform, Job.splitPending, if_pos hstate]⟩
    · refine key (f := fun m ↦ m.splitPending id at') (fun _ ↦ rfl) ?_ ?_
      · rw [answer, Job.splitPending, if_neg hstate]
      · rw [perform, Job.splitPending, if_neg hstate]
  | discardUnsynced =>
    cases h
    by_cases hstate : j.state ≠ .stopping
    · exact Or.inl ⟨.invalidTransition, by rw [answer, Job.discardUnsynced, if_pos hstate]; rfl,
        by rw [perform, Job.discardUnsynced, if_pos hstate]⟩
    · refine key (f := SegmentMap.discardUnsynced) (fun _ ↦ rfl) ?_ ?_
      · rw [answer, Job.discardUnsynced, if_neg hstate]
      · rw [perform, Job.discardUnsynced, if_neg hstate]
  | markWritten lease => cases h; exact key (fun _ ↦ rfl) rfl rfl
  | release lease => cases h; exact key (fun _ ↦ rfl) rfl rfl
  | abandonCheckpoint => cases h; exact key (fun _ ↦ rfl) rfl rfl
  | prepareSync => cases h; exact key (fun _ ↦ rfl) rfl rfl
  | acknowledgeSync ticket => cases h; exact key (fun _ ↦ rfl) rfl rfl
  | acknowledgeCommit batch => cases h; exact key (fun _ ↦ rfl) rfl rfl

/-- **Step lemma** for segment operations. -/
theorem Inv.segments (hj : j.Inv) {op : Op} {mapOp : SegmentMap.Op}
    (h : op.onSegments = some mapOp) : (j.perform op).Inv := by
  rcases j.perform_segments h with ⟨e, -, he⟩ | ⟨m, hactive, hm, -, hperform⟩
  · rw [he]
    exact hj
  rw [hperform]
  have hinv := (m.keeps_perform mapOp).inv (hj.map m hm)
  obtain ⟨hjob, hgen, htotal, -⟩ := sameScope_perform (hj.map m hm) (Op.onSegments_ne h)
  have hmem : ∀ {P : SegmentMap → Prop}, P (m.perform mapOp).2 →
      ∀ m' ∈ some (m.perform mapOp).2, P m' := by
    rintro P hP m' hm'
    rwa [← Option.mem_some_iff.1 hm']
  have hincomplete : isComplete j.state = false := by
    revert hactive
    cases j.state <;> simp [isActive, isComplete]
  exact { hj with
    planned := fun _ ↦ rfl
    complete := by simp [hincomplete]
    inFlight := fun _ _ _ _ _ ↦ hactive
    checkpoint := fun _ _ _ ↦ hactive
    written := fun _ _ _ _ _ ↦ Or.inl hactive
    total_le := hmem (by rw [htotal]; exact hj.total_le m hm)
    validator := by simp
    generation := hmem (by rw [hgen]; exact hj.generation m hm)
    job := hmem (by rw [hjob]; exact hj.job m hm)
    map := hmem hinv }

/-- **Step lemma**: every call keeps the invariant. -/
theorem Inv.perform (hj : j.Inv) (op : Op) : (j.perform op).Inv := by
  rcases h : op.onSegments with - | mapOp
  · cases op with
    | handle command => exact hj.handle command
    | apply event => exact hj.apply event
    | _ => cases h
  · exact hj.segments h

/-- **Run lemma**: the invariant survives every interleaving of calls. -/
theorem Inv.run (hj : j.Inv) (ops : List Op) : (j.run ops).Inv := by
  induction ops generalizing j with
  | nil => exact hj
  | cons op ops ih => exact ih (hj.perform op)

/-- **Every reachable job satisfies the invariant.** -/
theorem inv_run_new (id : JobId) (spec : JobSpec) (ops : List Op) : ((new id spec).run ops).Inv :=
  (inv_new id spec).run ops

end Job

end Fhd
