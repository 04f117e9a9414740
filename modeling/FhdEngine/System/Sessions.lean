import FhdEngine.Persistence.StoreInvariant
import FhdEngine.Runtime.SessionOutcome

/-!
# Sessions over the repository

A session of `FhdEngine.Runtime.Session` whose repository is that of `FhdEngine.Persistence`. Here the
world is the database, the five repository calls are its transactions, and every other call is
answered as it likes.

While the repository succeeds, a session ends at rest unless an answer reaches it that it passes on
as an error before it has stopped the job (`Unhandled`). What the row of the job says and what the
job is in memory agree throughout.
-/

namespace Fhd

open Fallible
open Process (Environment Returns Ensures)

namespace Persistence

variable {s s' : Store} {event : JobEvent}

/-- What a transition has written fits a column. -/
theorem transition_bounds (h : transition s event = .ok s') :
    event.version ≤ i64Max ∧ event.outcome.generation.get ≤ i64Max := by
  unfold transition at h
  obtain ⟨id, hid, h⟩ := bind_eq_ok.1 h
  obtain ⟨row, hrow, h⟩ := bind_eq_ok.1 h
  obtain ⟨now, hnow, h⟩ := bind_eq_ok.1 h
  obtain ⟨version, hversion, h⟩ := bind_eq_ok.1 h
  obtain ⟨_, hcas, h⟩ := bind_eq_ok.1 h
  obtain ⟨from', hfrom, h⟩ := bind_eq_ok.1 h
  obtain ⟨_, hgen, h⟩ := bind_eq_ok.1 h
  obtain ⟨generation, hgeneration, h⟩ := bind_eq_ok.1 h
  obtain ⟨plan, hplan, h⟩ := bind_eq_ok.1 h
  obtain ⟨validator, hvalidator, h⟩ := bind_eq_ok.1 h
  obtain ⟨_, hsame, h⟩ := bind_eq_ok.1 h
  obtain ⟨durable, hdurable, h⟩ := bind_eq_ok.1 h
  obtain ⟨_, hbytes, h⟩ := bind_eq_ok.1 h
  obtain ⟨state, hstate, h⟩ := bind_eq_ok.1 h
  obtain ⟨_, hadmissible, h⟩ := bind_eq_ok.1 h
  obtain ⟨next, hnext, h⟩ := bind_eq_ok.1 h
  exact ⟨(stored_eq_ok.1 hnext).1, (stored_eq_ok.1 hgeneration).1⟩

/-- What the row of a job says is what the job in memory is. -/
def Mirrors (id : JobId) (job : Job) (s : Store) : Prop :=
  job.id = id ∧ Reads (s.states.lookup (id.get : ℤ)) (Header.of job)

/-- **A commit writes what applying it leads to.** -/
theorem Mirrors.transition {id : JobId} {job : Job} {command : JobCommand} (hm : Mirrors id job s)
    (hdecide : job.decide command = .ok [event]) (h : transition s event = .ok s') :
    Mirrors id (job.apply event).2 s' := by
  obtain ⟨rfl, hreads⟩ := hm
  obtain ⟨row, now, p, ds, st, ht⟩ := transition_eq_ok h
  obtain ⟨next, hexec, rfl, happly⟩ := Job.apply_decided hdecide
  have hstep := Job.execute_step hexec
  have hnow : now = ⟨job.state, job.generation.get, columns job.plan, job.validator⟩ := by
    have := ht.current
    rw [hreads.current] at this
    exact (Except.ok.inj this).symm
  have hplan := ht.plan
  rw [hnow] at hplan
  have hp : p = columns next.plan := plan_of_step hstep hplan
  have hst := ht.state
  rw [hp] at hst
  have hrow : s'.states.lookup (job.id.get : ℤ) = some st := by
    rw [ht.eq]
    exact AList.lookup_insert _
  rw [happly]
  refine ⟨hstep.identity.1, ?_⟩
  rw [hrow]
  exact (decodeState_encodeState hst).2

/-- The map may change under the row, but not its plan. -/
theorem Mirrors.segments {id : JobId} {job : Job} {m : SegmentMap} (hm : Mirrors id job s)
    (hplan : job.plan = some (m.total, m.maximum)) :
    Mirrors id { job with segments := some m } s := by
  refine ⟨hm.1, ?_⟩
  have hheader : Header.of { job with segments := some m } = Header.of job := by
    simp only [Header.of, hplan]
    rfl
  rw [hheader]
  exact hm.2

end Persistence

/-! ### The world of a session -/

open Persistence

/-- Whatever else happened in the database, the row of this job is the same. -/
def SameRow (id : JobId) (s s' : Store) : Prop :=
  s'.states.lookup (id.get : ℤ) = s.states.lookup (id.get : ℤ)

/-- **Every call on the repository succeeds**; everything else is answered in any way. -/
def Succeeds (id : JobId) (s : Store) : (op : Port) → Answer op → Store → Prop
  | .job (.commitTransition event), a, s' => a = (Except.ok () : Except CommitError Unit) ∧
    ∃ t, transition s event = .ok t ∧ SameRow id t s'
  | .commitExtents job generation extents, a, s' => a = (Except.ok () : Except CommitError Unit) ∧
    ∃ t, durable s job generation extents = .ok t ∧ SameRow id t s'
  | .recordPublishIntent intent, a, s' => a = (Except.ok () : Except CommitError Unit) ∧
    ∃ t, intendPublish s intent = .ok t ∧ SameRow id t s'
  | .durableExtents job, a, s' => (∃ extents, currentExtents s job = .ok extents ∧
    a = (Except.ok extents : Except AppError (List DurableExtent))) ∧ SameRow id s s'
  | .publishIntent job, a, s' => (∃ found, intent s job = .ok found ∧
    a = (Except.ok found : Except AppError (Option PublishIntent))) ∧ SameRow id s s'
  | _, _, s' => SameRow id s s'

/-- **Answers a session passes on as an error** without having stopped its job: a destination without a
directory or a path, a blocking call or a lane that does not run, a destination that cannot be looked
at, and a first probe that reports more bytes than the job may have. -/
def Unhandled (spec : JobSpec) (id : JobId) (s : Store) : (op : Port) → Answer op → Prop
  | .job (.partsFor _), a => (∃ error, a = (Except.error error : Except AppError Path)) ∧
    ∃ h, Reads (s.states.lookup (id.get : ℤ)) h ∧
      (h.state = .transferring ∨ h.state = .verifying ∨ h.state = .publishing)
  | .resolve _, a => ∃ error, a = (Except.error error : Except AppError Path)
  | .obtainPart _ _ _, a => a = (none : Blocking Unit)
  | .inspect _ _, a => a = (none : Blocking (Option Occupant)) ∨
    ∃ error, a = (some (Except.error error) : Blocking (Option Occupant))
  | .startWriter _, a => ∃ error, a = (Except.error error : Except WriterError Unit)
  | .awaitProbe _ controlOpen, a => ∃ probe,
    a = (ProbeEvent.probe (Except.ok probe) : ProbeEvent controlOpen) ∧
    spec.maxBytes < probe.total ∧
    ∃ h, Reads (s.states.lookup (id.get : ℤ)) h ∧ h.plan = none
  | _, _ => False

/-- The answers under which a session is to end at rest. -/
def Handled (spec : JobSpec) (id : JobId) : Environment Store Port Answer :=
  fun s op a s' ↦ Succeeds id s op a s' ∧ ¬Unhandled spec id s op a

/-- A call that is no commit leaves the row alone. -/
theorem Succeeds.sameRow {id : JobId} {s s' : Store} (op : Port) (a : Answer op)
    (hop : ∀ event, op ≠ .job (.commitTransition event)) (h : Succeeds id s op a s') :
    SameRow id s s' := by
  cases op with
  | job op =>
    cases op with
    | commitTransition event => exact absurd rfl (hop event)
    | _ => exact h
  | commitExtents job generation extents =>
    obtain ⟨-, t, ht, hsame⟩ := h
    obtain ⟨row, now, total, maximum, existing, fresh, hh⟩ := durable_eq_ok ht
    rw [SameRow, hsame, hh.eq]
  | recordPublishIntent intent =>
    obtain ⟨-, t, ht, hsame⟩ := h
    obtain ⟨now, maximum, -, -, -, -, heq⟩ := intendPublish_eq_ok ht
    rw [SameRow, hsame, heq]
  | durableExtents job => exact h.2
  | publishIntent job => exact h.2
  | _ => exact h

/-- **The repository as the ground of a session**, on which nothing is excused. -/
def repositoryGround (c : Coordinator) (hfits : c.config.Fits) (spec : JobSpec) (id : JobId) :
    Ground c spec Store where
  env := Handled spec id
  excused := fun _ ↦ False
  link := Mirrors id
  commit_error := fun h ↦ by cases h.1.1
  commit_ok := fun h ↦ by
    obtain ⟨⟨-, t, ht, -⟩, -⟩ := h
    exact Or.inr (transition_bounds ht)
  extents_error := fun h ↦ by cases h.1.1
  intent_error := fun h ↦ by cases h.1.1
  durable_error := fun h ↦ by
    obtain ⟨⟨⟨extents, -, heq⟩, -⟩, -⟩ := h
    cases heq
  previous_error := fun h ↦ by
    obtain ⟨⟨⟨found, -, heq⟩, -⟩, -⟩ := h
    cases heq
  resolve_error := fun h ↦ h.2 ⟨_, rfl⟩
  parts_error := fun hlink hstate h ↦ h.2 ⟨⟨_, rfl⟩, _, hlink.2, hstate⟩
  obtain_panic := fun h ↦ h.2 rfl
  inspect_panic := fun h ↦ h.2 (Or.inl rfl)
  inspect_error := fun h ↦ h.2 (Or.inr ⟨_, rfl⟩)
  start_error := fun h ↦ h.2 ⟨_, rfl⟩
  probe_ok := fun hlink hnone h ↦ by
    refine Or.inr (not_lt.1 fun hlt ↦ h.2 ⟨_, rfl, hlt, _, hlink.2, ?_⟩)
    rw [Header.of, Job.plan, hnone]
    rfl
  fits := Or.inr hfits
  calm := False
  quiet := False.elim
  link_commit := fun hlink hdecide h ↦ by
    obtain ⟨⟨-, t, ht, hsame⟩, -⟩ := h
    obtain ⟨hid, hreads⟩ := hlink.transition hdecide ht
    exact ⟨hid, by rwa [hsame]⟩
  link_call := fun op a hop h hlink ↦ ⟨hlink.1, by rw [Succeeds.sameRow op a hop h.1]; exact hlink.2⟩
  link_segments := fun _ hplan hlink ↦ hlink.segments hplan

/-! ### A session ends at rest -/

/-- The returned job and its row are at rest, and the result is no error of the session's own. -/
structure EndsAtRest (id : JobId) (r : Job × Except RunError SessionEnd) (s : Store) : Prop where
  job : r.1.removable = true
  row : Mirrors id r.1 s
  domain : ∀ error, r.2 ≠ .error (.domain error)
  invariant : r.2 ≠ .error .invariant
  storage : ∀ error, r.2 ≠ .error (.storage error)

/-- A job as a repository has it: its row, and columns of 64 bits. -/
structure Persisted (job : Job) (s : Store) : Prop where
  row : Mirrors job.id job s
  version : job.version ≤ i64Max
  generation : job.generation.get ≤ i64Max

open Session (Room cost) in
/-- **A session ends at rest** in every run whose answers it handles. -/
theorem endsAtRest_of_handled {c : Coordinator} {fuel : ℕ} {job : Job} {connections : ℕ}
    {origin : OriginId} {s s' : Store} {r : Job × Except RunError SessionEnd} (hinv : job.Inv)
    (hrow : Persisted job s)
    (hstate : job.state = .queued ∨ job.state = .verifying ∨ job.state = .publishing)
    (hconnections : job.state = .queued ∨ connections ≠ 0 ∧ connections ≤ c.config.connections)
    (hfits : c.config.Fits) (hroom : Room (cost fuel) job)
    (hrun : Returns (Handled job.spec job.id) s (c.runWith fuel job connections origin) r s') :
    EndsAtRest job.id r s' := by
  by_cases hvalid : connections ≠ 0 ∧ connections ≤ c.config.connections
  · have hensures := @Coordinator.runWith_ensures c job.spec Store
      (repositoryGround c hfits job.spec job.id) job connections origin s fuel hinv rfl (Or.inr ⟨hrow.version, hrow.generation⟩) hstate hvalid
      (Or.inr hroom) hrow.row
    obtain ⟨job', result⟩ := r
    obtain ⟨hid, hresult⟩ := hensures.returns hrun
    cases result with
    | ok ended => exact ⟨hresult.1.1.rests, hresult.2, nofun, nofun, nofun⟩
    | error e => exact hresult.elim
  · -- refused before anything was done, and a queued job rests
    have hqueued := hconnections.resolve_right hvalid
    rw [Coordinator.runWith, if_pos (by omega)] at hrun
    cases hrun
    exact ⟨by rw [Job.removable, hqueued], hrow.row, nofun, nofun, nofun⟩

/-- A destination, a source and one byte. -/
def Sample.spec : JobSpec :=
  ⟨⟨1, Nat.one_ne_zero⟩, ⟨1, Nat.one_ne_zero⟩, none, .normal, 1, Nat.one_ne_zero, one_le_i64Max⟩

/-- A job the user has just added, and the row it was admitted with. -/
def Sample.added : Job := Job.new ⟨1, Nat.one_ne_zero⟩ Sample.spec

def Sample.store : Store :=
  { Store.empty ⟨1, 1, Nat.zero_lt_one, by decide, Nat.zero_lt_one, by decide⟩ with
    jobs := (∅ : AList fun _ : ℤ ↦ JobsRow).insert 1 ⟨encodeSpec Sample.spec, 0⟩ }

/-- One connection, one segment, one attempt. -/
def Sample.coordinator : Coordinator where
  config :=
    ⟨1, 1, 1, 1, 1, Sample.retry, one_le_u64Max, one_le_u64Max⟩
  buffers := 1
  governed := false
  config_valid := by decide
  buffers_le := by decide

def Sample.origin : OriginId := ⟨Vector.replicate 16 0⟩

theorem Sample.persisted : Persisted Sample.added Sample.store := ⟨⟨rfl, rfl⟩, by decide, by decide⟩

/-- One way to answer: the repository works, and this is what ends the wait for the probe. -/
def Sample.serve (event : ProbeEvent true) (s : Store) : (op : Port) → Option (Answer op × Store)
  | .job (.commitTransition e) =>
    match transition s e with
    | .ok t => some ((Except.ok () : Except CommitError Unit), t)
    | .error _ => none
  | .awaitProbe _ true => some (event, s)
  | .tryRecv => some ((none : Option Control), s)
  | .abortWorkers => some ((), s)
  | _ => none

theorem Sample.succeeds_serve (event : ProbeEvent true) (id : JobId) (s : Store) (op : Port)
    (a : Answer op) (s' : Store) (h : Sample.serve event s op = some (a, s')) :
    Succeeds id s op a s' := by
  unfold Sample.serve at h
  split at h
  · split at h
    next t ht =>
      cases h
      exact ⟨rfl, _, ht, rfl⟩
    · cases h
  all_goals
    cases h
    try rfl

/-- A user who cancels instead of the probe is none of the unhandled answers. -/
theorem Sample.handled_serve (s : Store) (op : Port) (a : Answer op) (s' : Store)
    (h : Sample.serve (.control rfl (some .cancel)) s op = some (a, s')) :
    Handled Sample.spec Sample.added.id s op a s' := by
  refine ⟨Sample.succeeds_serve _ _ s op a s' h, ?_⟩
  unfold Sample.serve at h
  split at h
  · exact id
  · cases h
    rintro ⟨probe, heq, -⟩
    cases heq
  · exact id
  · exact id
  · cases h

/-- Started, cancelled while it waits for the probe, and cleaned up. -/
theorem endsAtRest_of_cancel : ∃ s', Returns (Handled Sample.spec Sample.added.id) Sample.store
      (Sample.coordinator.runWith 1 Sample.added 1 Sample.origin)
      ({ Sample.added with attempts := 1, state := .cancelled, version := 3 },
        .ok (.settled .cancelled)) s' ∧
    EndsAtRest Sample.added.id
      ({ Sample.added with attempts := 1, state := .cancelled, version := 3 },
        .ok (.settled .cancelled)) s' := by
  have hexec : ((Sample.coordinator.runWith 1 Sample.added 1 Sample.origin).exec
      (Sample.serve (.control rfl (some .cancel))) Sample.store).map Prod.fst =
      some ({ Sample.added with attempts := 1, state := .cancelled, version := 3 },
        .ok (.settled .cancelled)) := by decide +kernel
  obtain ⟨⟨r, s'⟩, hrun, rfl⟩ := Option.map_eq_some_iff.1 hexec
  have hreturns := Returns.of_exec Sample.handled_serve hrun
  exact ⟨s', hreturns, endsAtRest_of_handled (Job.inv_new _ _) Sample.persisted
    (Or.inl rfl) (Or.inl rfl) ⟨by decide, by decide⟩ ⟨by decide, nofun⟩ hreturns⟩

open Session (Room cost) in
/-- **A server that reports two bytes where one is allowed** leaves the job probing. -/
theorem not_endsAtRest : ¬∀ (c : Coordinator) (fuel : ℕ) (job : Job) (connections : ℕ)
    (origin : OriginId) (s s' : Store) (r : Job × Except RunError SessionEnd), job.Inv →
    Persisted job s → (job.state = .queued ∨ job.state = .verifying ∨ job.state = .publishing) →
    connections ≠ 0 ∧ connections ≤ c.config.connections → c.config.Fits → Room (cost fuel) job →
    Returns (Succeeds job.id) s (c.runWith fuel job connections origin) r s' →
    EndsAtRest job.id r s' := by
  intro h
  have hexec : ((Sample.coordinator.runWith 1 Sample.added 1 Sample.origin).exec
      (Sample.serve (.probe (.ok ⟨2, none⟩))) Sample.store).map Prod.fst =
      some ({ Sample.added with attempts := 1, state := .probing, version := 1 },
        .error (.domain .invalidInput)) := by decide +kernel
  obtain ⟨⟨r, s'⟩, hrun, rfl⟩ := Option.map_eq_some_iff.1 hexec
  have hrest := h Sample.coordinator 1 Sample.added 1 Sample.origin Sample.store s' _ (Job.inv_new _ _)
    Sample.persisted (Or.inl rfl) ⟨by decide, by decide⟩ ⟨by decide, by decide⟩
    ⟨by decide, nofun⟩ (Returns.of_exec (Sample.succeeds_serve _ _) hrun)
  exact absurd hrest.job (by decide)

end Fhd
