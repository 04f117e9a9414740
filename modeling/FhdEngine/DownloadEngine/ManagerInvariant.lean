import FhdEngine.DownloadEngine.Manager
import FhdEngine.DownloadEngine.QueueChecks

/-!
# The invariant of the manager

Three parts, each about what it names. `Queueing` is about the jobs and the queue, for given identities that
have a worker; `Working` is about the workers; `Ledger` is about the receipts. A job that has just been prepared
for a worker counts as having one until the save that precedes the worker has come out.

Every change of the jobs is a map that keeps the identities, so one rule (`Queueing.map`) carries them all; what
is left for each part of a turn is what it does to one job (`Fits`).
-/

namespace Fhd.DownloadEngine

open Table

variable {Url UrlOrigin PathBuf : Type}

/-- Whether a job has been started since it was last resumed. -/
def Note.ran (id : JobId) : Note PathBuf → Bool → Bool
  | .started _ id', before => decide (id' = id) || before
  | .resumed id', before => !decide (id' = id) && before
  | _, before => before

def ranSinceResume (log : List (Note PathBuf)) (id : JobId) : Bool := log.foldl (fun b n ↦ n.ran id b) false

theorem ranSinceResume_append (log log' : List (Note PathBuf)) (id : JobId) :
    ranSinceResume (log ++ log') id = log'.foldl (fun b n ↦ n.ran id b) (ranSinceResume log id) := List.foldl_append

/-- What holds of one job, by whether it is in the queue, has a worker, and has run since it was resumed. -/
structure Fits (maxAttempts : UInt8) (queued owned ran : Prop) (job : Job PathBuf) : Prop where
  waits : job.state = .queued → queued
  outside : job.state.active ∨ job.state = .retryWaiting → ¬queued
  works : job.state.active = true ↔ owned
  again : job.state = .queued ∨ job.state = .retryWaiting → job.attempts < maxAttempts
  attempts : job.state.active = true ∨ ran → job.attempts ≤ maxAttempts
  replies : job.pauseReply.isSome → job.state = .pausing

theorem Fits.stop {m : UInt8} {q o r : Prop} {job : Job PathBuf} (h : Fits m q o r job) :
    Fits m q o r job.stop := by
  obtain ⟨waits, outside, works, again, attempts, replies⟩ := h
  unfold Job.stop
  split <;> constructor <;> simp_all [State.active]

namespace Actor

/-- The identities that have a worker. -/
def owned (s : Actor PathBuf) : List JobId := s.owners.map Prod.snd

structure Queueing (s : Actor PathBuf) (owned : List JobId) : Prop where
  ids : (keys s.jobs).Nodup
  queue_nodup : s.queue.Nodup
  queue_jobs : s.queue ⊆ keys s.jobs
  owned_jobs : owned ⊆ keys s.jobs
  fits : ∀ e ∈ s.jobs,
    Fits s.config.retry.maxAttempts (e.1 ∈ s.queue) (e.1 ∈ owned) (ranSinceResume s.log e.1) e.2
  perOrigin : ∀ origin, s.jobs.countP (activeAt origin) ≤ s.config.maxPerOrigin
  positive : 0 < s.config.retry.maxAttempts

structure Working (s : Actor PathBuf) : Prop where
  workers : s.workers = keys s.owners
  tasks : (keys s.owners).Nodup
  tasks_lt : ∀ task ∈ keys s.owners, task < s.nextTask
  owned_nodup : s.owned.Nodup
  maxActive : s.workers.length ≤ s.config.maxActive

structure Inv (s : Actor PathBuf) : Prop where
  queueing : s.Queueing s.owned
  working : s.Working
  ledger : Ledger (keys s.jobs) s.receipts
  jobs_le : ∀ id ∈ keys s.jobs, id.value ≤ s.lastId
  receipts_le : ∀ receipt ∈ s.receipts, receipt.jobId.value ≤ s.lastId

/-! ### Changing jobs -/

variable {s s' : Actor PathBuf} {owned owned' : List JobId}

/-- The limits that never change. -/
structure SameLimits (s s' : Actor PathBuf) : Prop where
  maxActive : s'.config.maxActive = s.config.maxActive
  maxPerOrigin : s'.config.maxPerOrigin = s.config.maxPerOrigin
  maxAttempts : s'.config.retry.maxAttempts = s.config.retry.maxAttempts

theorem SameLimits.refl (s : Actor PathBuf) : s.SameLimits s := ⟨rfl, rfl, rfl⟩

theorem countP_map_le {α : Type} {p : α → Bool} {g : α → α} {l : List α} (h : ∀ e ∈ l, p (g e) → p e) :
    (l.map g).countP p ≤ l.countP p := by
  rw [List.countP_map]
  exact List.countP_mono_left fun e he hp ↦ h e he hp

/-- **Any change of the jobs that keeps their identities.** -/
theorem Queueing.map (h : s.Queueing owned) {g : JobId × Job PathBuf → JobId × Job PathBuf}
    (hjobs : s'.jobs = s.jobs.map g) (hkeys : ∀ e ∈ s.jobs, (g e).1 = e.1) (hlimits : s.SameLimits s')
    (hqueue : s'.queue.Nodup) (hsub : s'.queue ⊆ keys s.jobs) (howned : owned' ⊆ keys s.jobs)
    (hactive : ∀ origin, s'.jobs.countP (activeAt origin) ≤ s.config.maxPerOrigin)
    (hfits : ∀ e ∈ s.jobs,
      Fits s.config.retry.maxAttempts (e.1 ∈ s.queue) (e.1 ∈ owned) (ranSinceResume s.log e.1) e.2 →
      Fits s.config.retry.maxAttempts (e.1 ∈ s'.queue) (e.1 ∈ owned') (ranSinceResume s'.log e.1) (g e).2) :
    s'.Queueing owned' := by
  have hids : keys s'.jobs = keys s.jobs := by rw [hjobs, keys_map hkeys]
  refine ⟨hids ▸ h.ids, hqueue, hids ▸ hsub, hids ▸ howned, ?_, ?_, hlimits.maxAttempts ▸ h.positive⟩
  · rw [hjobs, hlimits.maxAttempts]
    intro e' he'
    obtain ⟨e, he, rfl⟩ := List.mem_map.1 he'
    rw [hkeys e he]
    exact hfits e he (h.fits e he)
  · intro origin
    rw [hlimits.maxPerOrigin]
    exact hactive origin

/-- **Any change of one job.** -/
theorem Queueing.adjust (h : s.Queueing owned) {id : JobId} {job : Job PathBuf} {f : Job PathBuf → Job PathBuf}
    (hmem : (id, job) ∈ s.jobs) (hjobs : s'.jobs = adjust id f s.jobs) (hlimits : s.SameLimits s')
    (hqueue : s'.queue.Nodup) (hothers : ∀ x ≠ id, (x ∈ s'.queue ↔ x ∈ s.queue))
    (howned : ∀ x ≠ id, (x ∈ owned' ↔ x ∈ owned))
    (hran : ∀ x ≠ id, ranSinceResume s'.log x = ranSinceResume s.log x)
    (hactive : ∀ origin, (Table.adjust id f s.jobs).countP (activeAt origin) ≤ s.config.maxPerOrigin)
    (hfits : Fits s.config.retry.maxAttempts (id ∈ s.queue) (id ∈ owned) (ranSinceResume s.log id) job →
      Fits s.config.retry.maxAttempts (id ∈ s'.queue) (id ∈ owned') (ranSinceResume s'.log id) (f job)) :
    s'.Queueing owned' := by
  have hkeys : ∀ {ids ids' : List JobId}, (∀ x ≠ id, (x ∈ ids' ↔ x ∈ ids)) → ids ⊆ keys s.jobs →
      ids' ⊆ keys s.jobs := fun hsame hsub x hx ↦ by
    by_cases hid : x = id
    · exact hid ▸ mem_keys_of_mem hmem
    · exact hsub ((hsame x hid).1 hx)
  refine h.map (hjobs.trans (adjust_eq_map h.ids)) (fun e _ ↦ by split <;> rfl) hlimits hqueue
    (hkeys hothers h.queue_jobs) (hkeys howned h.owned_jobs) (hjobs ▸ hactive) fun e he hold ↦ ?_
  by_cases hid : e.1 = id
  · obtain ⟨id', job'⟩ := e
    obtain rfl : id' = id := hid
    obtain rfl : job' = job := eq_of_mem h.ids he hmem
    rw [if_pos rfl]
    exact hfits hold
  · rw [if_neg hid, hothers e.1 hid, howned e.1 hid, hran e.1 hid]
    exact hold

/-- A change that gives a job no worker leaves the counts in bounds. -/
theorem Queueing.countP_le (h : s.Queueing owned) {id : JobId} {job : Job PathBuf} {f : Job PathBuf → Job PathBuf}
    (hmem : (id, job) ∈ s.jobs) (hactive : ∀ origin, activeAt origin (id, f job) → activeAt origin (id, job))
    (origin : Origin) : (Table.adjust id f s.jobs).countP (activeAt origin) ≤ s.config.maxPerOrigin := by
  refine (countP_adjust_le fun job' hjob' hf ↦ ?_).trans (h.perOrigin origin)
  obtain rfl : job' = job := eq_of_mem h.ids hjob' hmem
  exact hactive origin hf

theorem not_activeAt {origin : Origin} {id : JobId} {job : Job PathBuf} (h : job.state.active = false) :
    ¬activeAt origin (id, job) := by simp [activeAt, h]

/-! ### Notes that start and resume nothing -/

/-- Nothing is started or resumed by these notes. -/
def Quiet (log : List (Note PathBuf)) : Prop := ∀ n ∈ log, ∀ id before, n.ran id before = before

theorem ranSinceResume_quiet {log log' : List (Note PathBuf)} (h : Quiet log') (id : JobId) :
    ranSinceResume (log ++ log') id = ranSinceResume log id := by
  rw [ranSinceResume_append]
  generalize ranSinceResume log id = b
  induction log' with
  | nil => rfl
  | cons n log' ih =>
    obtain ⟨hn, hrest⟩ := List.forall_mem_cons.1 h
    rw [List.foldl_cons, hn]
    exact ih hrest

/-- Nothing but the log, and only by such notes. -/
theorem Queueing.quiet (h : s.Queueing owned) {log : List (Note PathBuf)} (hlog : s'.log = s.log ++ log)
    (hquiet : Quiet log) (hjobs : s'.jobs = s.jobs) (hqueue : s'.queue = s.queue) (hlimits : s.SameLimits s') :
    s'.Queueing owned := by
  refine h.map (g := id) (by rw [hjobs, List.map_id]) (fun _ _ ↦ rfl) hlimits (hqueue ▸ h.queue_nodup)
    (hqueue ▸ h.queue_jobs) h.owned_jobs (hjobs ▸ h.perOrigin) fun e _ hold ↦ ?_
  rw [hqueue, hlog, ranSinceResume_quiet hquiet]
  exact hold

/-! ### Saving -/

section Saving

variable (P : Paths PathBuf) (sha256 : Bytes → Digest)

/-- **How a save comes out**: without a database nothing is done; else the workers' progress is noted, and with
it the snapshot, which the database holds afterwards if the save succeeds, and may hold if it fails. -/
inductive Saved (s : Actor PathBuf) : Actor PathBuf → Except ManagerError Unit → Prop
  | without (hstore : s.store = false) : Saved s s (.ok ())
  | stored (hstore : s.store = true) (progress : JobId → Option UInt64) (bytes : Bytes)
      (hbytes : encode P sha256 (s.report progress).snapshot = .ok bytes) :
      Saved s { s.report progress with
        store := true, file := some bytes, log := s.log ++ [.saved (s.report progress).snapshot] } (.ok ())
  | failed (hstore : s.store = true) (progress : JobId → Option UInt64) (error : ManagerError) (kept : Bool)
      (file : Option Bytes)
      (hfile : file = s.file ∨ ∃ bytes, encode P sha256 (s.report progress).snapshot = .ok bytes ∧ file = some bytes) :
      Saved s { s.report progress with
        store := kept, file, log := s.log ++ [.unsaved (s.report progress).snapshot] } (.error error)

theorem saveState_saved (saving : Saving) (s : Actor PathBuf) :
    Saved P sha256 s (s.saveState P sha256 saving).1 (s.saveState P sha256 saving).2 := by
  unfold saveState
  split
  next hstore => exact .without (by simpa using hstore)
  next hstore =>
    replace hstore : s.store = true := by simpa using hstore
    cases hfate : saving.fate <;> cases hencode : encode P sha256 (s.report saving.progress).snapshot <;>
      simp only [saveSnapshot, hfate, hencode]
    case saved.ok bytes => exact .stored hstore saving.progress bytes hencode
    case saved.error e => exact .failed hstore saving.progress e true s.file (.inl rfl)
    case failed.error error stored e => exact .failed hstore saving.progress e true s.file (.inl rfl)
    case lost.error stored e => exact .failed hstore saving.progress .workerFailed false s.file (.inl rfl)
    case failed.ok error stored bytes =>
      refine .failed hstore saving.progress error true _ ?_
      cases stored
      · exact .inl rfl
      · exact .inr ⟨bytes, hencode, rfl⟩
    case lost.ok stored bytes =>
      refine .failed hstore saving.progress .workerFailed false _ ?_
      cases stored
      · exact .inl rfl
      · exact .inr ⟨bytes, hencode, rfl⟩

end Saving

/-! ### The parts of a turn -/

theorem quiet_nil : Quiet ([] : List (Note PathBuf)) := nofun

theorem quiet_saved (snapshot : Snapshot PathBuf) : Quiet [.saved snapshot] := by
  rintro n hn id before
  obtain rfl := List.mem_singleton.1 hn
  rfl

theorem quiet_unsaved (snapshot : Snapshot PathBuf) : Quiet [.unsaved snapshot] := by
  rintro n hn id before
  obtain rfl := List.mem_singleton.1 hn
  rfl

theorem Queueing.report (h : s.Queueing owned) (progress : JobId → Option UInt64) :
    (s.report progress).Queueing owned := by
  refine h.map rfl (fun e _ ↦ by split <;> rfl) ⟨rfl, rfl, rfl⟩ h.queue_nodup h.queue_jobs h.owned_jobs
    (fun origin ↦ (countP_map_le fun e _ he ↦ ?_).trans (h.perOrigin origin)) fun e _ hold ↦ ?_
  · split at he <;> exact he
  · split
    · exact ⟨hold.waits, hold.outside, hold.works, hold.again, hold.attempts, hold.replies⟩
    · exact hold

theorem activeAt_stop {e : JobId × Job PathBuf} {origin : Origin} (h : activeAt origin (e.1, e.2.stop)) :
    activeAt origin e := by
  have horigin : e.2.stop.origin = e.2.origin := by unfold Job.stop; split <;> rfl
  have hstate : e.2.stop.state.active = true → e.2.state.active = true := by
    unfold Job.stop
    split <;> simp_all [State.active]
  simp only [activeAt, Bool.decide_and, Bool.and_eq_true, decide_eq_true_eq, Bool.decide_eq_true, horigin] at h ⊢
  exact ⟨h.1, hstate h.2⟩

theorem Queueing.stop (h : s.Queueing owned) : s.stop.Queueing owned :=
  h.map rfl (fun _ _ ↦ rfl) ⟨rfl, rfl, rfl⟩ h.queue_nodup h.queue_jobs h.owned_jobs
    (fun origin ↦ (countP_map_le fun _ _ he ↦ activeAt_stop he).trans (h.perOrigin origin)) fun _ _ hold ↦ hold.stop

theorem Queueing.saved {P : Paths PathBuf} {sha256 : Bytes → Digest} {result : Except ManagerError Unit}
    (h : s.Queueing owned) (hsaved : Saved P sha256 s s' result) : s'.Queueing owned := by
  cases hsaved with
  | without => exact h
  | stored _ progress bytes _ =>
    exact (h.report progress).quiet rfl (quiet_saved _) rfl rfl ⟨rfl, rfl, rfl⟩
  | failed _ progress error kept file _ =>
    exact (h.report progress).quiet rfl (quiet_unsaved _) rfl rfl ⟨rfl, rfl, rfl⟩

theorem state_of_due {now : JobId → ℕ} {e : JobId × Job PathBuf} (h : due now e) : e.2.state = .retryWaiting := by
  simp only [due, decide_eq_true_eq, Bool.decide_and, Bool.and_eq_true] at h
  exact h.1

theorem Queueing.wakeWaiting (h : s.Queueing owned) (now : JobId → ℕ) : (s.wakeWaiting now).Queueing owned := by
  unfold Actor.wakeWaiting
  split
  · exact h
  have hdue : ∀ e ∈ s.jobs, (e.1 ∈ keys (s.jobs.filter (due now)) ↔ due now e) := by
    refine fun e he ↦ ⟨fun hid ↦ ?_, fun hdue ↦ mem_keys_of_mem (List.mem_filter.2 ⟨he, hdue⟩)⟩
    obtain ⟨job, hjob⟩ := mem_keys.1 hid
    obtain ⟨hjob, hdue⟩ := List.mem_filter.1 hjob
    rwa [eq_of_mem h.ids hjob he] at hdue
  have hnew : ∀ e ∈ s.jobs, due now e → e.1 ∉ s.queue := fun e he hd ↦
    (h.fits e he).outside (.inr (state_of_due hd))
  refine h.map rfl (fun e _ ↦ by split <;> rfl) ⟨rfl, rfl, rfl⟩ ?_ ?_ h.owned_jobs ?_ fun e he hold ↦ ?_
  · refine h.queue_nodup.append ((h.ids.sublist (List.filter_sublist.map _))) fun id hid hid' ↦ ?_
    obtain ⟨job, hjob⟩ := mem_keys.1 hid'
    obtain ⟨hjob, hd⟩ := List.mem_filter.1 hjob
    exact hnew _ hjob hd hid
  · exact List.append_subset.2 ⟨h.queue_jobs, (List.filter_sublist.map _).subset⟩
  · refine fun origin ↦ (countP_map_le fun e _ hactive ↦ ?_).trans (h.perOrigin origin)
    split at hactive
    · simp [activeAt, State.active] at hactive
    · exact hactive
  · show Fits _ (e.1 ∈ s.queue ++ keys (s.jobs.filter (due now))) _ _ _
    rw [List.mem_append, hdue e he]
    obtain ⟨waits, outside, works, again, attempts, replies⟩ := hold
    by_cases hd : due now e
    · rw [if_pos hd]
      have hstate := state_of_due hd
      constructor <;> simp_all [State.active]
    · rw [if_neg hd]
      constructor <;> simp_all

/-! ### Starting workers -/

/-- A job that may start next, and its place in the queue. -/
structure Eligible (jobs : List (JobId × Job PathBuf)) (queue : List JobId) (maxPerOrigin : ℕ) (index : ℕ) (id : JobId)
    (job : Job PathBuf) : Prop where
  place : queue[index]? = some id
  found : jobs.lookup id = some job
  queued : job.state = .queued
  room : jobs.countP (activeAt job.origin) < maxPerOrigin

/-- Whatever the scan has selected so far is eligible. -/
theorem eligible_of_scan {jobs : List (JobId × Job PathBuf)} {queue : List JobId} {maxPerOrigin : ℕ} :
    ∀ (l : List (JobId × ℕ)) (selected : Option ℕ × Priority), (∀ x ∈ l, queue[x.2]? = some x.1) →
      (∀ i, selected.1 = some i → ∃ id job, Eligible jobs queue maxPerOrigin i id job) → ∀ i,
        (l.foldl (fun selected (id, index) ↦
          match jobs.lookup id with
          | none => selected
          | some candidate =>
            if candidate.state ≠ .queued then selected
            else if jobs.countP (activeAt candidate.origin) ≥ maxPerOrigin then selected
            else if selected.1.isNone ∨ selected.2.code < candidate.priority.code then
              (some index, candidate.priority)
            else selected) selected).1 = some i → ∃ id job, Eligible jobs queue maxPerOrigin i id job := by
  intro l
  induction l with
  | nil => exact fun selected _ hselected ↦ hselected
  | cons x l ih =>
    intro selected hl hselected
    obtain ⟨hx, hl⟩ := List.forall_mem_cons.1 hl
    refine ih _ hl fun i hi ↦ ?_
    dsimp only at hi
    split at hi
    · exact hselected i hi
    next candidate hfound =>
      split_ifs at hi with hqueued hroom hbetter
      · exact hselected i hi
      · exact hselected i hi
      · obtain rfl : x.2 = i := Option.some.inj hi
        exact ⟨x.1, candidate, hx, hfound, not_not.1 hqueued, Nat.lt_of_not_ge hroom⟩
      · exact hselected i hi

theorem exists_eligible {jobs : List (JobId × Job PathBuf)} {queue : List JobId} {maxPerOrigin index : ℕ}
    (h : nextEligible jobs queue maxPerOrigin = some index) :
    ∃ id job, Eligible jobs queue maxPerOrigin index id job :=
  eligible_of_scan queue.zipIdx (none, .low) (fun _ hx ↦ List.mem_zipIdx_iff_getElem?.1 hx)
    (by rintro _ ⟨⟩) index h

/-- **How one round of starting comes out.** -/
inductive Started (P : Paths PathBuf) (sha256 : Bytes → Digest) (s : Actor PathBuf) : Actor PathBuf → Bool → Prop
  | idle : Started P sha256 s s false
  | refused {index : ℕ} {id : JobId} {job : Job PathBuf} {s' : Actor PathBuf} {error : ManagerError}
      (hjob : Eligible s.jobs s.queue s.config.maxPerOrigin index id job)
      (hsaved : Saved P sha256 ((s.dequeue index).prepare id) s' (.error error)) :
      Started P sha256 s ((s'.fail error).unprepare id) false
  | dropped {index : ℕ} {id : JobId} {job : Job PathBuf} {s' : Actor PathBuf}
      (hjob : Eligible s.jobs s.queue s.config.maxPerOrigin index id job)
      (hsaved : Saved P sha256 ((s.dequeue index).prepare id) s' (.ok ())) :
      Started P sha256 s (s'.close.unprepare id) false
  | started {index : ℕ} {id : JobId} {job : Job PathBuf} {s' : Actor PathBuf}
      (hjob : Eligible s.jobs s.queue s.config.maxPerOrigin index id job)
      (hsaved : Saved P sha256 ((s.dequeue index).prepare id) s' (.ok ())) :
      Started P sha256 s (s'.spawn id) true

theorem startNext_started (P : Paths PathBuf) (sha256 : Bytes → Digest) (starting : Starting) (s : Actor PathBuf) :
    Started P sha256 s (s.startNext P sha256 starting).1 (s.startNext P sha256 starting).2 := by
  unfold startNext
  split
  · exact .idle
  next index hindex =>
    obtain ⟨id, job, hjob⟩ := exists_eligible hindex
    have hfound : (s.dequeue index).jobs.lookup id = some job := hjob.found
    simp only [hjob.place, hfound, hjob.queued, ne_eq, not_true, if_false]
    have hsaved := saveState_saved P sha256 starting.save ((s.dequeue index).prepare id)
    rcases hsave : ((s.dequeue index).prepare id).saveState P sha256 starting.save with ⟨s', error | ⟨⟩⟩ <;>
      rw [hsave] at hsaved
    · exact .refused hjob hsaved
    · dsimp only
      split
      · exact .dropped hjob hsaved
      · exact .started hjob hsaved

theorem attempts_le {attempts maxAttempts : UInt8} (h : attempts < maxAttempts) :
    (if attempts = 255 then 255 else attempts + 1) ≤ maxAttempts := by
  rw [UInt8.lt_iff_toNat_lt] at h
  have hmax := maxAttempts.toNat_lt
  have hne : attempts ≠ 255 := by
    rintro rfl
    have : (255 : UInt8).toNat = 255 := rfl
    omega
  rw [if_neg hne, UInt8.le_iff_toNat_le, UInt8.toNat_add]
  have : (1 : UInt8).toNat = 1 := rfl
  omega

theorem Queueing.mem_of_eligible (_ : s.Queueing owned) {index : ℕ} {id : JobId} {job : Job PathBuf}
    (hjob : Eligible s.jobs s.queue s.config.maxPerOrigin index id job) : (id, job) ∈ s.jobs :=
  mem_of_lookup hjob.found

/-- A queued job has no worker. -/
theorem Queueing.not_owned (h : s.Queueing owned) {index : ℕ} {id : JobId} {job : Job PathBuf}
    (hjob : Eligible s.jobs s.queue s.config.maxPerOrigin index id job) : id ∉ owned := fun hid ↦ by
  have hworks := (h.fits _ (mem_of_lookup hjob.found)).works.2 hid
  rw [show (id, job).2.state = .queued from hjob.queued] at hworks
  cases hworks

theorem Queueing.prepare (h : s.Queueing owned) {index : ℕ} {id : JobId} {job : Job PathBuf}
    (hjob : Eligible s.jobs s.queue s.config.maxPerOrigin index id job) :
    ((s.dequeue index).prepare id).Queueing (id :: owned) := by
  have herase : s.queue.eraseIdx index = s.queue.erase id := by
    obtain ⟨hlt, hget⟩ := List.getElem?_eq_some_iff.1 hjob.place
    rw [← hget, h.queue_nodup.erase_getElem]
  have hmem := mem_of_lookup hjob.found
  refine h.adjust hmem rfl ⟨rfl, rfl, rfl⟩ (h.queue_nodup.sublist (List.eraseIdx_sublist _ _)) (fun x hx ↦ ?_)
    (fun x hx ↦ ?_) (fun _ _ ↦ rfl) (fun origin ↦ ?_) fun hold ↦ ?_
  · show x ∈ s.queue.eraseIdx index ↔ _
    rw [herase, h.queue_nodup.mem_erase_iff]
    exact and_iff_right hx
  · exact List.mem_cons.trans (or_iff_right hx)
  · by_cases horigin : job.origin = origin
    · exact horigin ▸ countP_adjust_le_succ.trans hjob.room
    · refine (countP_adjust_le fun job' hjob' hactive ↦ ?_).trans (h.perOrigin origin)
      obtain rfl : job' = job := eq_of_mem h.ids hjob' hmem
      exact absurd ((decide_eq_true_iff.1 hactive).1) horigin
  · show Fits _ (id ∈ s.queue.eraseIdx index) _ _ _
    rw [herase]
    have hle := attempts_le (hold.again (.inl hjob.queued))
    have hnot : id ∉ s.queue.erase id := fun hid ↦ (h.queue_nodup.mem_erase_iff.1 hid).1 rfl
    have hreplies := hold.replies
    rw [hjob.queued] at hreplies
    exact ⟨nofun, fun _ ↦ hnot, iff_of_true rfl List.mem_cons_self,
      fun hstate : State.running = .queued ∨ State.running = .retryWaiting ↦ by simp at hstate,
      fun _ ↦ hle, fun hreply ↦ by cases hreplies hreply⟩

theorem Queueing.spawn {id : JobId} (h : s.Queueing (id :: owned)) : (s.spawn id).Queueing (id :: owned) := by
  obtain ⟨job, hmem⟩ := mem_keys.1 (h.owned_jobs List.mem_cons_self)
  refine h.adjust hmem (f := fun job ↦ { job with cancel := some false }) rfl ⟨rfl, rfl, rfl⟩ h.queue_nodup
    (fun _ _ ↦ .rfl) (fun _ _ ↦ .rfl) (fun x hx ↦ ?_) (fun origin ↦ ?_) fun hold ↦ ?_
  · exact (ranSinceResume_append s.log [.started s.nextTask id] x).trans (by simp [Note.ran, Ne.symm hx])
  · exact h.countP_le hmem (fun _ hactive ↦ hactive) origin
  · exact ⟨hold.waits, hold.outside, hold.works, hold.again,
      fun _ ↦ hold.attempts (.inl (hold.works.2 List.mem_cons_self)), hold.replies⟩

theorem Queueing.unprepare {id : JobId} (h : s.Queueing (id :: owned)) (hid : id ∉ owned) 
    (hreply : ∀ job, (id, job) ∈ s.jobs → job.pauseReply = none) : (s.unprepare id).Queueing owned := by
  obtain ⟨job, hmem⟩ := mem_keys.1 (h.owned_jobs List.mem_cons_self)
  refine h.adjust hmem (f := fun job ↦ { job with state := .paused }) rfl ⟨rfl, rfl, rfl⟩ h.queue_nodup
    (fun _ _ ↦ .rfl) (fun x hx ↦ ?_) (fun _ _ ↦ rfl) (fun origin ↦ ?_) fun hold ↦ ?_
  · exact (List.mem_cons.trans (or_iff_right hx)).symm
  · exact h.countP_le hmem (fun _ hactive ↦ absurd hactive (not_activeAt rfl)) origin
  · exact ⟨nofun, by simp [State.active], by simp [State.active, hid], by simp,
      fun _ ↦ hold.attempts (.inl (hold.works.2 List.mem_cons_self)), fun h' ↦ by
        simp [hreply job hmem] at h'⟩

/-- Nobody waits for the pause of this job. -/
def NoReply (id : JobId) (s : Actor PathBuf) : Prop := ∀ job, (id, job) ∈ s.jobs → job.pauseReply = none

theorem NoReply.map {id : JobId} (h : s.NoReply id) {g : JobId × Job PathBuf → JobId × Job PathBuf}
    (hjobs : s'.jobs = s.jobs.map g) (hg : ∀ e, (g e).1 = e.1 ∧ (g e).2.pauseReply = e.2.pauseReply) :
    s'.NoReply id := by
  intro job hmem
  rw [hjobs] at hmem
  obtain ⟨e, he, heq⟩ := List.mem_map.1 hmem
  obtain ⟨hkey, hreply⟩ := hg e
  rw [heq] at hkey hreply
  exact hreply.trans (h e.2 (by rw [show id = e.1 from hkey]; exact he))

theorem NoReply.stop {id : JobId} (h : s.NoReply id) : s.stop.NoReply id :=
  h.map rfl fun e ↦ ⟨rfl, by show e.2.stop.pauseReply = _; unfold Job.stop; split <;> rfl⟩

theorem NoReply.saved {P : Paths PathBuf} {sha256 : Bytes → Digest} {result : Except ManagerError Unit} {id : JobId}
    (h : s.NoReply id) (hsaved : Saved P sha256 s s' result) : s'.NoReply id := by
  cases hsaved with
  | without => exact h
  | stored | failed => exact h.map rfl fun e ↦ by split <;> exact ⟨rfl, rfl⟩

theorem Queueing.noReply (h : s.Queueing owned) {index : ℕ} {id : JobId} {job : Job PathBuf}
    (hjob : Eligible s.jobs s.queue s.config.maxPerOrigin index id job) :
    ((s.dequeue index).prepare id).NoReply id := by
  intro job' hmem
  rcases (mem_adjust h.ids).1 hmem with ⟨hne, -⟩ | ⟨job, hold, heq⟩
  · exact absurd rfl hne
  · obtain rfl : job = _ := eq_of_mem h.ids hold (mem_of_lookup hjob.found)
    obtain rfl : job' = job.prepare := (Prod.mk.inj heq).2
    have hreplies := (h.fits _ hold).replies
    cases hreply : job.pauseReply with
    | none => exact hreply
    | some reply =>
      have hstate := hreplies (by rw [hreply]; rfl)
      rw [hjob.queued] at hstate
      cases hstate

/-! ### The other parts -/

/-- What no part of a turn before the select changes, but starting a worker. -/
structure Frame (s s' : Actor PathBuf) : Prop where
  workers : s'.workers = s.workers
  owners : s'.owners = s.owners
  nextTask : s'.nextTask = s.nextTask
  ids : keys s'.jobs = keys s.jobs
  receipts : s'.receipts = s.receipts
  lastId : s'.lastId = s.lastId
  limits : s.SameLimits s'

theorem Frame.trans {s'' : Actor PathBuf} (h : s.Frame s') (h' : s'.Frame s'') : s.Frame s'' where
  workers := h'.workers.trans h.workers
  owners := h'.owners.trans h.owners
  nextTask := h'.nextTask.trans h.nextTask
  ids := h'.ids.trans h.ids
  receipts := h'.receipts.trans h.receipts
  lastId := h'.lastId.trans h.lastId
  limits := ⟨h'.limits.1.trans h.limits.1, h'.limits.2.trans h.limits.2, h'.limits.3.trans h.limits.3⟩

theorem Inv.frame (h : s.Inv) (hframe : s.Frame s') (hqueueing : s'.Queueing s.owned) : s'.Inv where
  queueing := by
    rw [Actor.owned, hframe.owners]
    exact hqueueing
  working := by
    have hw := h.working
    constructor <;> simp only [Actor.owned, hframe.workers, hframe.owners, hframe.nextTask, hframe.limits.maxActive]
    exacts [hw.workers, hw.tasks, hw.tasks_lt, hw.owned_nodup, hw.maxActive]
  ledger := by
    rw [hframe.ids, hframe.receipts]
    exact h.ledger
  jobs_le := by
    rw [hframe.ids, hframe.lastId]
    exact h.jobs_le
  receipts_le := by
    rw [hframe.receipts, hframe.lastId]
    exact h.receipts_le

theorem Frame.stop (s : Actor PathBuf) : s.Frame s.stop :=
  ⟨rfl, rfl, rfl, keys_map fun _ _ ↦ rfl, rfl, rfl, ⟨rfl, rfl, rfl⟩⟩

theorem Frame.close (s : Actor PathBuf) : s.Frame s.close :=
  ⟨rfl, rfl, rfl, keys_map fun _ _ ↦ rfl, rfl, rfl, ⟨rfl, rfl, rfl⟩⟩

theorem Frame.fail (error : ManagerError) (s : Actor PathBuf) : s.Frame (s.fail error) :=
  ⟨rfl, rfl, rfl, keys_map fun _ _ ↦ rfl, rfl, rfl, ⟨rfl, rfl, rfl⟩⟩

@[simp] theorem keys_setJob (id : JobId) (f : Job PathBuf → Job PathBuf) (s : Actor PathBuf) :
    keys (s.setJob id f).jobs = keys s.jobs := keys_adjust id f s.jobs

theorem Frame.setJob (id : JobId) (f : Job PathBuf → Job PathBuf) (s : Actor PathBuf) : s.Frame (s.setJob id f) :=
  ⟨rfl, rfl, rfl, keys_adjust id f s.jobs, rfl, rfl, ⟨rfl, rfl, rfl⟩⟩

theorem Frame.saved {P : Paths PathBuf} {sha256 : Bytes → Digest} {result : Except ManagerError Unit}
    (h : Saved P sha256 s s' result) : s.Frame s' := by
  cases h with
  | without => exact ⟨rfl, rfl, rfl, rfl, rfl, rfl, ⟨rfl, rfl, rfl⟩⟩
  | stored | failed =>
    exact ⟨rfl, rfl, rfl, keys_map fun e _ ↦ by split <;> rfl, rfl, rfl, ⟨rfl, rfl, rfl⟩⟩

theorem Queueing.close (h : s.Queueing owned) : s.close.Queueing owned :=
  h.stop.quiet (List.append_nil _).symm quiet_nil rfl rfl ⟨rfl, rfl, rfl⟩

theorem Queueing.fail (h : s.Queueing owned) (error : ManagerError) : (s.fail error).Queueing owned :=
  h.stop.quiet (List.append_nil _).symm quiet_nil rfl rfl ⟨rfl, rfl, rfl⟩

theorem Inv.noticeClosed (h : s.Inv) (dropped : Bool) : (s.noticeClosed dropped).Inv := by
  unfold Actor.noticeClosed
  split
  · exact h.frame (.close s) h.queueing.close
  · exact h

theorem Inv.wakeWaiting (h : s.Inv) (now : JobId → ℕ) : (s.wakeWaiting now).Inv := by
  refine h.frame ?_ (h.queueing.wakeWaiting now)
  unfold Actor.wakeWaiting
  split
  · exact ⟨rfl, rfl, rfl, rfl, rfl, rfl, ⟨rfl, rfl, rfl⟩⟩
  · exact ⟨rfl, rfl, rfl, keys_map fun e _ ↦ by split <;> rfl, rfl, rfl, ⟨rfl, rfl, rfl⟩⟩

theorem Working.spawn (h : s.Working) (hframe : s.Frame s') {id : JobId} (hid : id ∉ s.owned)
    (hroom : s.workers.length < s.config.maxActive) : (s'.spawn id).Working where
  workers := by
    show s'.nextTask :: s'.workers = s'.nextTask :: keys s'.owners
    rw [hframe.workers, hframe.owners, h.workers]
  tasks := by
    show (s'.nextTask :: keys s'.owners).Nodup
    rw [hframe.nextTask, hframe.owners]
    exact List.nodup_cons.2 ⟨fun hmem ↦ absurd (h.tasks_lt _ hmem) (Nat.lt_irrefl _), h.tasks⟩
  tasks_lt := by
    show ∀ task ∈ s'.nextTask :: keys s'.owners, task < s'.nextTask + 1
    rw [hframe.nextTask, hframe.owners]
    exact List.forall_mem_cons.2 ⟨Nat.lt_succ_self _, fun task hmem ↦ Nat.lt_succ_of_lt (h.tasks_lt task hmem)⟩
  owned_nodup := by
    show (id :: s'.owners.map Prod.snd).Nodup
    rw [hframe.owners]
    exact List.nodup_cons.2 ⟨hid, h.owned_nodup⟩
  maxActive := by
    show s'.workers.length + 1 ≤ s'.config.maxActive
    rw [hframe.workers, hframe.limits.maxActive]
    exact hroom

section Turns

variable {P : Paths PathBuf} {sha256 : Bytes → Digest}

theorem Inv.saved {result : Except ManagerError Unit} (h : s.Inv) (hsaved : Saved P sha256 s s' result) : s'.Inv :=
  h.frame (.saved hsaved) (h.queueing.saved hsaved)

theorem Inv.fail (h : s.Inv) (error : ManagerError) : (s.fail error).Inv := h.frame (.fail error s) (h.queueing.fail error)

/-- Nothing of the invariant is about these. -/
theorem Inv.flags (h : s.Inv) (dirty : Bool) (failure : Option ManagerError)
    (returned : Option (Except ManagerError Unit)) : { s with dirty, failure, returned }.Inv :=
  h.frame ⟨rfl, rfl, rfl, rfl, rfl, rfl, ⟨rfl, rfl, rfl⟩⟩
    (h.queueing.quiet (List.append_nil _).symm quiet_nil rfl rfl ⟨rfl, rfl, rfl⟩)

theorem Inv.saveDirty (h : s.Inv) (saving : Saving) : (s.saveDirty P sha256 saving).Inv := by
  unfold Actor.saveDirty
  split
  · have hsaved := saveState_saved P sha256 saving s
    rcases hsave : s.saveState P sha256 saving with ⟨s', error | ⟨⟩⟩ <;> rw [hsave] at hsaved
    · exact ((h.saved hsaved).fail error).flags false _ _
    · exact (h.saved hsaved).flags false _ _
  · exact h

theorem Inv.acknowledge (h : s.Inv) : s.acknowledge.Inv := by
  refine h.frame ⟨rfl, rfl, rfl, rfl, rfl, rfl, ⟨rfl, rfl, rfl⟩⟩ (h.queueing.quiet rfl ?_ rfl rfl ⟨rfl, rfl, rfl⟩)
  rintro n hn id before
  obtain ⟨a, -, rfl⟩ := List.mem_map.1 hn
  rfl

theorem Inv.started {again : Bool} (h : s.Inv) (hroom : s.workers.length < s.config.maxActive)
    (hstarted : Started P sha256 s s' again) : s'.Inv := by
  have hprepared : ∀ (index : ℕ) (id : JobId), s.Frame ((s.dequeue index).prepare id) := fun index id ↦
    ⟨rfl, rfl, rfl, keys_adjust id Job.prepare s.jobs, rfl, rfl, ⟨rfl, rfl, rfl⟩⟩
  cases hstarted with
  | idle => exact h
  | @refused index id job s' error hjob hsaved =>
    refine h.frame ((((hprepared index id).trans (.saved hsaved)).trans (.fail error s')).trans (.setJob id _ _)) ?_
    exact (((h.queueing.prepare hjob).saved hsaved).fail error).unprepare (h.queueing.not_owned hjob)
      ((h.queueing.noReply hjob).saved hsaved).stop
  | @dropped index id job s' hjob hsaved =>
    refine h.frame ((((hprepared index id).trans (.saved hsaved)).trans (.close s')).trans (.setJob id _ _)) ?_
    exact (((h.queueing.prepare hjob).saved hsaved).close).unprepare (h.queueing.not_owned hjob)
      ((h.queueing.noReply hjob).saved hsaved).stop
  | @started index id job s' hjob hsaved =>
    have hframe := (hprepared index id).trans (.saved hsaved)
    have hqueueing := ((h.queueing.prepare hjob).saved hsaved).spawn
    have hkeys : keys (s'.spawn id).jobs = keys s.jobs :=
      (keys_adjust id (fun job : Job PathBuf ↦ { job with cancel := some false }) s'.jobs).trans hframe.ids
    refine ⟨?_, h.working.spawn hframe (h.queueing.not_owned hjob) hroom, ?_, ?_, ?_⟩
    · show (s'.spawn id).Queueing (id :: s'.owners.map Prod.snd)
      rwa [hframe.owners]
    · rw [hkeys]
      exact hframe.receipts ▸ h.ledger
    · rw [hkeys]
      exact hframe.lastId ▸ h.jobs_le
    · show ∀ receipt ∈ s'.receipts, receipt.jobId.value ≤ s'.lastId
      rw [hframe.receipts, hframe.lastId]
      exact h.receipts_le

theorem Inv.startWorkers (starts : ℕ → Starting) (rounds : ℕ) (h : s.Inv) :
    (s.startWorkers P sha256 starts rounds).Inv := by
  induction rounds generalizing s with
  | zero => exact h
  | succ rounds ih =>
    unfold Actor.startWorkers
    split
    · exact h
    next hroom =>
      have hstarted := startNext_started P sha256 (starts rounds) s
      have hinv := h.started (by omega) hstarted
      rcases hnext : s.startNext P sha256 (starts rounds) with ⟨s', again⟩
      rw [hnext] at hinv
      cases again
      · exact hinv
      · exact ih hinv

theorem Inv.await (h : s.Inv) (turn : Turn PathBuf) : (s.await P sha256 turn).Inv :=
  Inv.startWorkers _ _ ((((h.noticeClosed _).wakeWaiting _).saveDirty _).acknowledge)

theorem Inv.leave (h : s.Inv) (saving : Saving) : (s.leave P sha256 saving).Inv := by
  unfold Actor.leave
  split
  · have hsaved := saveState_saved P sha256 saving s
    rcases hsave : s.saveState P sha256 saving with ⟨s', error | ⟨⟩⟩ <;> rw [hsave] at hsaved
    · exact (h.saved hsaved).flags _ _ _
    · exact (h.saved hsaved).flags _ _ _
  · exact h.flags _ _ _

end Turns

end Actor

end Fhd.DownloadEngine
