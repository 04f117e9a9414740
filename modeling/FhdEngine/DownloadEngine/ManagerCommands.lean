import FhdEngine.DownloadEngine.ManagerInvariant

/-!
# The invariant of the manager, over commands and joined workers

What the select brings keeps the invariant: a joined worker gives its job up, and each command changes one job,
adds one, or takes one out.
-/

namespace Fhd.DownloadEngine

open Table

variable {Url UrlOrigin PathBuf : Type}

/-! ### Joining -/

/-- What a worker leaves behind has no worker and does not wait in the queue. -/
theorem Job.finish_state (job : Job PathBuf) (result : Except Error UInt64) :
    (job.finish result).state.active = false ∧ (job.finish result).state ≠ .queued ∧
      (job.finish result).state ≠ .retryWaiting := by
  unfold Job.finish
  split
  · simp [State.active]
  · split <;> simp [State.active]

theorem Job.finish_attempts (job : Job PathBuf) (result : Except Error UInt64) :
    (job.finish result).attempts = job.attempts := by
  unfold Job.finish
  split
  · rfl
  · split <;> rfl

theorem Fits.joined {retry : RetryPolicy} {q o r : Prop} {job : Job PathBuf} (h : Fits retry.maxAttempts q o r job)
    (howned : o) (closing : Bool) (result : Except Error UInt64) (now : ℕ) :
    Fits retry.maxAttempts q False r { job.joined closing retry result now with pauseReply := none } := by
  have hactive := h.works.2 howned
  have hle := h.attempts (.inl hactive)
  obtain ⟨hidle, hqueued, hretry⟩ := job.finish_state result
  have hattempts := job.finish_attempts result
  unfold Job.joined
  dsimp only
  split
  next hagain =>
    refine ⟨(by rintro ⟨⟩), fun _ ↦ h.outside (.inl hactive), by simp [State.active], fun _ ↦ ?_, fun _ ↦ ?_, (by rintro ⟨⟩)⟩
    · simp only [Job.again, Bool.and_eq_true, decide_eq_true_eq] at hagain
      exact hattempts ▸ hagain.1.2
    · exact hattempts ▸ hle
  next =>
    refine ⟨fun hstate ↦ absurd hstate hqueued, ?_, by simp [hidle], ?_, fun _ ↦ hattempts ▸ hle, (by rintro ⟨⟩)⟩
    · rintro (hstate | hstate)
      · exact absurd hstate (by simp [hidle])
      · exact absurd hstate hretry
    · rintro (hstate | hstate)
      · exact absurd hstate hqueued
      · exact absurd hstate hretry

/-- A job without a worker has nobody waiting for its pause. -/
theorem Fits.noReply {m : UInt8} {q o r : Prop} {job : Job PathBuf} (h : Fits m q o r job)
    (hidle : job.state.active = false) : ¬job.pauseReply.isSome := fun hreply ↦ by
  rw [h.replies hreply] at hidle
  cases hidle

/-- A job without a worker is paused, or stays so. -/
theorem Fits.rest {m : UInt8} {q o r : Prop} {job job' : Job PathBuf} (h : Fits m q o r job)
    (hidle : job.state.active = false) (hstate : job'.state = .paused) (hattempts : job'.attempts = job.attempts)
    (hreply : job'.pauseReply = job.pauseReply) (q' : Prop) : Fits m q' o r job' := by
  refine ⟨?_, ?_, ?_, ?_, fun hran ↦ ?_, fun hsome ↦ ?_⟩
  · simp [hstate]
  · simp [hstate, State.active]
  · rw [← h.works, hidle, hstate]
    rfl
  · simp [hstate]
  · rw [hattempts]
    exact h.attempts (.inr (hran.resolve_left (by simp [hstate, State.active])))
  · exact absurd (hreply ▸ hsome) (h.noReply hidle)

/-- A job without a worker is queued afresh. -/
theorem Fits.requeue {m : UInt8} {q o r : Prop} {job : Job PathBuf} (h : Fits m q o r job)
    (hidle : job.state.active = false) (hpos : 0 < m) {q' r' : Prop} (hq : q') :
    Fits m q' o r' { job with state := .queued, attempts := 0, retryAt := none } := by
  refine ⟨fun _ ↦ hq, by simp [State.active], ?_, fun _ ↦ hpos, fun _ ↦ UInt8.le_of_lt hpos, fun hsome ↦ ?_⟩
  · rw [← h.works, hidle]
    rfl
  · exact absurd hsome (h.noReply hidle)

@[simp] theorem Receipt.keyHash_forget (receipt : Receipt) (id : JobId) :
    (receipt.forget id).keyHash = receipt.keyHash := by
  unfold Receipt.forget
  split <;> rfl

@[simp] theorem Receipt.jobId_forget (receipt : Receipt) (id : JobId) :
    (receipt.forget id).jobId = receipt.jobId := by
  unfold Receipt.forget
  split <;> rfl

/-- A new job that no receipt speaks of. -/
theorem Ledger.extend {ids : List JobId} {receipts : List Receipt} (h : Ledger ids receipts) {id : JobId}
    (hid : ∀ receipt ∈ receipts, receipt.jobId ≠ id) : Ledger (ids ++ [id]) receipts where
  keyHashes := h.keyHashes
  jobIds := h.jobIds
  removed := fun receipt hmem ↦ by
    rw [h.removed receipt hmem, List.mem_append, List.mem_singleton, or_iff_left (hid receipt hmem)]

theorem Ledger.forget {ids ids' : List JobId} {receipts : List Receipt} (h : Ledger ids receipts) {id : JobId}
    (hids : ∀ x, x ∈ ids' ↔ x ≠ id ∧ x ∈ ids) : Ledger ids' (receipts.map (.forget id)) := by
  refine ⟨?_, ?_, fun receipt' hmem ↦ ?_⟩
  · rw [List.map_map, List.map_congr_left fun receipt _ ↦ receipt.keyHash_forget id]
    exact h.keyHashes
  · rw [List.map_map, List.map_congr_left fun receipt _ ↦ receipt.jobId_forget id]
    exact h.jobIds
  · obtain ⟨receipt, hreceipt, rfl⟩ := List.mem_map.1 hmem
    rw [hids, receipt.jobId_forget]
    have hold := h.removed receipt hreceipt
    unfold Receipt.forget
    split
    next heq => simp [heq]
    next hne => simp [hold, hne]

namespace Actor

variable {s s' : Actor PathBuf} {owned : List JobId}

theorem lookup_owner (h : s.Working) {task : ℕ} (htask : task ∈ s.workers) :
    ∃ id, s.owners.lookup task = some id ∧ (task, id) ∈ s.owners := by
  rw [h.workers] at htask
  obtain ⟨id, hid⟩ := mem_keys.1 htask
  exact ⟨id, lookup_of_mem h.tasks hid, hid⟩

theorem mem_owned_release (hw : s.Working) {task : ℕ} {id : JobId} (howner : (task, id) ∈ s.owners) (x : JobId) :
    x ∈ (s.release task).owned ↔ x ≠ id ∧ x ∈ s.owned := by
  show x ∈ (s.owners.filter (·.1 ≠ task)).map Prod.snd ↔ x ≠ id ∧ x ∈ s.owners.map Prod.snd
  constructor
  · intro hx
    obtain ⟨⟨t, x⟩, hmem, rfl⟩ := List.mem_map.1 hx
    obtain ⟨hmem, hne⟩ := List.mem_filter.1 hmem
    refine ⟨fun hid ↦ ?_, List.mem_map_of_mem hmem⟩
    have heq : (t, x) = (task, id) := List.inj_on_of_nodup_map hw.owned_nodup hmem howner hid
    exact absurd (Prod.mk.inj heq).1 (by simpa using hne)
  · rintro ⟨hne, hx⟩
    obtain ⟨⟨t, x⟩, hmem, rfl⟩ := List.mem_map.1 hx
    refine List.mem_map_of_mem (List.mem_filter.2 ⟨hmem, decide_eq_true fun ht : t = task ↦ ?_⟩)
    exact hne (eq_of_mem hw.tasks (ht ▸ hmem) howner)

/-- A worker gives its job up. -/
theorem Queueing.release (h : s.Queueing s.owned) (hw : s.Working) {task : ℕ} {id : JobId} {job job' : Job PathBuf}
    (howner : (task, id) ∈ s.owners) (hmem : (id, job) ∈ s.jobs)
    (hfits : ∀ q r, Fits s.config.retry.maxAttempts q (id ∈ s.owned) r job →
      Fits s.config.retry.maxAttempts q False r job') :
    ((s.release task).setJob id fun _ ↦ job').Queueing (s.release task).owned := by
  have hkept : ∀ x, x ∈ (s.release task).owned ↔ x ≠ id ∧ x ∈ s.owned := mem_owned_release hw howner
  refine h.adjust hmem (f := fun _ ↦ job') rfl ⟨rfl, rfl, rfl⟩ h.queue_nodup (fun _ _ ↦ .rfl)
    (fun x hx ↦ (hkept x).trans (and_iff_right hx)) (fun x _ ↦ ?_) (fun origin ↦ ?_) fun hold ↦ ?_
  · exact ranSinceResume_append s.log [.joined task] x
  · have hidle : job'.state.active = false := by
      have hworks := (hfits _ _ (h.fits _ hmem)).works
      simpa using hworks
    exact h.countP_le hmem (fun _ hactive ↦ absurd hactive (not_activeAt hidle)) origin
  · show Fits _ _ (id ∈ (s.release task).owned) (ranSinceResume (s.log ++ [.joined task]) id) _
    rw [hkept, ranSinceResume_append]
    simp only [ne_eq, not_true, false_and]
    exact hfits _ _ hold

theorem Working.release (h : s.Working) (task : ℕ) : (s.release task).Working where
  workers := by
    show s.workers.erase task = (s.owners.filter (·.1 ≠ task)).map Prod.fst
    rw [h.workers, h.tasks.erase_eq_filter, keys, List.filter_map]
    refine congrArg _ (List.filter_congr fun e _ ↦ ?_)
    rw [Bool.eq_iff_iff]
    simp
  tasks := h.tasks.sublist (List.filter_sublist.map _)
  tasks_lt := fun t ht ↦ h.tasks_lt t ((List.filter_sublist.map _).subset ht)
  owned_nodup := h.owned_nodup.sublist (List.filter_sublist.map _)
  maxActive := List.length_erase_le.trans h.maxActive

theorem Working.of_eq (h : s.Working) (hworkers : s'.workers = s.workers) (howners : s'.owners = s.owners)
    (hnext : s'.nextTask = s.nextTask) (hmax : s'.config.maxActive = s.config.maxActive) : s'.Working := by
  constructor <;> simp only [Actor.owned, hworkers, howners, hnext, hmax]
  exacts [h.workers, h.tasks, h.tasks_lt, h.owned_nodup, h.maxActive]

/-- Only the log, by notes that start and resume nothing, and who is to be answered. -/
theorem Inv.answered (h : s.Inv) {log : List (Note PathBuf)} (hquiet : Quiet log) (dirty : Bool)
    (acknowledgements : List Acknowledge) : { s with log := s.log ++ log, dirty, acknowledgements }.Inv :=
  h.frame ⟨rfl, rfl, rfl, rfl, rfl, rfl, ⟨rfl, rfl, rfl⟩⟩ (h.queueing.quiet rfl hquiet rfl rfl ⟨rfl, rfl, rfl⟩)

theorem quiet_answered (reply : Reply) (result : Except ManagerError (Option JobId)) :
    Quiet [(.answered reply result : Note PathBuf)] := by
  rintro n hn id before
  obtain rfl := List.mem_singleton.1 hn
  rfl

theorem quiet_changed (reply : Reply) : Quiet [(.changed reply : Note PathBuf)] := by
  rintro n hn id before
  obtain rfl := List.mem_singleton.1 hn
  rfl

theorem quiet_replayed (reply : Reply) (keyHash : Digest) :
    Quiet [(.replayed reply keyHash : Note PathBuf)] := by
  rintro n hn id before
  obtain rfl := List.mem_singleton.1 hn
  rfl

theorem Inv.answer (h : s.Inv) (reply : Reply) (result : Except ManagerError (Option JobId)) :
    (s.answer reply result).Inv := h.answered (quiet_answered reply result) s.dirty s.acknowledgements

theorem Inv.accept (h : s.Inv) (acknowledge : Acknowledge) : (s.accept acknowledge).Inv :=
  h.answered (quiet_changed acknowledge.reply) true _

theorem Inv.settle {id : JobId} {job : Job PathBuf}
    (h : (s.setJob id fun _ ↦ { job with pauseReply := none }).Inv) : (s.settle id job).Inv := by
  have hdirty := h.flags true s.failure s.returned
  unfold Actor.settle
  dsimp only
  split
  · exact hdirty
  · exact hdirty.answer _ _
  · exact hdirty.accept _

theorem Inv.join (h : s.Inv) (task : ℕ) (result : Option (Except Error UInt64)) (now : ℕ) :
    (s.join task result now).Inv := by
  unfold Actor.join
  split
  · exact h
  next htask =>
    obtain ⟨id, hlookup, howner⟩ := lookup_owner h.working (not_not.1 htask)
    have hid : id ∈ s.owned := List.mem_map_of_mem (f := Prod.snd) howner
    obtain ⟨job, hmem⟩ := mem_keys.1 (h.queueing.owned_jobs hid)
    simp only [hlookup, lookup_of_mem h.queueing.ids hmem]
    refine Inv.settle ⟨?_, ?_, ?_, ?_, h.receipts_le⟩
    · exact h.queueing.release h.working howner hmem fun q r hold ↦ hold.joined hid _ _ _
    · exact (h.working.release task).of_eq rfl rfl rfl rfl
    · rw [keys_setJob]
      exact h.ledger
    · rw [keys_setJob]
      exact h.jobs_le

/-! ### Commands -/

/-- A change of one job that gives it no worker and takes none from it. -/
theorem Inv.change (h : s.Inv) {id : JobId} {job : Job PathBuf} {f : Job PathBuf → Job PathBuf} (queue : List JobId)
    (log : List (Note PathBuf)) (hmem : (id, job) ∈ s.jobs) (hqueue : queue.Nodup)
    (hothers : ∀ x ≠ id, (x ∈ queue ↔ x ∈ s.queue))
    (hran : ∀ x ≠ id, ranSinceResume (s.log ++ log) x = ranSinceResume s.log x)
    (hactive : ∀ origin, activeAt origin (id, f job) → activeAt origin (id, job))
    (hfits : Fits s.config.retry.maxAttempts (id ∈ s.queue) (id ∈ s.owned) (ranSinceResume s.log id) job →
      Fits s.config.retry.maxAttempts (id ∈ queue) (id ∈ s.owned) (ranSinceResume (s.log ++ log) id) (f job)) :
    { s with jobs := adjust id f s.jobs, queue, log := s.log ++ log }.Inv :=
  h.frame ⟨rfl, rfl, rfl, keys_adjust id f s.jobs, rfl, rfl, ⟨rfl, rfl, rfl⟩⟩
    (h.queueing.adjust hmem rfl ⟨rfl, rfl, rfl⟩ hqueue hothers (fun _ _ ↦ .rfl) hran
      (h.queueing.countP_le hmem hactive) hfits)

/-- A change of what the invariant does not speak of. -/
theorem Inv.setJob (h : s.Inv) {id : JobId} {job : Job PathBuf} {f : Job PathBuf → Job PathBuf}
    (hmem : (id, job) ∈ s.jobs) (hactive : ∀ origin, activeAt origin (id, f job) → activeAt origin (id, job))
    (hfits : ∀ q o r, Fits s.config.retry.maxAttempts q o r job → Fits s.config.retry.maxAttempts q o r (f job)) :
    (s.setJob id f).Inv := by
  have hsame := h.change (f := f) s.queue [] hmem h.queueing.queue_nodup (fun _ _ ↦ .rfl)
    (fun _ _ ↦ by rw [List.append_nil]) hactive (by rw [List.append_nil]; exact hfits _ _ _)
  rwa [List.append_nil] at hsame

theorem Inv.setPriority (h : s.Inv) (id : JobId) (priority : Priority) (reply : Reply) :
    (s.setPriority id priority reply).Inv := by
  unfold Actor.setPriority
  split
  · exact h.answer _ _
  next job hjob =>
    have hset : (s.setJob id fun job ↦ { job with priority }).Inv :=
      h.setJob (mem_of_lookup hjob) (fun _ hactive ↦ hactive) fun q o r hold ↦
        ⟨hold.waits, hold.outside, hold.works, hold.again, hold.attempts, hold.replies⟩
    split
    case h_5 => exact h.answer _ _
    all_goals exact hset.accept _

theorem Inv.jobRate (h : s.Inv) (id : JobId) (rate : Option UInt64) (reply : Reply) :
    (s.jobRate id rate reply).Inv := by
  unfold Actor.jobRate
  split
  · exact h.answer _ _
  next job hjob =>
    refine (h.setJob (mem_of_lookup hjob) (fun _ hactive ↦ hactive) fun q o r hold ↦ ?_).accept _
    exact ⟨hold.waits, hold.outside, hold.works, hold.again, hold.attempts, hold.replies⟩

theorem Inv.globalRate (h : s.Inv) (rate : Option UInt64) (reply : Reply) : (s.globalRate rate reply).Inv := by
  have hrate : ({ s with config := { s.config with globalBytesPerSecond := rate } } : Actor PathBuf).Inv :=
    h.frame ⟨rfl, rfl, rfl, rfl, rfl, rfl, ⟨rfl, rfl, rfl⟩⟩
      (h.queueing.quiet (List.append_nil _).symm quiet_nil rfl rfl ⟨rfl, rfl, rfl⟩)
  exact hrate.accept _

theorem mem_filter_ne {queue : List JobId} {id x : JobId} (hx : x ≠ id) : x ∈ queue.filter (· ≠ id) ↔ x ∈ queue := by
  rw [List.mem_filter]
  exact and_iff_left (decide_eq_true hx)

theorem Inv.pause (h : s.Inv) (id : JobId) (reply : Reply) : (s.pause id reply).Inv := by
  unfold Actor.pause
  split
  · exact h.answer _ _
  next job hjob =>
    have hmem := mem_of_lookup hjob
    have hpaused : job.state.active = false →
        ({ s.setJob id fun job ↦ { job with state := .paused, retryAt := none } with
          queue := s.queue.filter (· ≠ id) } : Actor PathBuf).Inv := fun hidle ↦ by
      have hsame := h.change (f := fun job ↦ { job with state := .paused, retryAt := none })
        (s.queue.filter (· ≠ id)) [] hmem (h.queueing.queue_nodup.filter _)
        (fun x hx ↦ mem_filter_ne hx) (fun _ _ ↦ by rw [List.append_nil])
        (fun _ hactive ↦ absurd hactive (not_activeAt rfl))
        (by
          rw [List.append_nil]
          intro hold
          refine hold.rest hidle ?_ ?_ ?_ _ <;> rfl)
      rwa [List.append_nil] at hsame
    split
    next hstate => exact (hpaused (by rw [hstate]; rfl)).accept _
    next hstate => exact (hpaused (by rw [hstate]; rfl)).accept _
    next hstate =>
      refine Inv.flags (h.setJob hmem (fun origin hactive ↦ ?_) fun q o r hold ↦ ?_) true _ _
      · simpa [activeAt, State.active, hstate] using hactive
      · have hactive : job.state.active = true := by rw [hstate]; rfl
        exact ⟨(by rintro ⟨⟩), fun _ ↦ hold.outside (.inl hactive), iff_of_true rfl (hold.works.1 hactive),
          fun hstate' ↦ by simp at hstate', fun _ ↦ hold.attempts (.inl hactive), fun _ ↦ rfl⟩
    next hstate => exact h.accept _
    next => exact h.answer _ _

theorem Inv.refresh (U : UrlLibrary Url UrlOrigin) (sha256 : Bytes → Digest) [DecidableEq UrlOrigin] (h : s.Inv)
    (id : JobId) (url : String) (reply : Reply) (folder : JobFolder) :
    (s.refresh U sha256 id url reply folder).Inv := by
  unfold Actor.refresh
  split
  · exact h.answer _ _
  next job hjob =>
    have hset : job.state.active = false → ∀ options,
        (s.setJob id fun job ↦ { job with options, state := .paused }).Inv := fun hidle options ↦
      h.setJob (mem_of_lookup hjob) (fun _ hactive ↦ absurd hactive (not_activeAt rfl)) fun q o r hold ↦ by
        refine hold.rest hidle ?_ ?_ ?_ _ <;> rfl
    split
    next hstate =>
      split
      · exact h.answer _ _
      · exact (hset (by rw [hstate]; rfl) _).accept _
    next hstate =>
      split
      · exact h.answer _ _
      · exact (hset (by rw [hstate]; rfl) _).accept _
    next => exact h.answer _ _

/-- A job without a worker goes to the queue, where it may have been. -/
theorem Inv.requeue (h : s.Inv) {id : JobId} {job : Job PathBuf} (hmem : (id, job) ∈ s.jobs)
    (hidle : job.state.active = false) {queue : List JobId} (hqueue : queue.Nodup) (hid : id ∈ queue)
    (hothers : ∀ x ≠ id, (x ∈ queue ↔ x ∈ s.queue)) : { s.requeue id with queue }.Inv := by
  refine h.change (f := fun job ↦ { job with state := .queued, attempts := 0, retryAt := none })
    queue [.resumed id] hmem hqueue hothers (fun x hx ↦ ?_)
    (fun _ hactive ↦ absurd hactive (not_activeAt rfl)) fun hold ↦ hold.requeue hidle h.queueing.positive hid
  rw [ranSinceResume_append]
  simp [Note.ran, Ne.symm hx]

theorem Inv.resume (h : s.Inv) (id : JobId) (reply : Reply) : (s.resume id reply).Inv := by
  unfold Actor.resume
  split
  · exact h.answer _ _
  next job hjob =>
    have hqueued : job.state.active = false →
        ({ s.requeue id with queue := s.queue.filter (· ≠ id) ++ [id] } : Actor PathBuf).Inv := fun hidle ↦ by
      refine h.requeue (mem_of_lookup hjob) hidle (nodup_concat (h.queueing.queue_nodup.filter _) (by simp))
        (List.mem_append_right _ (List.mem_singleton_self id)) fun x hx ↦ ?_
      rw [List.mem_append, List.mem_singleton, or_iff_left hx]
      exact mem_filter_ne hx
    split
    next hstate => exact (hqueued (by rw [hstate]; rfl)).accept _
    next hstate => exact (hqueued (by rw [hstate]; rfl)).accept _
    next => exact h.answer _ _

theorem Inv.resumeOne (h : s.Inv) (id : JobId) : (s.resumeOne id).Inv := by
  unfold Actor.resumeOne
  split
  · exact h
  next job hjob =>
    have hqueued : job.state.active = false →
        ({ s.requeue id with queue := if id ∈ s.queue then s.queue else s.queue ++ [id] } : Actor PathBuf).Inv :=
      fun hidle ↦ by
        split
        next hid => exact h.requeue (mem_of_lookup hjob) hidle h.queueing.queue_nodup hid fun _ _ ↦ .rfl
        next hid =>
          refine h.requeue (mem_of_lookup hjob) hidle (nodup_concat h.queueing.queue_nodup hid)
            (List.mem_append_right _ (List.mem_singleton_self id)) fun x hx ↦ ?_
          rw [List.mem_append, List.mem_singleton, or_iff_left hx]
    split
    next hstate => exact hqueued (by rw [hstate]; rfl)
    next hstate => exact hqueued (by rw [hstate]; rfl)
    next => exact h

theorem Inv.resumeAll (h : s.Inv) (reply : Reply) : (s.resumeAll reply).Inv := by
  suffices hall : ∀ (ids : List JobId) (s : Actor PathBuf), s.Inv → (ids.foldl Actor.resumeOne s).Inv from
    (hall s.ordered s h).accept _
  intro ids
  induction ids with
  | nil => exact fun s h ↦ h
  | cons id ids ih => exact fun s h ↦ ih _ (h.resumeOne id)

/-! ### Taking jobs out and in -/

theorem jobs_remove (h : (keys s.jobs).Nodup) (id : JobId) : (s.remove id).jobs = s.jobs.filter (·.1 ≠ id) :=
  eraseP_eq_filter h

theorem mem_keys_remove (h : (keys s.jobs).Nodup) {id x : JobId} :
    x ∈ keys (s.remove id).jobs ↔ x ≠ id ∧ x ∈ keys s.jobs := by
  rw [jobs_remove h, mem_keys, mem_keys]
  simp only [List.mem_filter, decide_eq_true_eq]
  exact ⟨fun ⟨v, hv, hne⟩ ↦ ⟨hne, v, hv⟩, fun ⟨hne, v, hv⟩ ↦ ⟨v, hv, hne⟩⟩

theorem Queueing.remove (h : s.Queueing owned) {id : JobId} (hid : id ∉ owned) : (s.remove id).Queueing owned := by
  have hsub : (s.remove id).jobs.Sublist s.jobs := List.eraseP_sublist
  refine ⟨h.ids.sublist (hsub.map _), h.queue_nodup.filter _, fun x hx ↦ ?_, fun x hx ↦ ?_, fun e he ↦ ?_,
    fun origin ↦ (hsub.countP_le).trans (h.perOrigin origin), h.positive⟩
  · obtain ⟨hx, hne⟩ := List.mem_filter.1 hx
    exact (mem_keys_remove h.ids).2 ⟨by simpa using hne, h.queue_jobs hx⟩
  · exact (mem_keys_remove h.ids).2 ⟨fun heq ↦ hid (heq ▸ hx), h.owned_jobs hx⟩
  · rw [jobs_remove h.ids] at he
    obtain ⟨he, hne⟩ := List.mem_filter.1 he
    show Fits _ (e.1 ∈ s.queue.filter (· ≠ id)) _ _ _
    rw [mem_filter_ne (by simpa using hne)]
    exact h.fits e he

theorem Inv.remove (h : s.Inv) {id : JobId} {job : Job PathBuf} (hmem : (id, job) ∈ s.jobs)
    (hidle : job.state.active = false) : (s.remove id).Inv where
  queueing := h.queueing.remove fun hid ↦ by
    have hactive := (h.queueing.fits _ hmem).works.2 hid
    rw [hidle] at hactive
    cases hactive
  working := h.working.of_eq rfl rfl rfl rfl
  ledger := h.ledger.forget fun x ↦ mem_keys_remove h.queueing.ids
  jobs_le := fun x hx ↦ h.jobs_le x ((mem_keys_remove h.queueing.ids).1 hx).2
  receipts_le := fun receipt hmem ↦ by
    obtain ⟨receipt, hreceipt, rfl⟩ := List.mem_map.1 hmem
    rw [receipt.jobId_forget]
    exact h.receipts_le receipt hreceipt

theorem Inv.forget (h : s.Inv) (id : JobId) (reply : Reply) : (s.forget id reply).Inv := by
  unfold Actor.forget
  split
  · exact h.answer _ _
  next job hjob =>
    split
    · exact h.answer _ _
    next hidle => exact (h.remove (mem_of_lookup hjob) (by simpa using hidle)).accept _

theorem toNat_next {n : UInt64} (h : n.toNat ≠ u64Max) : (n + 1).toNat = n.toNat + 1 := by
  have hlt := n.toNat_lt
  have hmax : u64Max = 2 ^ 64 - 1 := rfl
  have hone : (1 : UInt64).toNat = 1 := rfl
  rw [UInt64.toNat_add, hone, Nat.mod_eq_of_lt (by omega)]

theorem lt_next {n m : UInt64} (h : n.toNat ≠ u64Max) (hm : m ≤ n) : m < n + 1 := by
  rw [UInt64.lt_iff_toNat_lt, toNat_next h]
  exact Nat.lt_succ_of_le (UInt64.le_iff_toNat_le.1 hm)

theorem Inv.lastId (h : s.Inv) (hlast : s.lastId.toNat ≠ u64Max) : { s with lastId := s.lastId + 1 }.Inv where
  queueing := h.queueing.quiet (List.append_nil _).symm quiet_nil rfl rfl ⟨rfl, rfl, rfl⟩
  working := h.working.of_eq rfl rfl rfl rfl
  ledger := h.ledger
  jobs_le := fun id hid ↦ UInt64.le_of_lt (lt_next hlast (h.jobs_le id hid))
  receipts_le := fun receipt hmem ↦ UInt64.le_of_lt (lt_next hlast (h.receipts_le receipt hmem))

variable {options : Options PathBuf} {origin : Origin} {priority : Priority} {key : PathBuf}
  {admission : Option AdmissionHashes} {id : JobId}

theorem Queueing.push (h : s.Queueing owned) (hid : id ∉ keys s.jobs) :
    (s.push options origin priority key admission id).Queueing owned := by
  have hqueue : id ∉ s.queue := fun hmem ↦ hid (h.queue_jobs hmem)
  have hlog : Quiet (admission.map fun hashes ↦ (.receipt hashes.key : Note PathBuf)).toList := by
    rintro n hn x before
    obtain ⟨hashes, -, rfl⟩ := Option.map_eq_some_iff.1 (Option.mem_toList.1 hn)
    rfl
  refine ⟨?_, nodup_concat h.queue_nodup hqueue, ?_, ?_, fun e he ↦ ?_, fun origin' ↦ ?_, h.positive⟩
  · exact (keys_append s.jobs _).symm ▸ nodup_concat h.ids hid
  · show s.queue ++ [id] ⊆ keys (s.jobs ++ [(id, _)])
    rw [keys_append]
    exact List.append_subset.2 ⟨List.subset_append_of_subset_left _ h.queue_jobs, List.subset_append_right _ _⟩
  · show owned ⊆ keys (s.jobs ++ [(id, _)])
    rw [keys_append]
    exact List.subset_append_of_subset_left _ h.owned_jobs
  · show Fits _ (e.1 ∈ s.queue ++ [id]) _ (ranSinceResume (s.log ++ _) e.1) _
    rw [ranSinceResume_quiet hlog]
    rcases List.mem_append.1 he with he | he
    · have hne : e.1 ≠ id := fun heq ↦ hid (heq ▸ mem_keys_of_mem he)
      rw [List.mem_append, List.mem_singleton, or_iff_left hne]
      exact h.fits e he
    · obtain rfl := List.mem_singleton.1 he
      have howned : id ∉ owned := fun hmem ↦ hid (h.owned_jobs hmem)
      exact ⟨fun _ ↦ List.mem_append_right _ (List.mem_singleton_self id),
        fun hstate ↦ by simp [State.active] at hstate, by simp [State.active, howned], fun _ ↦ h.positive,
        fun _ ↦ UInt8.le_of_lt h.positive, nofun⟩
  · show (s.jobs ++ [(id, _)]).countP _ ≤ _
    rw [List.countP_append, List.countP_singleton, if_neg (not_activeAt rfl)]
    exact h.perOrigin origin'

/-- The next identity is new. -/
theorem Inv.push (h : s.Inv) (hlast : s.lastId.toNat ≠ u64Max)
    (hkey : ∀ hashes ∈ admission, hashes.key ∉ s.receipts.map (·.keyHash)) :
    ({ s with lastId := s.lastId + 1 }.push options origin priority key admission ⟨s.lastId + 1⟩).Inv := by
  have hid : (⟨s.lastId + 1⟩ : JobId) ∉ keys s.jobs := fun hmem ↦
    absurd (lt_next hlast (h.jobs_le _ hmem)) (UInt64.lt_irrefl _)
  have hkeys : ∀ jobs : List (JobId × Job PathBuf), keys (s.jobs ++ jobs) = keys s.jobs ++ keys jobs :=
    keys_append s.jobs
  have hnext := h.lastId hlast
  have hreceipts : ∀ receipt ∈ s.receipts, receipt.jobId ≠ ⟨s.lastId + 1⟩ := fun receipt hmem heq ↦
    absurd (lt_next hlast (h.receipts_le receipt hmem)) (by rw [heq]; exact UInt64.lt_irrefl _)
  have hledger := h.ledger.extend hreceipts
  refine ⟨hnext.queueing.push hid, h.working.of_eq rfl rfl rfl rfl, ?_, ?_, ?_⟩
  · show Ledger (keys (s.jobs ++ [_])) (s.receipts ++ _)
    rw [hkeys]
    cases admission with
    | none => exact (List.append_nil s.receipts).symm ▸ hledger
    | some hashes =>
      refine hledger.concat (hkey hashes rfl) (fun hmem ↦ ?_) ?_
      · obtain ⟨receipt, hreceipt, heq⟩ := List.mem_map.1 hmem
        exact hreceipts receipt hreceipt heq
      · simp
  · show ∀ x ∈ keys (s.jobs ++ [_]), x.value ≤ s.lastId + 1
    rw [hkeys, keys_cons, keys_nil]
    intro x hx
    rcases List.mem_append.1 hx with hx | hx
    · exact hnext.jobs_le x hx
    · rw [List.mem_singleton.1 hx]
      exact UInt64.le_refl _
  · show ∀ receipt ∈ s.receipts ++ _, receipt.jobId.value ≤ s.lastId + 1
    intro receipt hmem
    rcases List.mem_append.1 hmem with hmem | hmem
    · exact hnext.receipts_le receipt hmem
    · obtain ⟨hashes, -, rfl⟩ := Option.map_eq_some_iff.1 (Option.mem_toList.1 hmem)
      exact UInt64.le_refl _

theorem Inv.enqueueNew (U : UrlLibrary Url UrlOrigin) [DecidableEq PathBuf] (h : s.Inv) (options : Options PathBuf)
    (priority : Priority) (admission : Option AdmissionHashes) (reply : Reply) (key : Except ManagerError PathBuf)
    (hkey : ∀ hashes ∈ admission, hashes.key ∉ s.receipts.map (·.keyHash)) :
    (s.enqueueNew U options priority admission reply key).Inv := by
  unfold Actor.enqueueNew
  split
  · exact h.answer _ _
  split
  · exact h.answer _ _
  · exact h.answer _ _
  split_ifs with hused hlast hrate
  · exact h.answer _ _
  · exact h.answer _ _
  · exact (h.lastId hlast).answer _ _
  · exact (h.push hlast hkey).accept _

theorem Inv.enqueue (U : UrlLibrary Url UrlOrigin) [DecidableEq PathBuf] (h : s.Inv) (options : Options PathBuf)
    (priority : Priority) (admission : Option AdmissionHashes) (reply : Reply) (key : Except ManagerError PathBuf) :
    (s.enqueue U options priority admission reply key).Inv := by
  unfold Actor.enqueue
  cases admission with
  | none => exact h.enqueueNew U options priority none reply key nofun
  | some hashes =>
    dsimp only
    split
    · exact h.answer _ _
    split
    next receipt _ =>
      split_ifs
      · exact h.answer _ _
      · exact h.answer _ _
      · have hnote : (s.note (.replayed reply hashes.key)).Inv :=
          h.answered (quiet_replayed reply hashes.key) s.dirty s.acknowledgements
        exact hnote.answer _ _
    next hnone =>
      split
      · exact h.answer _ _
      · refine h.enqueueNew U options priority _ reply key ?_
        rintro hashes ⟨⟩ hmem
        obtain ⟨receipt, hreceipt, hkey⟩ := List.mem_map.1 hmem
        exact List.find?_eq_none.1 hnone receipt hreceipt (decide_eq_true hkey)

end Actor

end Fhd.DownloadEngine
