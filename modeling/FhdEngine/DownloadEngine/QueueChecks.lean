import FhdEngine.DownloadEngine.QueueStore
import FhdEngine.Library.Fallible

/-!
# What a queue that can be read is known to be

Whatever bytes are found in the database, a snapshot that `decode` accepts is well formed: identities are
distinct, the queue is a list of jobs, a receipt is removed exactly if its job is, and no identity is beyond the
last one.
-/

namespace Fhd.DownloadEngine

open Fallible
open Reading (Yields)

variable {Url UrlOrigin PathBuf : Type} (U : UrlLibrary Url UrlOrigin) (P : Paths PathBuf)
  (sha256 : Bytes → Digest)

/-- The identities of saved jobs. -/
def jobIds (jobs : List (SavedJob PathBuf)) : List JobId := jobs.map (·.id)

/-- Receipts that differ in their key and in their job, each removed exactly if its job is. -/
structure Ledger (ids : List JobId) (receipts : List Receipt) : Prop where
  keyHashes : (receipts.map (·.keyHash)).Nodup
  jobIds : (receipts.map (·.jobId)).Nodup
  removed : ∀ receipt ∈ receipts, receipt.removed = true ↔ receipt.jobId ∉ ids

structure Snapshot.WellFormed (s : Snapshot PathBuf) : Prop where
  config : s.config.validate = .ok ()
  jobs : (jobIds s.jobs).Nodup
  queue : s.queue.Nodup
  queued : s.queue ⊆ jobIds s.jobs
  ledger : Ledger (jobIds s.jobs) s.receipts
  jobs_le : ∀ id ∈ jobIds s.jobs, id.value ≤ s.lastId
  receipts_le : ∀ receipt ∈ s.receipts, receipt.jobId.value ≤ s.lastId

/-- A configuration within its limits. -/
theorem bounds_of_validate {c : Config} (h : c.validate = .ok ()) :
    (1 ≤ c.maxActive ∧ c.maxActive ≤ 32) ∧ (1 ≤ c.maxJobs ∧ c.maxJobs ≤ 1024) ∧ c.maxActive ≤ c.maxJobs ∧
      (1 ≤ c.maxPerOrigin ∧ c.maxPerOrigin ≤ c.maxActive) ∧
      (1 ≤ c.retry.maxAttempts.toNat ∧ c.retry.maxAttempts.toNat ≤ 5) ∧
      validLimit c.globalBytesPerSecond = true := by
  unfold Config.validate at h
  split at h
  · cases h
  next hno =>
    simp only [not_or, not_not, Bool.not_eq_true', Bool.not_eq_false, not_lt] at hno
    exact ⟨hno.1, hno.2.1, hno.2.2.1, hno.2.2.2.1, hno.2.2.2.2.1, hno.2.2.2.2.2.2.2⟩

theorem ne_zero_of_validLimit {value : Option UInt64} (h : validLimit value = true) : value ≠ some 0 := by
  rintro rfl
  cases h

theorem mem_jobIds {jobs : List (SavedJob PathBuf)} {id : JobId} : id ∈ jobIds jobs ↔ ∃ job ∈ jobs, job.id = id :=
  List.mem_map

theorem nodup_concat {α : Type} {l : List α} {a : α} (h : l.Nodup) (ha : a ∉ l) : (l ++ [a]).Nodup :=
  h.append (List.nodup_singleton a) (List.disjoint_singleton.2 ha)

theorem yields_jobs (version : Bytes) (count : ℕ) :
    Yields (Reader.jobs U P version count) fun jobs ↦ (jobIds jobs).Nodup := by
  refine Yields.each (fun before hbefore ↦ Yields.after fun id ↦ ?_) List.nodup_nil
  refine Yields.failIf.bind fun _ hnew ↦ ?_
  refine Yields.after fun _ ↦ Yields.after fun _ ↦ Yields.after fun _ ↦ Yields.after fun _ ↦ Yields.after fun _ ↦
    Yields.after fun _ ↦ .pure ?_
  rw [jobIds, List.map_append]
  exact nodup_concat hbefore fun hid ↦ hnew (.inr (mem_jobIds.1 hid))

theorem yields_queue (jobs : List (SavedJob PathBuf)) (count : ℕ) :
    Yields (Reader.queue jobs count) fun queue ↦ queue.Nodup ∧ queue ⊆ jobIds jobs := by
  refine Yields.each (fun before hbefore ↦ Yields.after fun id ↦ Yields.failIf.bind fun _ hnew ↦ .pure ?_)
    ⟨List.nodup_nil, List.nil_subset _⟩
  obtain ⟨hnew, hjob⟩ := not_or.1 hnew
  exact ⟨nodup_concat hbefore.1 hnew,
    List.append_subset.2 ⟨hbefore.2, by simpa [mem_jobIds] using hjob⟩⟩

theorem Ledger.concat {ids : List JobId} {receipts : List Receipt} {receipt : Receipt} (h : Ledger ids receipts)
    (hkey : receipt.keyHash ∉ receipts.map (·.keyHash)) (hjob : receipt.jobId ∉ receipts.map (·.jobId))
    (hremoved : receipt.removed = true ↔ receipt.jobId ∉ ids) : Ledger ids (receipts ++ [receipt]) where
  keyHashes := by
    rw [List.map_append]
    exact nodup_concat h.keyHashes hkey
  jobIds := by
    rw [List.map_append]
    exact nodup_concat h.jobIds hjob
  removed := by
    simp only [List.mem_append, List.mem_singleton]
    rintro other (hother | rfl)
    · exact h.removed other hother
    · exact hremoved

theorem yields_receipts (jobs : List (SavedJob PathBuf)) (count : ℕ) :
    Yields (Reader.receipts jobs count) fun receipts ↦ Ledger (jobIds jobs) receipts := by
  refine Yields.each (fun before hbefore ↦ ?_) ⟨List.nodup_nil, List.nodup_nil, nofun⟩
  refine Yields.after fun keyHash ↦ Yields.after fun payloadHash ↦ Yields.after fun jobId ↦
    Yields.after fun removed ↦ Yields.failIf.bind fun _ hnew ↦ .pure ?_
  simp only [not_or, not_exists, not_and] at hnew
  obtain ⟨-, hnew, hremoved⟩ := hnew
  refine hbefore.concat ?_ ?_ ?_
  · intro hkey
    obtain ⟨other, hother, hkey⟩ := List.mem_map.1 hkey
    exact (hnew other hother).1 hkey
  · intro hjob
    obtain ⟨other, hother, hjob⟩ := List.mem_map.1 hjob
    exact (hnew other hother).2 hjob
  · rw [mem_jobIds]
    by_cases hjob : ∃ job ∈ jobs, job.id = ⟨jobId⟩ <;> simp_all

theorem le_maximumId {jobs : List (SavedJob PathBuf)} {id : JobId} (h : id ∈ jobIds jobs) :
    id.value ≤ maximumId jobs := by
  induction jobs with
  | nil => cases h
  | cons job jobs ih =>
    show id.value ≤ if job.id.value ≤ maximumId jobs then maximumId jobs else job.id.value
    rcases List.mem_cons.1 h with rfl | h
    · split
      next hle => exact hle
      next => exact UInt64.le_refl _
    · have hle := ih h
      split
      next => exact hle
      next hlt => exact UInt64.le_trans hle (UInt64.le_of_lt (UInt64.not_le.1 hlt))

/-- Everything that is checked while the fields are read. -/
def Fields (s : Snapshot PathBuf) : Prop :=
  s.config.validate = .ok () ∧ (jobIds s.jobs).Nodup ∧ (s.queue.Nodup ∧ s.queue ⊆ jobIds s.jobs) ∧
    Ledger (jobIds s.jobs) s.receipts

theorem yields_config : Yields Reader.config fun config ↦ config.validate = .ok () := by
  refine Yields.after fun _ ↦ Yields.after fun _ ↦ Yields.after fun _ ↦ Yields.after fun _ ↦ Yields.after fun _ ↦
    Yields.after fun _ ↦ Yields.after fun _ ↦ ?_
  exact Yields.ofExcept.bind fun _ h ↦ .pure h

theorem yields_snapshot : Yields (Reader.snapshot U P) fun read ↦ Fields read.2 := by
  refine Yields.after fun version ↦ Yields.after fun _ ↦ yields_config.bind fun config hconfig ↦ ?_
  dsimp only
  split <;>
    refine Yields.after fun savedLastId ↦ Yields.after fun _ ↦ (yields_jobs U P version _).bind fun jobs hjobs ↦
      Yields.after fun _ ↦ (yields_queue jobs _).bind fun queue hqueue ↦ ?_ <;>
    split
  case isTrue.isTrue | isFalse.isTrue =>
    exact Yields.after fun _ ↦ (yields_receipts jobs _).bind fun receipts hreceipts ↦
      .pure ⟨hconfig, hjobs, hqueue, hreceipts⟩
  case isTrue.isFalse | isFalse.isFalse =>
    exact .pure ⟨hconfig, hjobs, hqueue, List.nodup_nil, List.nodup_nil, nofun⟩

/-- **Whatever is read is well formed.** -/
theorem decode_wellFormed {bytes : Bytes} {s : Snapshot PathBuf} (h : decode U P sha256 bytes = .ok s) :
    s.WellFormed := by
  unfold decode at h
  split at h
  · cases h
  dsimp only at h
  split at h
  · cases h
  obtain ⟨⟨⟨savedLastId, fields⟩, rest⟩, hread, h⟩ := bind_eq_ok.1 h
  obtain ⟨hconfig, hjobs, ⟨hqueue, hqueued⟩, hledger⟩ := yields_snapshot U P _ _ _ hread
  dsimp only at h
  split at h
  · cases h
  split at h
  · cases h
  next hlast =>
    obtain ⟨hjob, hreceipt⟩ := not_or.1 hlast
    cases h
    refine ⟨hconfig, hjobs, hqueue, hqueued, hledger, fun id hid ↦ ?_, fun receipt hmem ↦ ?_⟩
    · exact UInt64.le_trans (le_maximumId hid) (UInt64.not_lt.1 hjob)
    · exact UInt64.not_lt.1 fun hlt ↦ hreceipt ⟨receipt, hmem, hlt⟩

end Fhd.DownloadEngine
