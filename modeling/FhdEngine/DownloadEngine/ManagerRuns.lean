import FhdEngine.DownloadEngine.ManagerCommands

/-!
# Runs of the manager

Whatever queue was recovered, and however commands, joined workers, retries, failed saves and closing interleave:
the invariant holds wherever `run` waits in its select.
-/

namespace Fhd.DownloadEngine

open Table
open Fallible

variable {Url UrlOrigin PathBuf : Type} {U : UrlLibrary Url UrlOrigin} {P : Paths PathBuf} {sha256 : Bytes → Digest}

theorem Ledger.congr {ids ids' : List JobId} {receipts : List Receipt} (h : Ledger ids receipts)
    (hids : ∀ x, x ∈ ids' ↔ x ∈ ids) : Ledger ids' receipts where
  keyHashes := h.keyHashes
  jobIds := h.jobIds
  removed := fun receipt hmem ↦ by rw [h.removed receipt hmem, hids]

/-- A job as it is recovered: it has no worker, and waits for none. -/
structure Resting (job : Job PathBuf) : Prop where
  idle : job.state.active = false
  not_queued : job.state ≠ .queued
  not_waiting : job.state ≠ .retryWaiting
  noReply : job.pauseReply = none

namespace Actor

variable {s s' : Actor PathBuf}

section Steps

variable [DecidableEq UrlOrigin] [DecidableEq PathBuf]

theorem Inv.obey (h : s.Inv) (command : Command PathBuf) (reply : Reply) (key : Except ManagerError PathBuf)
    (folder : JobFolder) : (s.obey U sha256 command reply key folder).Inv := by
  cases command with
  | enqueue options priority admission => exact h.enqueue U options priority admission reply key
  | setPriority id priority => exact h.setPriority id priority reply
  | pause id => exact h.pause id reply
  | resume id => exact h.resume id reply
  | globalRate rate => exact h.globalRate rate reply
  | jobRate id rate => exact h.jobRate id rate reply
  | resumeAll => exact h.resumeAll reply
  | refresh id url => exact h.refresh U sha256 id url reply folder
  | forget id => exact h.forget id reply

theorem Inv.receive (h : s.Inv) (command : Command PathBuf) : (s.receive command).Inv := by
  refine h.frame ⟨rfl, rfl, rfl, rfl, rfl, rfl, ⟨rfl, rfl, rfl⟩⟩ (h.queueing.quiet rfl ?_ rfl rfl ⟨rfl, rfl, rfl⟩)
  intro n hn id before
  rw [List.mem_singleton.1 hn]
  rfl

theorem Inv.select (h : s.Inv) (event : Event PathBuf) : (s.select U sha256 event).Inv := by
  cases event with
  | joined task result now => exact h.join task result now
  | command command key folder =>
    show (if s.closing then s else (s.receive command).obey U sha256 command s.nextReply key folder).Inv
    split
    · exact h
    · exact (h.receive command).obey command _ key folder
  | closed =>
    show (if s.closing then s else s.close).Inv
    split
    · exact h
    · exact h.frame (.close s) h.queueing.close
  | ticked => exact h

theorem Inv.turn (h : s.Inv) (t : Turn PathBuf) : (s.turn U P sha256 t).Inv := by
  unfold Actor.turn
  split
  · exact h
  dsimp only
  split
  · exact (h.await t).leave _
  · exact (h.await t).select _

theorem Inv.run (h : s.Inv) (turns : List (Turn PathBuf)) : (s.run U P sha256 turns).Inv := by
  unfold Actor.run
  induction turns generalizing s with
  | nil => exact h
  | cons t turns ih => exact ih (h.turn t)

end Steps

/-! ### What a run begins with -/

theorem inv_launch {config : Config} {jobs : List (JobId × Job PathBuf)} {store : Bool} {file : Option Bytes}
    {lastId : UInt64} {receipts : List Receipt} {log : List (Note PathBuf)} (hconfig : config.validate = .ok ())
    (hids : (keys jobs).Nodup) (hjobs : ∀ e ∈ jobs, Resting e.2) (hledger : Ledger (keys jobs) receipts)
    (hjobs_le : ∀ id ∈ keys jobs, id.value ≤ lastId) (hreceipts_le : ∀ receipt ∈ receipts, receipt.jobId.value ≤ lastId)
    (hlog : Quiet log) : (launch config jobs store file lastId receipts log).Inv := by
  have hactive := (bounds_of_validate hconfig).2.2.2.2.1.1
  have hran : ∀ id, ranSinceResume ([] ++ log) id = false := fun id ↦ ranSinceResume_quiet hlog id
  refine ⟨⟨hids, hids, List.Subset.refl _, List.nil_subset _, fun e he ↦ ?_, fun origin ↦ ?_, ?_⟩,
    ⟨rfl, List.nodup_nil, nofun, List.nodup_nil, Nat.zero_le _⟩, hledger, hjobs_le, hreceipts_le⟩
  · obtain ⟨hidle, hqueued, hwaiting, hreply⟩ := hjobs e he
    refine ⟨fun hstate ↦ absurd hstate hqueued, fun hbusy ↦ ?_, ?_, fun hstate ↦ ?_, fun hran' ↦ ?_, fun hsome ↦ ?_⟩
    · exact absurd hbusy (by simp [hidle, hwaiting])
    · rw [hidle]
      exact iff_of_false Bool.false_ne_true List.not_mem_nil
    · exact absurd hstate (by simp [hqueued, hwaiting])
    · have hnot : ranSinceResume (launch config jobs store file lastId receipts log).log e.1 = false := hran e.1
      simp [hidle, hnot] at hran'
    · rw [hreply] at hsome
      cases hsome
  · have hnone : jobs.countP (activeAt origin) = 0 := List.countP_eq_zero.2 fun e he ↦ not_activeAt (hjobs e he).idle
    exact hnone.trans_le (Nat.zero_le _)
  · exact UInt8.lt_iff_toNat_lt.2 hactive

section Open

variable [DecidableEq PathBuf]

theorem recoverJob_eq_ok {jobs : List (JobId × Job PathBuf)} {key : Except ManagerError PathBuf}
    {saved : SavedJob PathBuf} {e : JobId × Job PathBuf} (h : recoverJob U P jobs key saved = .ok e) :
    e.1 = saved.id ∧ Resting e.2 := by
  unfold recoverJob at h
  obtain ⟨_, -, h⟩ := bind_eq_ok.1 h
  obtain ⟨_, -, h⟩ := bind_eq_ok.1 h
  dsimp only at h
  split at h
  · cases h
  split at h
  · cases h
  obtain ⟨_, -, h⟩ := bind_eq_ok.1 h
  cases h
  refine ⟨rfl, ?_, ?_, ?_, rfl⟩ <;> cases saved.state <;> simp [State.active]

theorem recoverJobs_eq_ok {keyOf : JobId → Except ManagerError PathBuf} {saved : List (SavedJob PathBuf)}
    {before jobs : List (JobId × Job PathBuf)} (hbefore : ∀ e ∈ before, Resting e.2)
    (h : Reading.eachOf (fun jobs job ↦ recoverJob U P jobs (keyOf job.id) job) saved before = .ok jobs) :
    keys jobs = keys before ++ jobIds saved ∧ ∀ e ∈ jobs, Resting e.2 := by
  induction saved generalizing before with
  | nil =>
    injection h with h
    rw [← h]
    exact ⟨(List.append_nil _).symm, hbefore⟩
  | cons job saved ih =>
    obtain ⟨e, he, h⟩ := bind_eq_ok.1 h
    obtain ⟨hid, hresting⟩ := recoverJob_eq_ok he
    obtain ⟨hkeys, hall⟩ := ih (by
      simp only [List.mem_append, List.mem_singleton]
      rintro e' (he' | rfl)
      · exact hbefore e' he'
      · exact hresting) h
    refine ⟨?_, hall⟩
    rw [hkeys, keys_append, List.append_assoc]
    simp [jobIds, hid]

theorem inv_recover {keyOf : JobId → Except ManagerError PathBuf} {file : Option Bytes} {saved : Snapshot PathBuf}
    (hsaved : saved.WellFormed) (h : recover U P keyOf file saved = .ok s) : s.Inv := by
  unfold recover at h
  split at h
  · cases h
  obtain ⟨jobs, hjobs, h⟩ := bind_eq_ok.1 h
  obtain ⟨hkeys, hresting⟩ := recoverJobs_eq_ok (by simp) hjobs
  rw [← Except.ok.inj h]
  have hperm := List.mergeSort_perm jobs fun a b ↦ saved.queue.idxOf a.1 ≤ saved.queue.idxOf b.1
  have hids : (keys (jobs.mergeSort fun a b ↦ saved.queue.idxOf a.1 ≤ saved.queue.idxOf b.1)).Perm
      (jobIds saved.jobs) := by
    rw [show jobIds saved.jobs = keys jobs from hkeys.symm]
    exact hperm.map Prod.fst
  refine inv_launch hsaved.config (hids.nodup_iff.2 hsaved.jobs) (fun e he ↦ hresting e (hperm.mem_iff.1 he))
    (hsaved.ledger.congr fun x ↦ hids.mem_iff) (fun id hid ↦ hsaved.jobs_le id (hids.mem_iff.1 hid))
    hsaved.receipts_le ?_
  intro n hn id before
  rcases List.mem_append.1 hn with hn | hn
  · obtain ⟨receipt, -, rfl⟩ := List.mem_map.1 hn
    rfl
  · rw [List.mem_singleton.1 hn]
    rfl

end Open

theorem emptySnapshot_wellFormed {config : Config} (h : config.validate = .ok ()) :
    (emptySnapshot config : Snapshot PathBuf).WellFormed :=
  ⟨h, List.nodup_nil, List.nodup_nil, List.nil_subset _,
    ⟨List.nodup_nil, List.nodup_nil, List.forall_mem_nil _⟩, List.forall_mem_nil _, List.forall_mem_nil _⟩

end Actor

/-- What `run` may begin with: nothing, or a queue that was opened, whatever the database held. -/
inductive Launched (U : UrlLibrary Url UrlOrigin) (P : Paths PathBuf) (sha256 : Bytes → Digest)
    [DecidableEq PathBuf] : Actor PathBuf → Prop
  | started {config : Config} {s : Actor PathBuf} (h : Actor.start config = .ok s) : Launched U P sha256 s
  | opened {config : Config} {first : Fate} {keyOf : JobId → Except ManagerError PathBuf} {file : Option Bytes}
      {s : Actor PathBuf} (h : (Actor.openQueue U P sha256 config first keyOf file).2 = .ok s) : Launched U P sha256 s

theorem Launched.inv [DecidableEq PathBuf] {s : Actor PathBuf} (h : Launched U P sha256 s) : s.Inv := by
  cases h with
  | started h =>
    obtain ⟨_, hconfig, h⟩ := bind_eq_ok.1 h
    rw [← Except.ok.inj h]
    exact Actor.inv_launch hconfig List.nodup_nil (List.forall_mem_nil _)
      ⟨List.nodup_nil, List.nodup_nil, List.forall_mem_nil _⟩ (List.forall_mem_nil _) (List.forall_mem_nil _) Actor.quiet_nil
  | @opened config first keyOf file s h =>
    unfold Actor.openQueue at h
    split at h
    · cases h
    next hconfig =>
      split at h
      next bytes =>
        obtain ⟨saved, hdecode, h⟩ := bind_eq_ok.1 h
        exact Actor.inv_recover (decode_wellFormed U P sha256 hdecode) h
      next =>
        split at h
        · cases h
        · exact Actor.inv_recover (Actor.emptySnapshot_wellFormed hconfig) h

/-- What is kept wherever `run` waits in its select. -/
structure Actor.Consistent (s : Actor PathBuf) : Prop where
  jobs : (keys s.jobs).Nodup
  queue : s.queue.Nodup
  queue_jobs : ∀ id ∈ s.queue, ∃ job, (id, job) ∈ s.jobs
  queued : ∀ id job, (id, job) ∈ s.jobs → job.state = .queued → id ∈ s.queue
  /-- The tasks that are owned are those that live, and no two have one number. -/
  workers : s.workers = keys s.owners ∧ s.workers.Nodup
  running : ∀ id job, (id, job) ∈ s.jobs →
    s.owners.countP (·.2 = id) = if job.state = .running ∨ job.state = .pausing then 1 else 0
  owners : ∀ task id, (task, id) ∈ s.owners → ∃ job, (id, job) ∈ s.jobs
  max_active : s.workers.length ≤ s.config.maxActive
  per_origin : ∀ origin, s.jobs.countP (fun e ↦ e.2.origin = origin ∧ (e.2.state = .running ∨ e.2.state = .pausing)) ≤
    s.config.maxPerOrigin
  attempts : ∀ id job, (id, job) ∈ s.jobs → ranSinceResume s.log id → job.attempts ≤ s.config.retry.maxAttempts
  pause_reply : ∀ id job, (id, job) ∈ s.jobs → job.pauseReply.isSome → job.state = .pausing
  receipt_keys : (s.receipts.map (·.keyHash)).Nodup
  receipt_jobs : (s.receipts.map (·.jobId)).Nodup
  removed : ∀ receipt ∈ s.receipts, receipt.removed = true ↔ ¬∃ job, (receipt.jobId, job) ∈ s.jobs
  job_ids : ∀ id job, (id, job) ∈ s.jobs → id.value ≤ s.lastId
  receipt_ids : ∀ receipt ∈ s.receipts, receipt.jobId.value ≤ s.lastId

theorem active_iff {state : State} : state.active = true ↔ state = .running ∨ state = .pausing := by
  cases state <;> simp [State.active]

theorem Actor.Inv.consistent {s : Actor PathBuf} (h : s.Inv) : s.Consistent where
  jobs := h.queueing.ids
  queue := h.queueing.queue_nodup
  queue_jobs := fun id hid ↦ mem_keys.1 (h.queueing.queue_jobs hid)
  queued := fun id job hmem hstate ↦ (h.queueing.fits _ hmem).waits hstate
  workers := ⟨h.working.workers, h.working.workers ▸ h.working.tasks⟩
  running := fun id job hmem ↦ by
    have hworks := (h.queueing.fits _ hmem).works
    have hcount : s.owners.countP (·.2 = id) = s.owned.count id := by
      rw [Actor.owned, List.count, List.countP_map]
      exact List.countP_congr fun e _ ↦ by simp
    rw [hcount, h.working.owned_nodup.count]
    exact if_congr (hworks.symm.trans active_iff) rfl rfl
  owners := fun task id hmem ↦ mem_keys.1 (h.queueing.owned_jobs (List.mem_map_of_mem (f := Prod.snd) hmem))
  max_active := h.working.maxActive
  per_origin := fun origin ↦ by
    refine le_of_eq_of_le (List.countP_congr fun e _ ↦ ?_) (h.queueing.perOrigin origin)
    simp [activeAt, active_iff]
  attempts := fun id job hmem hran ↦ (h.queueing.fits _ hmem).attempts (.inr hran)
  pause_reply := fun id job hmem ↦ (h.queueing.fits _ hmem).replies
  receipt_keys := h.ledger.keyHashes
  receipt_jobs := h.ledger.jobIds
  removed := fun receipt hmem ↦ by rw [h.ledger.removed receipt hmem, mem_keys]
  job_ids := fun id job hmem ↦ h.jobs_le id (mem_keys_of_mem hmem)
  receipt_ids := h.receipts_le

namespace Sample

def library : UrlLibrary String String := { Sample.urls with portOrKnownDefault := fun _ ↦ some 443 }

def paths : Paths String where
  toStr := some
  ofStr text := text
  len := String.utf8ByteSize
  isAbsolute _ := true
  hasDots _ := false
  normalize path := path
  toStr_ofStr _ := rfl
  ofStr_toStr _ _ h := (Option.some.inj h).symm

/-- One download at a time from an origin. -/
def limits : Config := ⟨2, 8, 1, ⟨3, 1000, 30000⟩, none⟩

def queueless : Actor String := .launch limits [] false none 0 [] []

def options (jobDir : String) : Options String :=
  ⟨"https://a/f", jobDir, "f", none, false, 1, 8, none, 1, .default, none⟩

def saving : Saving := ⟨fun _ ↦ none, .saved⟩

def turn (event : Event String) : Turn String := ⟨false, fun _ ↦ 0, saving, fun _ ↦ ⟨saving, false⟩, saving, event⟩

def enqueue (jobDir : String) : Turn String :=
  turn (.command (.enqueue (options jobDir) .normal none) (.ok jobDir) .missing)

end Sample

/-- **The manager's invariant.** -/
theorem manager_consistent [DecidableEq UrlOrigin] [DecidableEq PathBuf] {s : Actor PathBuf}
    (h : Launched U P sha256 s) (turns : List (Turn PathBuf)) (turn : Turn PathBuf) :
    ((s.run U P sha256 turns).await P sha256 turn).Consistent := ((h.inv.run turns).await turn).consistent

theorem Sample.start_eq : Actor.start Sample.limits = .ok Sample.queueless := rfl

/-- Two downloads from one origin: one runs, the other waits. -/
theorem manager_consistent_queueless :
    ((Sample.queueless.run Sample.library Sample.paths (fun _ ↦ .replicate 32 0)
      [Sample.enqueue "/d", Sample.enqueue "/e"]).await Sample.paths (fun _ ↦ .replicate 32 0)
        (Sample.turn .ticked)).Consistent :=
  manager_consistent (U := Sample.library) (.started Sample.start_eq) _ _

example : (((Sample.queueless.run Sample.library Sample.paths (fun _ ↦ .replicate 32 0)
    [Sample.enqueue "/d", Sample.enqueue "/e"]).await Sample.paths (fun _ ↦ .replicate 32 0)
      (Sample.turn .ticked)).queue) = [⟨2⟩] := by decide

end Fhd.DownloadEngine
