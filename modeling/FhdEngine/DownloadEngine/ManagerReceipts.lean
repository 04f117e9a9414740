import FhdEngine.DownloadEngine.ManagerAcks

/-!
# The ledger lasts

As long as it runs, a manager answers for every admission it has entered: the same request is given the job it was
given at first, another request under its key is a conflict, and once the job was taken out nothing is given for the key
again. No id is given to two jobs.

`Succeeds` is what no step takes back. A step that keeps the jobs' ids and the ledger (`Frame`) has it for nothing; what
is left are the command that takes a job out (`remove`) and the one that brings a new one (`push`).
-/

namespace Fhd.DownloadEngine

open Table

variable {Url UrlOrigin PathBuf : Type} {U : UrlLibrary Url UrlOrigin} {P : Paths PathBuf} {sha256 : Bytes → Digest}

/-- The receipt, later: at most its job was taken out. -/
structure Receipt.Stays (receipt receipt' : Receipt) : Prop where
  keyHash : receipt'.keyHash = receipt.keyHash
  payloadHash : receipt'.payloadHash = receipt.payloadHash
  jobId : receipt'.jobId = receipt.jobId

theorem Receipt.Stays.refl (receipt : Receipt) : receipt.Stays receipt := ⟨rfl, rfl, rfl⟩

theorem Receipt.Stays.trans {a b c : Receipt} (h : a.Stays b) (h' : b.Stays c) : a.Stays c :=
  ⟨h'.keyHash.trans h.keyHash, h'.payloadHash.trans h.payloadHash, h'.jobId.trans h.jobId⟩

theorem Receipt.stays_forget (id : JobId) (receipt : Receipt) : receipt.Stays (receipt.forget id) := by
  unfold Receipt.forget
  split
  · exact ⟨rfl, rfl, rfl⟩
  · exact .refl receipt

namespace Actor

variable {s s' s'' : Actor PathBuf}

/-- **What no step takes back.** -/
structure Succeeds (s s' : Actor PathBuf) : Prop where
  lastId : s.lastId ≤ s'.lastId
  /-- A job that is new has an id that was not given before. -/
  fresh : ∀ id ∈ keys s'.jobs, id ∈ keys s.jobs ∨ s.lastId < id.value
  receipts : ∀ receipt ∈ s.receipts, ∃ receipt' ∈ s'.receipts, receipt.Stays receipt'

/-- The jobs' ids and the ledger are as they were. -/
theorem Succeeds.same (hids : keys s'.jobs = keys s.jobs) (hreceipts : s'.receipts = s.receipts)
    (hlastId : s'.lastId = s.lastId) : s.Succeeds s' where
  lastId := UInt64.le_of_eq hlastId.symm
  fresh := fun _ hid ↦ .inl (hids ▸ hid)
  receipts := fun receipt hmem ↦ ⟨receipt, hreceipts ▸ hmem, .refl receipt⟩

theorem Frame.succeeds (h : s.Frame s') : s.Succeeds s' := .same h.ids h.receipts h.lastId

theorem Succeeds.refl (s : Actor PathBuf) : s.Succeeds s := .same rfl rfl rfl

theorem Succeeds.trans (h : s.Succeeds s') (h' : s'.Succeeds s'') : s.Succeeds s'' where
  lastId := UInt64.le_trans h.lastId h'.lastId
  fresh := by
    intro id hid
    rcases h'.fresh id hid with hid | hlt
    · exact h.fresh id hid
    · exact .inr (UInt64.lt_of_le_of_lt h.lastId hlt)
  receipts := by
    intro receipt hmem
    obtain ⟨mid, hmid, hstays⟩ := h.receipts receipt hmem
    obtain ⟨receipt', hmem', hstays'⟩ := h'.receipts mid hmid
    exact ⟨receipt', hmem', hstays.trans hstays'⟩

/-! ### Where `run` waits -/

theorem succeeds_noticeClosed (dropped : Bool) : s.Succeeds (s.noticeClosed dropped) := by
  unfold Actor.noticeClosed
  split
  · exact (Frame.close s).succeeds
  · exact .refl s

theorem succeeds_wakeWaiting (now : JobId → ℕ) : s.Succeeds (s.wakeWaiting now) := by
  unfold Actor.wakeWaiting
  split
  · exact .refl s
  · exact .same (keys_map fun e _ ↦ by split <;> rfl) rfl rfl

theorem succeeds_saveDirty (saving : Saving) : s.Succeeds (s.saveDirty P sha256 saving) := by
  unfold Actor.saveDirty
  split
  · have hsaved := saveState_saved P sha256 saving s
    rcases hsave : s.saveState P sha256 saving with ⟨s', error | ⟨⟩⟩ <;> rw [hsave] at hsaved
    · exact ((Frame.saved hsaved).trans (Frame.fail error s')).succeeds.trans (.same rfl rfl rfl)
    · exact (Frame.saved hsaved).succeeds.trans (.same rfl rfl rfl)
  · exact .refl s

theorem succeeds_startNext (starting : Starting) : s.Succeeds (s.startNext P sha256 starting).1 := by
  have hstarted := startNext_started P sha256 starting s
  generalize s.startNext P sha256 starting = next at hstarted
  rcases next with ⟨s', again⟩
  -- a job leaves the queue and is changed, but it stays
  have hprepared : ∀ index id, s.Succeeds ((s.dequeue index).prepare id) := fun index id ↦
    .same (keys_setJob id _ _) rfl rfl
  cases hstarted with
  | idle => exact .refl _
  | @refused _ id _ s₁ error _ hsaved =>
    exact (hprepared _ id).trans (((Frame.saved hsaved).trans (Frame.fail error s₁)).trans (Frame.setJob id _ _)).succeeds
  | @dropped _ id _ s₁ _ hsaved =>
    exact (hprepared _ id).trans (((Frame.saved hsaved).trans (Frame.close s₁)).trans (Frame.setJob id _ _)).succeeds
  | @started _ id _ s₁ _ hsaved =>
    have hspawned : s₁.Succeeds (s₁.spawn id) := .same (by simp [Actor.spawn]) rfl rfl
    exact (hprepared _ id).trans ((Frame.saved hsaved).succeeds.trans hspawned)

theorem succeeds_startWorkers (starts : ℕ → Starting) (rounds : ℕ) :
    s.Succeeds (s.startWorkers P sha256 starts rounds) := by
  induction rounds generalizing s with
  | zero => exact .refl s
  | succ rounds ih =>
    have hnext : s.Succeeds (s.startNext P sha256 (starts rounds)).1 := succeeds_startNext _
    unfold Actor.startWorkers
    split
    · exact .refl s
    rcases hs : s.startNext P sha256 (starts rounds) with ⟨s', again⟩
    rw [hs] at hnext
    cases again
    · exact hnext
    · exact hnext.trans ih

theorem succeeds_acknowledge (s : Actor PathBuf) : s.Succeeds s.acknowledge := .same rfl rfl rfl

theorem succeeds_await (turn : Turn PathBuf) : s.Succeeds (s.await P sha256 turn) := by
  have hsaved : s.Succeeds (((s.noticeClosed turn.dropped).wakeWaiting turn.now).saveDirty P sha256 turn.save) :=
    (succeeds_noticeClosed turn.dropped).trans ((succeeds_wakeWaiting turn.now).trans (succeeds_saveDirty turn.save))
  exact hsaved.trans ((succeeds_acknowledge _).trans (succeeds_startWorkers turn.starts _))

theorem succeeds_leave (saving : Saving) : s.Succeeds (s.leave P sha256 saving) := by
  unfold Actor.leave
  split
  · have hsaved := saveState_saved P sha256 saving s
    rcases hsave : s.saveState P sha256 saving with ⟨s', error | ⟨⟩⟩ <;> rw [hsave] at hsaved
    · exact (Frame.saved hsaved).succeeds.trans (.same rfl rfl rfl)
    · exact (Frame.saved hsaved).succeeds.trans (.same rfl rfl rfl)
  · exact .same rfl rfl rfl

theorem succeeds_join (task : ℕ) (result : Option (Except Error UInt64)) (now : ℕ) :
    s.Succeeds (s.join task result now) := by
  unfold Actor.join
  split
  · exact .refl s
  split
  · exact .same rfl rfl rfl
  split
  · exact .same rfl rfl rfl
  · unfold Actor.settle
    dsimp only
    split <;> exact .same (by simp [setJob, answer, accept, release, note]) rfl rfl

/-! ### What a command does -/

theorem succeeds_remove (hids : (keys s.jobs).Nodup) (id : JobId) : s.Succeeds (s.remove id) where
  lastId := UInt64.le_refl _
  fresh := fun _ hid ↦ .inl ((mem_keys_remove hids).1 hid).2
  receipts := fun receipt hmem ↦ ⟨receipt.forget id, List.mem_map_of_mem hmem, receipt.stays_forget id⟩

/-- The counter goes on, whether or not a job comes of it. -/
theorem succeeds_lastId (hlast : s.lastId.toNat ≠ u64Max) : s.Succeeds { s with lastId := s.lastId + 1 } where
  lastId := UInt64.le_of_lt (lt_next hlast (UInt64.le_refl _))
  fresh := fun _ hid ↦ .inl hid
  receipts := fun receipt hmem ↦ ⟨receipt, hmem, .refl receipt⟩

theorem succeeds_push {options : Options PathBuf} {origin : Origin} {priority : Priority} {key : PathBuf}
    {admission : Option AdmissionHashes} (hlast : s.lastId.toNat ≠ u64Max) :
    s.Succeeds ({ s with lastId := s.lastId + 1 }.push options origin priority key admission ⟨s.lastId + 1⟩) where
  lastId := (succeeds_lastId hlast).lastId
  fresh := by
    intro id hid
    rcases List.mem_append.1 ((keys_append s.jobs _) ▸ hid : id ∈ keys s.jobs ++ _) with hid | hid
    · exact .inl hid
    · rw [List.mem_singleton.1 hid]
      exact .inr (lt_next hlast (UInt64.le_refl _))
  receipts := fun receipt hmem ↦ ⟨receipt, List.mem_append_left _ hmem, .refl receipt⟩

theorem succeeds_resumeAll (ids : List JobId) : s.Succeeds (ids.foldl resumeOne s) := by
  induction ids generalizing s with
  | nil => exact .refl s
  | cons id ids ih =>
    refine Succeeds.trans ?_ ih
    unfold Actor.resumeOne
    split
    · exact .refl s
    · split
      case h_3 => exact .refl s
      all_goals exact .same (by simp [requeue]) rfl rfl

section Obey

variable [DecidableEq UrlOrigin] [DecidableEq PathBuf]

theorem succeeds_enqueueNew (options : Options PathBuf) (priority : Priority) (admission : Option AdmissionHashes)
    (reply : Reply) (key : Except ManagerError PathBuf) :
    s.Succeeds (s.enqueueNew U options priority admission reply key) := by
  unfold Actor.enqueueNew
  split
  · exact .same rfl rfl rfl
  split
  · exact .same rfl rfl rfl
  · exact .same rfl rfl rfl
  split
  · exact .same rfl rfl rfl
  split
  · exact .same rfl rfl rfl
  next hlast =>
    dsimp only
    split
    · exact (succeeds_lastId hlast).trans (.same rfl rfl rfl)
    · exact (succeeds_push hlast).trans (.same rfl rfl rfl)

theorem succeeds_enqueue (options : Options PathBuf) (priority : Priority) (admission : Option AdmissionHashes)
    (reply : Reply) (key : Except ManagerError PathBuf) :
    s.Succeeds (s.enqueue U options priority admission reply key) := by
  unfold Actor.enqueue
  cases admission with
  | none => exact succeeds_enqueueNew options priority none reply key
  | some hashes =>
    dsimp only
    split
    · exact .same rfl rfl rfl
    split
    · split_ifs <;> exact .same rfl rfl rfl
    · split
      · exact .same rfl rfl rfl
      · exact succeeds_enqueueNew options priority _ reply key

theorem succeeds_obey (hids : (keys s.jobs).Nodup) (command : Command PathBuf) (reply : Reply)
    (key : Except ManagerError PathBuf) (folder : JobFolder) :
    s.Succeeds (s.obey U sha256 command reply key folder) := by
  cases command with
  | enqueue options priority admission => exact succeeds_enqueue options priority admission reply key
  | forget id =>
    show s.Succeeds (s.forget id reply)
    unfold Actor.forget
    split
    · exact .same rfl rfl rfl
    split
    · exact .same rfl rfl rfl
    · exact (succeeds_remove hids id).trans (.same rfl rfl rfl)
  | resumeAll => exact (succeeds_resumeAll s.ordered).trans (.same rfl rfl rfl)
  | globalRate rate => exact .same rfl rfl rfl
  | jobRate id rate =>
    show s.Succeeds (s.jobRate id rate reply)
    unfold Actor.jobRate
    split
    · exact .same rfl rfl rfl
    · exact .same (by simp [accept]) rfl rfl
  | setPriority id priority =>
    show s.Succeeds (s.setPriority id priority reply)
    unfold Actor.setPriority
    split
    · exact .same rfl rfl rfl
    split
    case h_5 => exact .same rfl rfl rfl
    all_goals exact .same (by simp [accept]) rfl rfl
  | pause id =>
    show s.Succeeds (s.pause id reply)
    unfold Actor.pause
    split
    · exact .same rfl rfl rfl
    split
    case h_4 | h_5 => exact .same rfl rfl rfl
    all_goals exact .same (by simp [accept]) rfl rfl
  | resume id =>
    show s.Succeeds (s.resume id reply)
    unfold Actor.resume
    split
    · exact .same rfl rfl rfl
    split
    case h_3 => exact .same rfl rfl rfl
    all_goals exact .same (by simp [requeue, accept]) rfl rfl
  | refresh id url =>
    show s.Succeeds (s.refresh U sha256 id url reply folder)
    unfold Actor.refresh
    split
    · exact .same rfl rfl rfl
    split
    case h_3 => exact .same rfl rfl rfl
    all_goals
      split
      · exact .same rfl rfl rfl
      · exact .same (by simp [accept]) rfl rfl

theorem succeeds_select (hids : (keys s.jobs).Nodup) (event : Event PathBuf) :
    s.Succeeds (s.select U sha256 event) := by
  cases event with
  | joined task result now => exact succeeds_join task result now
  | command command key folder =>
    show s.Succeeds (if s.closing then s else (s.receive command).obey U sha256 command s.nextReply key folder)
    split
    · exact .refl s
    · have hreceived : s.Succeeds (s.receive command) := .same rfl rfl rfl
      exact hreceived.trans (succeeds_obey (s := s.receive command) hids command s.nextReply key folder)
  | closed =>
    show s.Succeeds (if s.closing then s else s.close)
    split
    · exact .refl s
    · exact (Frame.close s).succeeds
  | ticked => exact .refl s

theorem Inv.succeeds_turn (h : s.Inv) (t : Turn PathBuf) : s.Succeeds (s.turn U P sha256 t) := by
  unfold Actor.turn
  split
  · exact .refl s
  dsimp only
  split
  · exact (succeeds_await t).trans (succeeds_leave _)
  · exact (succeeds_await t).trans (succeeds_select (h.await t).queueing.ids t.event)

theorem Inv.succeeds_run (h : s.Inv) (turns : List (Turn PathBuf)) : s.Succeeds (s.run U P sha256 turns) := by
  unfold Actor.run
  induction turns generalizing s with
  | nil => exact .refl s
  | cons t turns ih => exact (h.succeeds_turn t).trans (ih (h.turn t))

/-! ### The same key, again -/

/-- What is answered for a key that is in the ledger. -/
def answerAgain (receipt : Receipt) (hashes : AdmissionHashes) (reply : Reply) (s : Actor PathBuf) : Actor PathBuf :=
  if !s.store then s.answer reply (.error .notDurable)
  else if receipt.payloadHash ≠ hashes.payload then s.answer reply (.error .idempotencyConflict)
  else if receipt.jobId ∈ keys s.jobs then (s.note (.replayed reply hashes.key)).answer reply (.ok (some receipt.jobId))
  else s.answer reply (.error .previouslyRemoved)

theorem Inv.enqueue_again (h : s.Inv) {receipt : Receipt} (hmem : receipt ∈ s.receipts) {hashes : AdmissionHashes}
    (hkey : hashes.key = receipt.keyHash) (options : Options PathBuf) (priority : Priority) (reply : Reply)
    (key : Except ManagerError PathBuf) :
    s.enqueue U options priority (some hashes) reply key = s.answerAgain receipt hashes reply := by
  have hfind : s.receipts.find? (·.keyHash = hashes.key) = some receipt := by
    have hsome : (s.receipts.find? (·.keyHash = hashes.key)).isSome :=
      List.find?_isSome.2 ⟨receipt, hmem, by simp [hkey]⟩
    obtain ⟨found, hfound⟩ := Option.isSome_iff_exists.1 hsome
    have hfoundKey : found.keyHash = hashes.key := by simpa using List.find?_some hfound
    -- the ledger has one receipt for a key
    rw [hfound, List.inj_on_of_nodup_map h.ledger.keyHashes (List.mem_of_find?_eq_some hfound) hmem (hfoundKey.trans hkey)]
  have hremoved := h.ledger.removed receipt hmem
  unfold Actor.enqueue answerAgain
  simp only [hfind]
  split
  · rfl
  split
  · rfl
  by_cases hjob : receipt.jobId ∈ keys s.jobs
  · rw [if_pos hjob, if_neg (by simpa [hremoved] using hjob)]
  · rw [if_neg hjob, if_pos (by simpa [hremoved] using hjob)]

end Obey

/-- **What a manager still answers for**, at a later moment. -/
structure AnswersFor (U : UrlLibrary Url UrlOrigin) (sha256 : Bytes → Digest) [DecidableEq UrlOrigin]
    [DecidableEq PathBuf] (s s' : Actor PathBuf) : Prop where
  /-- Every id of a job or a receipt has been given. -/
  given : (∀ id ∈ keys s.jobs, id.value ≤ s.lastId) ∧ ∀ receipt ∈ s.receipts, receipt.jobId.value ≤ s.lastId
  /-- No id is given again: a job that is not there does not come back, and no other comes under its id. -/
  once : ∀ id, id.value ≤ s.lastId → id ∈ keys s'.jobs → id ∈ keys s.jobs
  receipts : ∀ receipt ∈ s.receipts, ∃ receipt' ∈ s'.receipts, receipt.Stays receipt'
  /-- A key of the ledger brings no second job, and changes nothing. -/
  again : ∀ receipt ∈ s.receipts, ∀ options priority hashes key folder, hashes.key = receipt.keyHash →
    s'.closing = false → s'.select U sha256 (.command (.enqueue options priority (some hashes)) key folder) =
      (s'.receive (.enqueue options priority (some hashes))).answerAgain receipt hashes s'.nextReply

theorem Inv.answersFor [DecidableEq UrlOrigin] [DecidableEq PathBuf] (h : s.Inv) (h' : s'.Inv)
    (hsucceeds : s.Succeeds s') : s.AnswersFor U sha256 s' where
  given := ⟨h.jobs_le, h.receipts_le⟩
  once := by
    intro id hle hid
    rcases hsucceeds.fresh id hid with hid | hlt
    · exact hid
    · exact absurd hle (UInt64.not_le.2 hlt)
  receipts := hsucceeds.receipts
  again := by
    intro receipt hmem options priority hashes key folder hkey hopen
    obtain ⟨receipt', hmem', hstays⟩ := hsucceeds.receipts receipt hmem
    have hagain := (h'.receive (.enqueue options priority (some hashes))).enqueue_again (U := U) hmem'
      (hkey.trans hstays.keyHash.symm) options priority s'.nextReply key
    have hsame : ∀ s₁ : Actor PathBuf, s₁.answerAgain receipt' hashes s'.nextReply =
        s₁.answerAgain receipt hashes s'.nextReply := by
      intro s₁
      unfold Actor.answerAgain
      rw [hstays.payloadHash, hstays.jobId]
    show (if s'.closing then s' else _) = _
    rw [hopen, if_neg Bool.false_ne_true]
    exact hagain.trans (hsame _)

end Actor

/-- **A manager answers for what it has accepted**: from any moment of any run on, wherever `run` waits in its select. -/
theorem admissions_last [DecidableEq UrlOrigin] [DecidableEq PathBuf] {s : Actor PathBuf}
    (h : Launched U P sha256 s) (turns later : List (Turn PathBuf)) (turn : Turn PathBuf) :
    (s.run U P sha256 turns).AnswersFor U sha256 (((s.run U P sha256 turns).run U P sha256 later).await P sha256 turn) := by
  have hinv : (s.run U P sha256 turns).Inv := h.inv.run turns
  have hlater : ((s.run U P sha256 turns).run U P sha256 later).Inv := hinv.run later
  exact hinv.answersFor (hlater.await turn) ((hinv.succeeds_run later).trans (Actor.succeeds_await turn))

/-- A download is accepted and then forgotten. -/
theorem admissions_last_opened : ∃ s s' : Actor String, s.receipts.length = 1 ∧ s.jobs.length = 1 ∧ s'.jobs = [] ∧
    s'.closing = false ∧ s.AnswersFor Sample.library Sample.digest s' := by
  have hlast := admissions_last (.opened Sample.openQueue_eq)
    [Sample.enqueueOnce "/d" ⟨.replicate 32 1, .replicate 32 2⟩]
    [Sample.turn (.command (.pause ⟨1⟩) (.ok "/d") .missing), Sample.turn (.joined 0 none 0),
      Sample.turn (.command (.forget ⟨1⟩) (.ok "/d") .missing)] (Sample.turn .ticked)
  exact ⟨_, _, by decide +kernel, by decide +kernel, by decide +kernel, by decide +kernel, hlast⟩

end Fhd.DownloadEngine
