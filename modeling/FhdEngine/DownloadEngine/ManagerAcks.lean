import FhdEngine.DownloadEngine.ManagerRuns
import FhdEngine.Library.Journal

/-!
# The manager answers what it has saved

The log of a durable manager is a journal in which no command is answered with success before a save that was
begun after its change, and after a save has failed nothing is answered with success and no worker is started.
`Kept` is the invariant: nothing that waits for an answer, and no receipt, is beyond the last save unless the
manager is dirty.
-/

namespace Fhd.DownloadEngine

open Table
open Journal
open Fallible

variable {Url UrlOrigin PathBuf : Type} {U : UrlLibrary Url UrlOrigin} {P : Paths PathBuf} {sha256 : Bytes → Digest}

/-! ### What the journal says -/

def Note.isSaved : Note PathBuf → Prop
  | .saved _ => True
  | _ => False

def Note.isUnsaved : Note PathBuf → Prop
  | .unsaved _ => True
  | _ => False

/-- The effect of a command was saved: its own change, or the receipt that answers it. -/
def Backed (log : List (Note PathBuf)) (reply : Reply) : Prop :=
  Followed log (.changed reply) Note.isSaved ∨
    ∃ keyHash, .replayed reply keyHash ∈ log ∧ Followed log (.receipt keyHash) Note.isSaved

/-- What may be noted after what. -/
def Allowed (before : List (Note PathBuf)) : Note PathBuf → Prop
  | .answered reply (.ok _) => Backed before reply ∧ ∀ n ∈ before, ¬n.isUnsaved
  | .started _ _ => ∀ n ∈ before, ¬n.isUnsaved
  | _ => True

/-- A note that needs nothing before it, and that is of no failed save and no worker. -/
def Note.Plain (n : Note PathBuf) : Prop :=
  (∀ before, Allowed before n) ∧ ¬n.isUnsaved ∧ ∀ task id, n ≠ .started task id

/-- Every worker that was started lives, or was joined since. -/
def Tended (log : List (Note PathBuf)) (workers : List ℕ) : Prop :=
  ∀ before task id after, log = before ++ .started task id :: after → task ∈ workers ∨ .joined task ∈ after

namespace Actor

variable {s s' s'' : Actor PathBuf}

/-! ### What a command does -/

/-- Jobs, queue, rates and ledger are changed, and no more is noted than receipts and resumptions. -/
structure Alters (s s' : Actor PathBuf) : Prop where
  acknowledgements : s'.acknowledgements = s.acknowledgements
  failure : s'.failure = s.failure
  closing : s'.closing = s.closing
  store : s'.store = s.store
  workers : s'.workers = s.workers
  returned : s'.returned = s.returned
  log : ∃ log, s'.log = s.log ++ log ∧ ∀ n ∈ log, (∃ keyHash, n = .receipt keyHash) ∨ ∃ id, n = .resumed id
  receipts : ∀ receipt ∈ s'.receipts,
    (∃ old ∈ s.receipts, old.keyHash = receipt.keyHash) ∨ .receipt receipt.keyHash ∈ s'.log

theorem Alters.quiet (hacks : s'.acknowledgements = s.acknowledgements) (hfailure : s'.failure = s.failure)
    (hclosing : s'.closing = s.closing) (hstore : s'.store = s.store) (hworkers : s'.workers = s.workers)
    (hreturned : s'.returned = s.returned) (hlog : s'.log = s.log) (hreceipts : s'.receipts = s.receipts) :
    s.Alters s' :=
  ⟨hacks, hfailure, hclosing, hstore, hworkers, hreturned, ⟨[], by rw [hlog, List.append_nil], nofun⟩,
    fun receipt hmem ↦ .inl ⟨receipt, hreceipts ▸ hmem, rfl⟩⟩

theorem Alters.refl (s : Actor PathBuf) : s.Alters s := .quiet rfl rfl rfl rfl rfl rfl rfl rfl

theorem Alters.trans (h : s.Alters s') (h' : s'.Alters s'') : s.Alters s'' where
  acknowledgements := h'.acknowledgements.trans h.acknowledgements
  failure := h'.failure.trans h.failure
  closing := h'.closing.trans h.closing
  store := h'.store.trans h.store
  workers := h'.workers.trans h.workers
  returned := h'.returned.trans h.returned
  log := by
    obtain ⟨log, hlog, hnotes⟩ := h.log
    obtain ⟨log', hlog', hnotes'⟩ := h'.log
    refine ⟨log ++ log', by rw [hlog', hlog, List.append_assoc], fun n hn ↦ ?_⟩
    exact (List.mem_append.1 hn).elim (hnotes n) (hnotes' n)
  receipts := fun receipt hmem ↦ by
    obtain ⟨log', hlog', -⟩ := h'.log
    rcases h'.receipts receipt hmem with ⟨mid, hmid, heq⟩ | hnote
    · rcases h.receipts mid hmid with ⟨old, hold, heq'⟩ | hnote
      · exact .inl ⟨old, hold, heq'.trans heq⟩
      · exact .inr (hlog' ▸ List.mem_append_left _ (heq ▸ hnote))
    · exact .inr hnote

/-- **How a command comes out.** -/
inductive Obeyed (s : Actor PathBuf) (reply : Reply) : Actor PathBuf → Prop
  | refused (error : ManagerError) (lastId : UInt64) : Obeyed s reply ({ s with lastId }.answer reply (.error error))
  | replayed {receipt : Receipt} (hmem : receipt ∈ s.receipts) :
      Obeyed s reply ((s.note (.replayed reply receipt.keyHash)).answer reply (.ok (some receipt.jobId)))
  /-- A worker is asked to stop; the answer comes when it is joined. -/
  | asked {s' : Actor PathBuf} (h : s.Alters s') (hdirty : s'.dirty = true) : Obeyed s reply s'
  | accepted {s' : Actor PathBuf} {acknowledge : Acknowledge} (h : s.Alters s') (hreply : acknowledge.reply = reply) :
      Obeyed s reply (s'.accept acknowledge)

theorem Obeyed.refuse (error : ManagerError) (reply : Reply) : Obeyed s reply (s.answer reply (.error error)) :=
  .refused error s.lastId

section Obey

variable [DecidableEq UrlOrigin] [DecidableEq PathBuf]

theorem enqueueNew_obeyed (options : Options PathBuf) (priority : Priority) (admission : Option AdmissionHashes)
    (reply : Reply) (key : Except ManagerError PathBuf) :
    Obeyed s reply (s.enqueueNew U options priority admission reply key) := by
  unfold Actor.enqueueNew
  split
  · exact .refuse _ _
  split
  · exact .refuse _ _
  · exact .refuse _ _
  split_ifs
  · exact .refuse _ _
  · exact .refuse _ _
  · exact .refused _ (s.lastId + 1)
  · refine .accepted ⟨rfl, rfl, rfl, rfl, rfl, rfl, ⟨_, rfl, fun n hn ↦ ?_⟩, fun receipt hmem ↦ ?_⟩ rfl
    · obtain ⟨hashes, -, rfl⟩ := Option.map_eq_some_iff.1 (Option.mem_toList.1 hn)
      exact .inl ⟨_, rfl⟩
    · rcases List.mem_append.1 hmem with hmem | hmem
      · exact .inl ⟨receipt, hmem, rfl⟩
      · obtain ⟨hashes, heq, rfl⟩ := Option.map_eq_some_iff.1 (Option.mem_toList.1 hmem)
        exact .inr (List.mem_append_right _ (Option.mem_toList.2 (Option.map_eq_some_iff.2 ⟨hashes, heq, rfl⟩)))

theorem enqueue_obeyed (options : Options PathBuf) (priority : Priority) (admission : Option AdmissionHashes)
    (reply : Reply) (key : Except ManagerError PathBuf) :
    Obeyed s reply (s.enqueue U options priority admission reply key) := by
  unfold Actor.enqueue
  cases admission with
  | none => exact enqueueNew_obeyed options priority none reply key
  | some hashes =>
    dsimp only
    split
    · exact .refuse _ _
    split
    next receipt hfound =>
      have hkey : receipt.keyHash = hashes.key := by simpa using List.find?_some hfound
      split_ifs
      · exact .refuse _ _
      · exact .refuse _ _
      · exact hkey ▸ .replayed (List.mem_of_find?_eq_some hfound)
    next =>
      split
      · exact .refuse _ _
      · exact enqueueNew_obeyed options priority _ reply key

theorem resumeOne_alters (s : Actor PathBuf) (id : JobId) : s.Alters (s.resumeOne id) := by
  unfold Actor.resumeOne
  split
  · exact .refl s
  · split
    case h_3 => exact .refl s
    all_goals
      exact ⟨rfl, rfl, rfl, rfl, rfl, rfl,
        ⟨[.resumed id], rfl, fun n hn ↦ .inr ⟨id, List.mem_singleton.1 hn⟩⟩, fun receipt hmem ↦ .inl ⟨receipt, hmem, rfl⟩⟩

theorem resumeAll_alters (ids : List JobId) (s : Actor PathBuf) : s.Alters (ids.foldl resumeOne s) := by
  induction ids generalizing s with
  | nil => exact .refl s
  | cons id ids ih => exact (resumeOne_alters s id).trans (ih _)

/-- A job is changed, or moved in the queue. -/
theorem Obeyed.accept_quiet {reply : Reply} (hacks : s'.acknowledgements = s.acknowledgements)
    (hfailure : s'.failure = s.failure) (hclosing : s'.closing = s.closing) (hstore : s'.store = s.store)
    (hworkers : s'.workers = s.workers) (hreturned : s'.returned = s.returned) (hlog : s'.log = s.log)
    (hreceipts : s'.receipts = s.receipts) : Obeyed s reply (s'.accept (.unit reply)) :=
  .accepted (.quiet hacks hfailure hclosing hstore hworkers hreturned hlog hreceipts) rfl

theorem setPriority_obeyed (id : JobId) (priority : Priority) (reply : Reply) :
    Obeyed s reply (s.setPriority id priority reply) := by
  unfold Actor.setPriority
  split
  · exact .refuse _ _
  split
  case h_5 => exact .refuse _ _
  all_goals exact .accept_quiet rfl rfl rfl rfl rfl rfl rfl rfl

theorem pause_obeyed (id : JobId) (reply : Reply) : Obeyed s reply (s.pause id reply) := by
  unfold Actor.pause
  split
  · exact .refuse _ _
  split
  case h_3 => exact .asked (.quiet rfl rfl rfl rfl rfl rfl rfl rfl) rfl
  case h_5 => exact .refuse _ _
  all_goals exact .accept_quiet rfl rfl rfl rfl rfl rfl rfl rfl

theorem resume_obeyed (id : JobId) (reply : Reply) : Obeyed s reply (s.resume id reply) := by
  unfold Actor.resume
  split
  · exact .refuse _ _
  split
  case h_3 => exact .refuse _ _
  all_goals
    exact .accepted ⟨rfl, rfl, rfl, rfl, rfl, rfl, ⟨[.resumed id], rfl, fun n hn ↦ .inr ⟨id, List.mem_singleton.1 hn⟩⟩,
      fun receipt hmem ↦ .inl ⟨receipt, hmem, rfl⟩⟩ rfl

theorem jobRate_obeyed (id : JobId) (rate : Option UInt64) (reply : Reply) :
    Obeyed s reply (s.jobRate id rate reply) := by
  unfold Actor.jobRate
  split
  · exact .refuse _ _
  · exact .accept_quiet rfl rfl rfl rfl rfl rfl rfl rfl

theorem refresh_obeyed (id : JobId) (url : String) (reply : Reply) (folder : JobFolder) :
    Obeyed s reply (s.refresh U sha256 id url reply folder) := by
  unfold Actor.refresh
  split
  · exact .refuse _ _
  split
  case h_3 => exact .refuse _ _
  all_goals
    split
    · exact .refuse _ _
    · exact .accept_quiet rfl rfl rfl rfl rfl rfl rfl rfl

theorem forget_obeyed (id : JobId) (reply : Reply) : Obeyed s reply (s.forget id reply) := by
  unfold Actor.forget
  split
  · exact .refuse _ _
  split
  · exact .refuse _ _
  · refine .accepted ⟨rfl, rfl, rfl, rfl, rfl, rfl, ⟨[], (List.append_nil _).symm, nofun⟩, fun receipt hmem ↦ ?_⟩ rfl
    obtain ⟨old, hold, rfl⟩ := List.mem_map.1 hmem
    exact .inl ⟨old, hold, (old.keyHash_forget id).symm⟩

theorem obey_obeyed (command : Command PathBuf) (reply : Reply) (key : Except ManagerError PathBuf)
    (folder : JobFolder) : Obeyed s reply (s.obey U sha256 command reply key folder) := by
  cases command with
  | enqueue options priority admission => exact enqueue_obeyed options priority admission reply key
  | setPriority id priority => exact setPriority_obeyed id priority reply
  | pause id => exact pause_obeyed id reply
  | resume id => exact resume_obeyed id reply
  | globalRate rate => exact .accept_quiet rfl rfl rfl rfl rfl rfl rfl rfl
  | jobRate id rate => exact jobRate_obeyed id rate reply
  | resumeAll => exact .accepted (resumeAll_alters _ s) rfl
  | refresh id url => exact refresh_obeyed id url reply folder
  | forget id => exact forget_obeyed id reply

end Obey

/-! ### The invariant -/

/-- Whoever waits for an answer, and every receipt, is in the database. -/
def Settled (s : Actor PathBuf) : Prop :=
  (∀ a ∈ s.acknowledgements, Followed s.log (.changed a.reply) Note.isSaved) ∧
    ∀ receipt ∈ s.receipts, Followed s.log (.receipt receipt.keyHash) Note.isSaved

structure Kept (s : Actor PathBuf) : Prop where
  allowed : Guarded Allowed s.log
  tended : Tended s.log s.workers
  unfailed : s.failure = none → s.store = true ∧ ∀ n ∈ s.log, ¬n.isUnsaved
  closing : s.failure ≠ none → s.closing = true
  acknowledged : ∀ a ∈ s.acknowledgements, .changed a.reply ∈ s.log
  receipts : ∀ receipt ∈ s.receipts, .receipt receipt.keyHash ∈ s.log
  clean : s.dirty = false → s.failure = none → s.Settled

theorem Settled.grow (h : s.Settled) {log : List (Note PathBuf)} (hlog : s'.log = s.log ++ log)
    (hacks : s'.acknowledgements = s.acknowledgements) (hreceipts : s'.receipts = s.receipts) : s'.Settled := by
  rw [Settled, hacks, hreceipts, hlog]
  exact ⟨fun a ha ↦ (h.1 a ha).append log, fun receipt hmem ↦ (h.2 receipt hmem).append log⟩

theorem tended_append {log log' : List (Note PathBuf)} {workers : List ℕ} (h : Tended log workers)
    (hnew : ∀ task id, .started task id ∉ log') : Tended (log ++ log') workers := by
  intro before task id after hlog
  rcases List.append_eq_append_iff.1 hlog with ⟨mid, -, hmid⟩ | ⟨mid, rfl, hmid⟩
  · exact absurd (hmid ▸ List.mem_append_right _ List.mem_cons_self) (hnew task id)
  · cases mid with
    | nil => exact absurd (by rw [← List.nil_append log', ← hmid]; exact List.mem_cons_self) (hnew task id)
    | cons n mid =>
      obtain ⟨rfl, rfl⟩ := List.cons.inj hmid
      exact (h before task id mid rfl).imp_right (List.mem_append_left _)

/-- What is noted needs nothing before it. -/
theorem Kept.grow (h : s.Kept) {log : List (Note PathBuf)} (hlog : s'.log = s.log ++ log)
    (hplain : ∀ n ∈ log, n.Plain) (hacks : ∀ a ∈ s'.acknowledgements, .changed a.reply ∈ s'.log)
    (hreceipts : ∀ receipt ∈ s'.receipts, .receipt receipt.keyHash ∈ s'.log) (hfailure : s'.failure = s.failure)
    (hclosing : s.closing = true → s'.closing = true) (hstore : s'.store = s.store) (hworkers : s'.workers = s.workers)
    (hclean : s'.dirty = false → s'.failure = none → s'.Settled) : s'.Kept where
  allowed := hlog ▸ h.allowed.append_free fun n hn before ↦ (hplain n hn).1 before
  tended := by
    rw [hlog, hworkers]
    exact tended_append h.tended fun task id hn ↦ (hplain _ hn).2.2 task id rfl
  unfailed := fun hnone ↦ by
    obtain ⟨hkept, hsaved⟩ := h.unfailed (hfailure ▸ hnone)
    refine ⟨hstore.trans hkept, fun n hn ↦ ?_⟩
    exact (List.mem_append.1 (hlog ▸ hn)).elim (hsaved n) fun hn ↦ (hplain n hn).2.1
  closing := fun hsome ↦ hclosing (h.closing (hfailure ▸ hsome))
  acknowledged := hacks
  receipts := hreceipts
  clean := hclean

/-- What is noted, and nobody is answered. -/
theorem Kept.quiet (h : s.Kept) {log : List (Note PathBuf)} (hlog : s'.log = s.log ++ log)
    (hplain : ∀ n ∈ log, n.Plain) (hacks : s'.acknowledgements = s.acknowledgements)
    (hreceipts : s'.receipts = s.receipts) (hfailure : s'.failure = s.failure)
    (hclosing : s.closing = true → s'.closing = true) (hstore : s'.store = s.store) (hworkers : s'.workers = s.workers)
    (hdirty : s'.dirty = false → s.dirty = false) : s'.Kept := by
  refine h.grow hlog hplain (fun a ha ↦ ?_) (fun receipt hmem ↦ ?_) hfailure hclosing hstore hworkers
    fun hclean hnone ↦ (h.clean (hdirty hclean) (hfailure ▸ hnone)).grow hlog hacks hreceipts
  · exact hlog ▸ List.mem_append_left _ (h.acknowledged a (hacks ▸ ha))
  · exact hlog ▸ List.mem_append_left _ (h.receipts receipt (hreceipts ▸ hmem))

/-- Nothing is noted. -/
theorem Kept.silent (h : s.Kept) (hlog : s'.log = s.log) (hacks : s'.acknowledgements = s.acknowledgements)
    (hreceipts : s'.receipts = s.receipts) (hfailure : s'.failure = s.failure)
    (hclosing : s.closing = true → s'.closing = true) (hstore : s'.store = s.store) (hworkers : s'.workers = s.workers)
    (hdirty : s'.dirty = false → s.dirty = false) : s'.Kept :=
  h.quiet (hlog.trans (List.append_nil _).symm) nofun hacks hreceipts hfailure hclosing hstore hworkers hdirty

theorem Kept.close (h : s.Kept) : s.close.Kept := h.silent rfl rfl rfl rfl (fun _ ↦ rfl) rfl rfl nofun

theorem Kept.noticeClosed (h : s.Kept) (dropped : Bool) : (s.noticeClosed dropped).Kept := by
  unfold Actor.noticeClosed
  split
  · exact h.close
  · exact h

theorem Kept.wakeWaiting (h : s.Kept) (now : JobId → ℕ) : (s.wakeWaiting now).Kept := by
  unfold Actor.wakeWaiting
  split
  · exact h
  · exact h.silent rfl rfl rfl rfl (fun hc ↦ hc) rfl rfl fun hdirty ↦ (Bool.or_eq_false_iff.1 hdirty).1

/-- **A save settles everything**, if it succeeds. -/
theorem Kept.stored (h : s.Kept) (hnone : s.failure = none) (hsaved : Saved P sha256 s s' (.ok ())) :
    s'.Kept ∧ s'.Settled ∧ s'.failure = none ∧ s'.closing = s.closing ∧ s'.dirty = s.dirty := by
  cases hsaved with
  | without hstore =>
    rw [(h.unfailed hnone).1] at hstore
    cases hstore
  | stored hstore progress bytes hbytes =>
    have hsettled : ({ s.report progress with
        store := true, file := some bytes, log := s.log ++ [.saved (s.report progress).snapshot] } :
          Actor PathBuf).Settled :=
      ⟨fun a ha ↦ followed_concat (h.acknowledged a ha) trivial,
        fun receipt hmem ↦ followed_concat (h.receipts receipt hmem) trivial⟩
    refine ⟨h.grow rfl ?_ ?_ ?_ rfl (fun hc ↦ hc) hstore.symm rfl fun _ _ ↦ hsettled, hsettled, hnone, rfl, rfl⟩
    · rintro n hn
      rw [List.mem_singleton.1 hn]
      exact ⟨fun _ ↦ trivial, fun hf ↦ hf, nofun⟩
    · exact fun a ha ↦ List.mem_append_left _ (h.acknowledged a ha)
    · exact fun receipt hmem ↦ List.mem_append_left _ (h.receipts receipt hmem)

/-- A save that fails closes the manager. -/
theorem Kept.failed {error error' : ManagerError} (h : s.Kept) (hsaved : Saved P sha256 s s' (.error error)) :
    (s'.fail error').Kept := by
  cases hsaved with
  | failed hstore progress error kept file hfile =>
    refine ⟨?_, ?_, nofun, fun _ ↦ rfl, ?_, ?_, nofun⟩
    · exact guarded_concat.2 ⟨h.allowed, trivial⟩
    · exact tended_append h.tended fun task id hmem ↦ by
        have := List.mem_singleton.1 hmem
        cases this
    · exact fun a ha ↦ List.mem_append_left _ (h.acknowledged a ha)
    · exact fun receipt hmem ↦ List.mem_append_left _ (h.receipts receipt hmem)

/-- Nothing is beyond the last save, unless a save has failed. -/
def Steady (s : Actor PathBuf) : Prop := s.failure = none → s.Settled

theorem Kept.tidy (h : s.Kept) (hsteady : s.Steady) : { s with dirty := false }.Kept :=
  ⟨h.allowed, h.tended, h.unfailed, h.closing, h.acknowledged, h.receipts, fun _ hnone ↦ hsteady hnone⟩

theorem Kept.saveDirty (h : s.Kept) (saving : Saving) :
    (s.saveDirty P sha256 saving).Kept ∧ (s.saveDirty P sha256 saving).Steady := by
  unfold Actor.saveDirty
  split
  next hdirty =>
    have hnone : s.failure = none := by simpa using hdirty.2
    have hsaved := saveState_saved P sha256 saving s
    rcases hsave : s.saveState P sha256 saving with ⟨s', error | ⟨⟩⟩ <;> rw [hsave] at hsaved
    · have hfailed : (s'.fail error).Kept := h.failed hsaved
      exact ⟨hfailed.tidy nofun, nofun⟩
    · obtain ⟨hkept, hsettled, -⟩ := h.stored hnone hsaved
      exact ⟨hkept.tidy fun _ ↦ hsettled, fun _ ↦ hsettled⟩
  next hdirty =>
    refine ⟨h, fun hnone ↦ h.clean ?_ hnone⟩
    simpa [hnone] using hdirty

theorem Kept.acknowledge (h : s.Kept) (hsteady : s.Steady) : s.acknowledge.Kept ∧ s.acknowledge.Steady := by
  have hreceipts : s.failure = none → s.acknowledge.Settled := fun hnone ↦
    ⟨nofun, fun receipt hmem ↦ ((hsteady hnone).2 receipt hmem).append _⟩
  refine ⟨⟨h.allowed.append fun before n after hlog ↦ ?_, ?_, fun hnone ↦ ⟨(h.unfailed hnone).1, ?_⟩, h.closing, nofun,
    fun receipt hmem ↦ List.mem_append_left _ (h.receipts receipt hmem), fun _ hnone ↦ hreceipts hnone⟩, hreceipts⟩
  · obtain ⟨a, ha, rfl⟩ := List.mem_map.1 (hlog ▸ List.mem_append_right before List.mem_cons_self)
    cases hfailure : s.failure with
    | some error => exact trivial
    | none =>
      refine ⟨.inl (((hsteady hfailure).1 a ha).append before), fun n hn ↦ ?_⟩
      rcases List.mem_append.1 hn with hn | hn
      · exact (h.unfailed hfailure).2 n hn
      · obtain ⟨a', -, rfl⟩ := List.mem_map.1 (hlog ▸ List.mem_append_left (_ :: after) hn)
        exact fun hf ↦ hf
  · refine tended_append h.tended fun task id hmem ↦ ?_
    obtain ⟨a, -, ha⟩ := List.mem_map.1 hmem
    cases ha
  · intro n hn
    rcases List.mem_append.1 hn with hn | hn
    · exact (h.unfailed hnone).2 n hn
    · obtain ⟨a, -, rfl⟩ := List.mem_map.1 hn
      exact fun hf ↦ hf

/-- A worker is started after a save that succeeded. -/
theorem Kept.spawn (h : s.Kept) (hsettled : s.Settled) (hnone : s.failure = none) (id : JobId) :
    (s.spawn id).Kept ∧ (s.spawn id).Steady := by
  have hsettled' : (s.spawn id).Settled := hsettled.grow rfl rfl rfl
  refine ⟨⟨guarded_concat.2 ⟨h.allowed, (h.unfailed hnone).2⟩, ?_, fun _ ↦ ⟨(h.unfailed hnone).1, ?_⟩, h.closing,
    fun a ha ↦ List.mem_append_left _ (h.acknowledged a ha),
    fun receipt hmem ↦ List.mem_append_left _ (h.receipts receipt hmem), fun _ _ ↦ hsettled'⟩, fun _ ↦ hsettled'⟩
  · intro before task id' after hlog
    rcases List.eq_nil_or_concat after with rfl | ⟨after, n, rfl⟩
    · obtain ⟨-, heq⟩ := List.append_inj' hlog rfl
      cases heq
      exact .inl List.mem_cons_self
    · rw [List.concat_eq_append, ← List.cons_append, ← List.append_assoc] at hlog
      obtain ⟨hlog, -⟩ := List.append_inj' hlog rfl
      rw [List.concat_eq_append]
      exact (h.tended before task id' after hlog).imp (List.mem_cons_of_mem _) (List.mem_append_left _)
  · intro n hn
    rcases List.mem_append.1 hn with hn | hn
    · exact (h.unfailed hnone).2 n hn
    · rw [List.mem_singleton.1 hn]
      exact fun hf ↦ hf

theorem Kept.unprepare (h : s.Kept) (id : JobId) : (s.unprepare id).Kept :=
  h.silent rfl rfl rfl rfl (fun hc ↦ hc) rfl rfl fun hd ↦ hd

theorem Kept.started {again : Bool} (h : s.Kept) (hsteady : s.Steady) (hopen : s.closing = false)
    (hstarted : Started P sha256 s s' again) : s'.Kept ∧ s'.Steady := by
  have hnone : s.failure = none := by
    by_contra hsome
    rw [h.closing hsome] at hopen
    cases hopen
  have hprepared : ∀ (index : ℕ) (id : JobId), ((s.dequeue index).prepare id).Kept := fun index id ↦
    h.silent rfl rfl rfl rfl (fun hc ↦ hc) rfl rfl fun hd ↦ hd
  cases hstarted with
  | idle => exact ⟨h, hsteady⟩
  | @refused index id job s' error hjob hsaved =>
    have hfailed : (s'.fail error).Kept := (hprepared index id).failed hsaved
    exact ⟨hfailed.unprepare id, nofun⟩
  | @dropped index id job s' hjob hsaved =>
    obtain ⟨hkept, hsettled, -⟩ := (hprepared index id).stored hnone hsaved
    exact ⟨hkept.close.unprepare id, fun _ ↦ hsettled⟩
  | @started index id job s' hjob hsaved =>
    obtain ⟨hkept, hsettled, hnone', -⟩ := (hprepared index id).stored hnone hsaved
    exact hkept.spawn hsettled hnone' id

theorem Kept.startWorkers (starts : ℕ → Starting) (rounds : ℕ) (h : s.Kept) (hsteady : s.Steady) :
    (s.startWorkers P sha256 starts rounds).Kept ∧ (s.startWorkers P sha256 starts rounds).Steady := by
  induction rounds generalizing s with
  | zero => exact ⟨h, hsteady⟩
  | succ rounds ih =>
    unfold Actor.startWorkers
    split
    · exact ⟨h, hsteady⟩
    next hroom =>
      have hopen : s.closing = false := by
        simp only [not_or, Bool.not_eq_true] at hroom
        exact hroom.1
      have hnext := h.started hsteady hopen (startNext_started P sha256 (starts rounds) s)
      rcases hs : s.startNext P sha256 (starts rounds) with ⟨s', again⟩
      rw [hs] at hnext
      cases again
      · exact hnext
      · exact ih hnext.1 hnext.2

theorem Kept.await (h : s.Kept) (turn : Turn PathBuf) :
    (s.await P sha256 turn).Kept ∧ (s.await P sha256 turn).Steady := by
  obtain ⟨hsaved, hsteady⟩ := Kept.saveDirty (P := P) ((h.noticeClosed turn.dropped).wakeWaiting turn.now) turn.save
  obtain ⟨hacked, hsteady⟩ := hsaved.acknowledge hsteady
  exact hacked.startWorkers _ _ hsteady

/-! ### What the select brings -/

theorem Kept.answer_error (h : s.Kept) (reply : Reply) (error : ManagerError) : (s.answer reply (.error error)).Kept := by
  refine h.quiet rfl (fun n hn ↦ ?_) rfl rfl rfl (fun hc ↦ hc) rfl rfl fun hd ↦ hd
  rw [List.mem_singleton.1 hn]
  exact ⟨fun _ ↦ trivial, fun hf ↦ hf, nofun⟩

/-- An answer with success, from a manager whose saves have not failed. -/
theorem Kept.answer_ok {reply : Reply} (h : s.Kept) (hbacked : Backed s.log reply) (hnone : s.failure = none)
    (value : Option JobId) : (s.answer reply (.ok value)).Kept := by
  have hunsaved := (h.unfailed hnone).2
  refine ⟨guarded_concat.2 ⟨h.allowed, hbacked, hunsaved⟩, ?_, fun _ ↦ ⟨(h.unfailed hnone).1, fun n hn ↦ ?_⟩, h.closing,
    fun a ha ↦ List.mem_append_left _ (h.acknowledged a ha),
    fun receipt hmem ↦ List.mem_append_left _ (h.receipts receipt hmem), fun hclean _ ↦ (h.clean hclean hnone).grow rfl rfl rfl⟩
  · refine tended_append h.tended fun task id hmem ↦ ?_
    have heq := List.mem_singleton.1 hmem
    cases heq
  · rcases List.mem_append.1 hn with hn | hn
    · exact hunsaved n hn
    · rw [List.mem_singleton.1 hn]
      exact fun hf ↦ hf

theorem Kept.accept (h : s.Kept) (acknowledge : Acknowledge) : (s.accept acknowledge).Kept := by
  refine h.grow rfl (fun n hn ↦ ?_) (fun a ha ↦ ?_) (fun receipt hmem ↦ ?_) rfl (fun hc ↦ hc) rfl rfl nofun
  · rw [List.mem_singleton.1 hn]
    exact ⟨fun _ ↦ trivial, fun hf ↦ hf, nofun⟩
  · rcases List.mem_append.1 ha with ha | ha
    · exact List.mem_append_left _ (h.acknowledged a ha)
    · rw [List.mem_singleton.1 ha]
      exact List.mem_append_right _ (List.mem_singleton_self _)
  · exact List.mem_append_left _ (h.receipts receipt hmem)

theorem Kept.alters (h : s.Kept) (halters : s.Alters s')
    (hclean : s'.dirty = false → s'.failure = none → s'.Settled) : s'.Kept := by
  obtain ⟨log, hlog, hnotes⟩ := halters.log
  refine h.grow hlog (fun n hn ↦ ?_) (fun a ha ↦ ?_) (fun receipt hmem ↦ ?_) halters.failure
    (fun hc ↦ halters.closing.trans hc) halters.store halters.workers hclean
  · rcases hnotes n hn with ⟨keyHash, rfl⟩ | ⟨id, rfl⟩ <;> exact ⟨fun _ ↦ trivial, fun hf ↦ hf, nofun⟩
  · exact hlog ▸ List.mem_append_left _ (h.acknowledged a (halters.acknowledgements ▸ ha))
  · rcases halters.receipts receipt hmem with ⟨old, hold, heq⟩ | hnote
    · exact hlog ▸ List.mem_append_left _ (heq ▸ h.receipts old hold)
    · exact hnote

theorem Kept.obeyed {reply : Reply} (h : s.Kept) (hsettled : s.Settled) (hnone : s.failure = none)
    (hobeyed : Obeyed s reply s') : s'.Kept := by
  cases hobeyed with
  | refused error lastId =>
    have hlast : ({ s with lastId } : Actor PathBuf).Kept := h.silent rfl rfl rfl rfl (fun hc ↦ hc) rfl rfl fun hd ↦ hd
    exact hlast.answer_error reply error
  | @replayed receipt hmem =>
    have hnote : (s.note (.replayed reply receipt.keyHash)).Kept := by
      refine h.quiet rfl (fun n hn ↦ ?_) rfl rfl rfl (fun hc ↦ hc) rfl rfl fun hd ↦ hd
      rw [List.mem_singleton.1 hn]
      exact ⟨fun _ ↦ trivial, fun hf ↦ hf, nofun⟩
    refine hnote.answer_ok (.inr ⟨receipt.keyHash, ?_, (hsettled.2 receipt hmem).append _⟩) hnone _
    exact List.mem_append_right _ (List.mem_singleton_self _)
  | asked halters hdirty => exact h.alters halters fun hclean ↦ by rw [hdirty] at hclean; cases hclean
  | @accepted s' acknowledge halters hreply =>
    have hdirty : ({ s' with dirty := true } : Actor PathBuf).Kept := by
      refine h.alters ⟨halters.acknowledgements, halters.failure, halters.closing, halters.store, halters.workers,
        halters.returned, halters.log, halters.receipts⟩ nofun
    exact hdirty.accept acknowledge

theorem Kept.release (h : s.Kept) (task : ℕ) : (s.release task).Kept := by
  refine ⟨guarded_concat.2 ⟨h.allowed, trivial⟩, ?_, fun hnone ↦ ⟨(h.unfailed hnone).1, fun n hn ↦ ?_⟩, h.closing,
    fun a ha ↦ List.mem_append_left _ (h.acknowledged a ha),
    fun receipt hmem ↦ List.mem_append_left _ (h.receipts receipt hmem),
    fun hclean hnone ↦ (h.clean hclean hnone).grow rfl rfl rfl⟩
  · intro before task' id after hlog
    rcases List.eq_nil_or_concat after with rfl | ⟨after, n, rfl⟩
    · obtain ⟨-, heq⟩ := List.append_inj' hlog rfl
      cases heq
    · rw [List.concat_eq_append, ← List.cons_append, ← List.append_assoc] at hlog
      obtain ⟨hlog, heq⟩ := List.append_inj' hlog rfl
      rw [List.concat_eq_append, ← (List.cons.inj heq).1]
      by_cases htask : task' = task
      · exact .inr (List.mem_append_right _ (List.mem_singleton.2 (by rw [htask])))
      · exact (h.tended before task' id after hlog).imp (List.mem_erase_of_ne htask).2 (List.mem_append_left _)
  · rcases List.mem_append.1 hn with hn | hn
    · exact (h.unfailed hnone).2 n hn
    · rw [List.mem_singleton.1 hn]
      exact fun hf ↦ hf

theorem Kept.settle (h : s.Kept) (id : JobId) (job : Job PathBuf) : (s.settle id job).Kept := by
  have hdirty : ({ s.setJob id fun _ ↦ { job with pauseReply := none } with dirty := true } : Actor PathBuf).Kept :=
    h.silent rfl rfl rfl rfl (fun hc ↦ hc) rfl rfl nofun
  unfold Actor.settle
  dsimp only
  split
  · exact hdirty
  · exact hdirty.answer_error _ _
  · exact hdirty.accept _

theorem Kept.join (h : s.Kept) (task : ℕ) (result : Option (Except Error UInt64)) (now : ℕ) :
    (s.join task result now).Kept := by
  unfold Actor.join
  split
  · exact h
  split
  · exact h.release task
  split
  · exact h.release task
  · exact (h.release task).settle _ _

section Turns

variable [DecidableEq UrlOrigin] [DecidableEq PathBuf]

theorem Kept.select (h : s.Kept) (hsteady : s.Steady) (event : Event PathBuf) : (s.select U sha256 event).Kept := by
  cases event with
  | joined task result now => exact h.join task result now
  | command command key folder =>
    show (if s.closing then s else (s.receive command).obey U sha256 command s.nextReply key folder).Kept
    split
    · exact h
    next hopen =>
      have hnone : s.failure = none := by
        by_contra hsome
        exact hopen (h.closing hsome)
      have hreceived : (s.receive command).Kept := by
        refine h.quiet rfl (fun n hn ↦ ?_) rfl rfl rfl (fun hc ↦ hc) rfl rfl fun hd ↦ hd
        rw [List.mem_singleton.1 hn]
        exact ⟨fun _ ↦ trivial, fun hf ↦ hf, (by rintro _ _ ⟨⟩)⟩
      exact hreceived.obeyed ((hsteady hnone).grow rfl rfl rfl) hnone (obey_obeyed command _ key folder)
  | closed =>
    show (if s.closing then s else s.close).Kept
    split
    · exact h
    · exact h.close
  | ticked => exact h

theorem Kept.leave (h : s.Kept) (hclosing : s.closing = true) (saving : Saving) : (s.leave P sha256 saving).Kept := by
  unfold Actor.leave
  split
  next hdirty =>
    have hnone : s.failure = none := by simpa using hdirty.2
    have hsaved := saveState_saved P sha256 saving s
    rcases hsave : s.saveState P sha256 saving with ⟨s', error | ⟨⟩⟩ <;> rw [hsave] at hsaved
    · have hclosing' : s'.closing = true := by
        cases hsaved
        exact hclosing
      have hfailed : (s'.fail error).Kept := h.failed hsaved
      exact hfailed.silent rfl rfl rfl rfl (fun _ ↦ hclosing') rfl rfl fun hd ↦ hd
    · exact (h.stored hnone hsaved).1.silent rfl rfl rfl rfl (fun hc ↦ hc) rfl rfl fun hd ↦ hd
  next => exact h.silent rfl rfl rfl rfl (fun hc ↦ hc) rfl rfl fun hd ↦ hd

theorem Kept.turn (h : s.Kept) (t : Turn PathBuf) : (s.turn U P sha256 t).Kept := by
  unfold Actor.turn
  split
  · exact h
  obtain ⟨hawait, hsteady⟩ : (s.await P sha256 t).Kept ∧ (s.await P sha256 t).Steady := h.await t
  dsimp only
  split
  next hleave => exact hawait.leave hleave.1 _
  next => exact hawait.select hsteady _

theorem Kept.run (h : s.Kept) (turns : List (Turn PathBuf)) : (s.run U P sha256 turns).Kept := by
  unfold Actor.run
  induction turns generalizing s with
  | nil => exact h
  | cons t turns ih => exact ih (h.turn t)

/-! ### Returning -/

end Turns

/-! ### The whole journal -/

/-- The effect of a command: its own change, or the receipt that answers it. -/
def Effect (log : List (Note PathBuf)) (reply : Reply) (n : Note PathBuf) : Prop :=
  n = .changed reply ∨ ∃ keyHash, .replayed reply keyHash ∈ log ∧ n = .receipt keyHash

/-- What the journal of a durable manager shows. -/
structure Durable (s : Actor PathBuf) : Prop where
  /-- Before an answer with success there is a save that succeeded, and before that the effect. -/
  answered : ∀ before reply value after, s.log = before ++ .answered reply (.ok value) :: after →
    ∃ n earlier snapshot later, Effect before reply n ∧ before = earlier ++ .saved snapshot :: later ∧ n ∈ earlier
  /-- After a save that failed nobody is answered with success, and no worker is started. -/
  after_failure : ∀ before snapshot after, s.log = before ++ .unsaved snapshot :: after →
    (∀ reply value, .answered reply (.ok value) ∉ after) ∧ ∀ task id, .started task id ∉ after
  /-- A manager that has returned has joined its workers. -/
  joined : s.returned.isSome → ∀ before task id after, s.log = before ++ .started task id :: after →
    .joined task ∈ after
  /-- The last snapshot that was saved was taken after every effect that was answered with success. -/
  last : ∀ before snapshot after, s.log = before ++ .saved snapshot :: after →
    (∀ snapshot', .saved snapshot' ∉ after) → ∀ reply value, .answered reply (.ok value) ∈ s.log →
      ∃ n, Effect s.log reply n ∧ n ∈ before

theorem exists_effect {log : List (Note PathBuf)} {reply : Reply} (h : Backed log reply) :
    ∃ n, Effect log reply n ∧ Followed log n Note.isSaved := by
  rcases h with h | ⟨keyHash, hmem, h⟩
  · exact ⟨_, .inl rfl, h⟩
  · exact ⟨_, .inr ⟨keyHash, hmem, rfl⟩, h⟩

theorem Effect.append {log : List (Note PathBuf)} {reply : Reply} {n : Note PathBuf} (h : Effect log reply n)
    (log' : List (Note PathBuf)) : Effect (log ++ log') reply n :=
  h.imp_right fun ⟨keyHash, hmem, hn⟩ ↦ ⟨keyHash, List.mem_append_left _ hmem, hn⟩

theorem Kept.durable (h : s.Kept) (hleft : s.returned.isSome → s.workers = []) : s.Durable where
  answered := fun before reply value after hlog ↦ by
    obtain ⟨n, heffect, earlier, y, later, hbefore, hn, hy⟩ := exists_effect (h.allowed _ _ _ hlog).1
    cases y with
    | saved snapshot => exact ⟨n, earlier, snapshot, later, heffect, hbefore, hn⟩
    | _ => exact absurd hy id
  after_failure := fun before snapshot after hlog ↦ by
    -- An entry after the failed save has that save before it, which nothing of these kinds may have.
    have hafter : ∀ n ∈ after, ∃ before', Allowed before' n ∧ .unsaved snapshot ∈ before' := fun n hn ↦ by
      obtain ⟨mid, rest, rfl⟩ := List.append_of_mem hn
      refine ⟨before ++ .unsaved snapshot :: mid, h.allowed _ n rest (by simp [hlog]), ?_⟩
      exact List.mem_append_right _ List.mem_cons_self
    refine ⟨fun reply value hn ↦ ?_, fun task id hn ↦ ?_⟩
    · obtain ⟨before', hallowed, hmem⟩ := hafter _ hn
      exact hallowed.2 _ hmem trivial
    · obtain ⟨before', hallowed, hmem⟩ := hafter _ hn
      exact hallowed _ hmem trivial
  joined := fun hsome before task id after hlog ↦ by
    have hlive := h.tended before task id after hlog
    rw [hleft hsome] at hlive
    exact hlive.resolve_left List.not_mem_nil
  last := fun before snapshot after hlog hlast reply value hmem ↦ by
    obtain ⟨before', after', hlog'⟩ := List.append_of_mem hmem
    obtain ⟨n, heffect, hsaved⟩ := exists_effect (h.allowed _ _ _ hlog').1
    refine ⟨n, hlog' ▸ heffect.append _, Followed.mem_of_last (hlog' ▸ hsaved.append _) hlog fun z hz hsaved' ↦ ?_⟩
    cases z with
    | saved snapshot' => exact hlast snapshot' hz
    | _ => exact hsaved'

/-! ### From an opened queue -/

section Open

variable [DecidableEq PathBuf]

end Open

end Actor

namespace Sample

def digest (_ : Bytes) : Digest := .replicate 32 0

/-- A manager on an empty database. -/
def opened : Actor String :=
  .launch limits [] true (some ((encode paths digest (Actor.emptySnapshot limits)).toOption.getD [])) 0 []
    [.saved (Actor.emptySnapshot limits)]

def enqueueOnce (jobDir : String) (hashes : AdmissionHashes) : Turn String :=
  turn (.command (.enqueue (options jobDir) .normal (some hashes)) (.ok jobDir) .missing)

end Sample

set_option maxRecDepth 4000 in
theorem Sample.openQueue_eq :
    (Actor.openQueue Sample.library Sample.paths Sample.digest Sample.limits .saved (fun _ ↦ .error .invalidPath) none).2 =
      .ok Sample.opened := by
  have hsave : saveSnapshot Sample.paths Sample.digest .saved (Actor.emptySnapshot Sample.limits) none =
      (Sample.opened.file, .ok ()) := rfl
  have hrecover : ∀ file, Actor.recover Sample.library Sample.paths (fun _ ↦ .error .invalidPath) file
      (Actor.emptySnapshot Sample.limits) = .ok { Sample.opened with file } := fun file ↦ by
    show Except.ok (Actor.launch _ (List.mergeSort [] _) _ _ _ _ _) = _
    rw [List.mergeSort_nil]
    rfl
  unfold Actor.openQueue
  rw [hsave]
  exact hrecover Sample.opened.file

end Fhd.DownloadEngine
