import FhdEngine.Domain.JobRestore
import FhdEngine.Library.Fallible
import FhdEngine.Library.Paging
import FhdEngine.Protocol.Messages
import Mathlib.Data.List.Sort
import Mathlib.Order.Interval.Finset.Nat

/-!
# Listing the jobs

`Service::list` of `crates/bins/daemon/src/service.rs`: one page of jobs, oldest identifier first, which says
whether more follow. A client asks for page after page by passing the continuation back.
-/

namespace Fhd

open Protocol (JobSummary maxJobsPerPage)

namespace Service

/-- `job_state`. -/
def jobState : JobState → String
  | .queued => "Queued"
  | .probing => "Probing"
  | .transferring => "Transferring"
  | .stopping => "Stopping"
  | .paused => "Paused"
  | .retryWait => "RetryWait"
  | .needsAction => "NeedsAction"
  | .verifying => "Verifying"
  | .publishing => "Publishing"
  | .cancelling => "Cancelling"
  | .failed => "Failed"
  | .completed => "Completed"
  | .cancelled => "Cancelled"

/-- `stop_reason`. -/
def stopReason : StopReason → String
  | .sourceChanged => "SOURCE-CHANGED"
  | .authentication => "AUTHENTICATION"
  | .storage => "STORAGE"
  | .integrity => "INTEGRITY"
  | .network => "NETWORK"
  | .policy => "POLICY"
  | .unknown => "UNKNOWN"
  | .destination => "DESTINATION"

def summarize (job : Job) : JobSummary :=
  ⟨job.id.get, jobState job.state, job.reason.map stopReason, job.projection.durableBytes, job.plan.map (·.1)⟩

/-- The jobs after an identifier, in order. -/
def following (jobs : List Job) (after : Option ℕ) : List Job :=
  (jobs.filter fun job ↦ job.id.get > after.getD 0).mergeSort fun a b ↦ a.id.get ≤ b.id.get

/-- The continuation: one job more than a page holds must be there. -/
def next (jobs : List Job) : Option ℕ :=
  jobs[maxJobsPerPage]?.bind fun _ ↦ jobs[maxJobsPerPage - 1]?.map (·.id.get)

def list (loaded : Except AppError (List Job)) (after : Option ℕ) : Except EngineError Protocol.Response :=
  match loaded with
  | .error e => .error (.admission e)
  | .ok jobs => .ok (.jobs (((following jobs after).take maxJobsPerPage).map summarize) (next (following jobs after)))

/-- The numbers on a page and its continuation. -/
def numbers : Except EngineError Protocol.Response → List ℕ × Option ℕ
  | .ok (.jobs page next) => (page.map (·.job), next)
  | _ => ([], none)

/-- What a client passes with each request, which follows the continuations; the jobs may be others each time. -/
def asked (jobs : ℕ → List Job) (n : ℕ) : Option (Option ℕ) :=
  Paging.cursor (fun n after ↦ numbers (list (.ok (jobs n)) after)) n

/-- The numbers of the jobs it has been told by then. -/
def told (jobs : ℕ → List Job) (n : ℕ) : List ℕ :=
  Paging.visited (fun n after ↦ numbers (list (.ok (jobs n)) after)) n

/-! ### One page -/

variable {jobs : List Job} {after : Option ℕ}

theorem mem_following {job : Job} : job ∈ following jobs after ↔ job ∈ jobs ∧ after.getD 0 < job.id.get := by
  rw [following, List.mem_mergeSort, List.mem_filter, decide_eq_true_iff]

theorem after_iff {n : ℕ} (hn : n ≠ 0) : Paging.After after n ↔ after.getD 0 < n := by
  cases after with
  | none => exact ⟨fun _ ↦ Nat.pos_of_ne_zero hn, fun _ _ h ↦ by cases h⟩
  | some last => exact ⟨fun h ↦ h last rfl, fun h last' hlast ↦ by rwa [← Option.mem_some_iff.1 hlast]⟩

theorem following_ascending (hjobs : (jobs.map Job.id).Nodup) :
    ((following jobs after).map (·.id.get)).Pairwise (· < ·) := by
  have hsorted : (following jobs after).Pairwise fun a b ↦ a.id.get ≤ b.id.get := by
    refine (List.pairwise_mergeSort (fun a b c hab hbc ↦ ?_) (fun a b ↦ ?_) _).imp fun h ↦ of_decide_eq_true h
    · simp only [decide_eq_true_iff] at hab hbc ⊢
      omega
    · simp only [Bool.or_eq_true, decide_eq_true_iff]
      omega
  have hdistinct : (following jobs after).Pairwise fun a b ↦ a.id ≠ b.id := by
    have hperm := (List.mergeSort_perm (jobs.filter fun job ↦ job.id.get > after.getD 0)
      fun a b ↦ a.id.get ≤ b.id.get).map Job.id
    have hnodup := hperm.nodup_iff.2 (hjobs.sublist (List.filter_sublist.map Job.id))
    exact List.pairwise_map.1 hnodup
  refine List.pairwise_map.2 (hsorted.imp₂ (fun a b hle hne ↦ ?_) hdistinct)
  exact lt_of_le_of_ne hle fun heq ↦ hne (Identifier.ext heq)

/-- **A page of the listing** is a page. -/
theorem isPage_list (hjobs : (jobs.map Job.id).Nodup) (after : Option ℕ) :
    Paging.IsPage {n | ∃ job ∈ jobs, job.id.get = n} after (numbers (list (.ok jobs) after)).1
      (numbers (list (.ok jobs) after)).2 := by
  have hpage : (numbers (list (.ok jobs) after)).1 = ((following jobs after).map (·.id.get)).take maxJobsPerPage := by
    show (((following jobs after).take maxJobsPerPage).map summarize).map (·.job) = _
    rw [List.map_map, List.map_take]
    rfl
  have hnext : (numbers (list (.ok jobs) after)).2 = ((following jobs after).map (·.id.get))[maxJobsPerPage]?.bind
      fun _ ↦ ((following jobs after).map (·.id.get))[maxJobsPerPage - 1]? := by
    show next (following jobs after) = _
    rw [next, List.getElem?_map, List.getElem?_map, Option.bind_map]
    rfl
  have hascending := @following_ascending jobs after hjobs
  have hmem : ∀ n, n ∈ (following jobs after).map (·.id.get) ↔
      (∃ job ∈ jobs, job.id.get = n) ∧ Paging.After after n := by
    intro n
    rw [List.mem_map]
    constructor
    · rintro ⟨job, hjob, rfl⟩
      obtain ⟨hjob, hafter⟩ := mem_following.1 hjob
      exact ⟨⟨job, hjob, rfl⟩, (after_iff job.id.get_ne_zero).2 hafter⟩
    · rintro ⟨⟨job, hjob, rfl⟩, hafter⟩
      exact ⟨job, mem_following.2 ⟨hjob, (after_iff job.id.get_ne_zero).1 hafter⟩, rfl⟩
  rw [hpage, hnext]
  generalize (following jobs after).map (·.id.get) = l at hascending hmem
  refine ⟨hascending.sublist (List.take_sublist _ _), fun n hn ↦ ((hmem n).1 (List.mem_of_mem_take hn)).1,
    fun n hn ↦ ((hmem n).1 (List.mem_of_mem_take hn)).2, fun n hn hafter ↦ ?_, fun last hlast ↦ ?_⟩
  · have hthere := (hmem n).2 ⟨hn, hafter⟩
    rw [← List.take_append_drop maxJobsPerPage l] at hthere
    rcases List.mem_append.1 hthere with hpage | hrest
    · exact Or.inl hpage
    · -- a job beyond the page, so there is a last one on it
      have hlong : maxJobsPerPage < l.length := by
        have := List.length_pos_of_mem hrest
        rw [List.length_drop] at this
        omega
      have hlast : maxJobsPerPage - 1 < l.length := by omega
      refine Or.inr ⟨l[maxJobsPerPage - 1], ?_, ?_⟩
      · rw [List.getElem?_eq_getElem hlong, List.getElem?_eq_getElem hlast]
        rfl
      · rw [← List.take_append_drop maxJobsPerPage l] at hascending
        refine (List.pairwise_append.1 hascending).2.2 _ ?_ n hrest
        rw [List.mem_take_iff_getElem]
        exact ⟨maxJobsPerPage - 1, lt_min (by decide) hlast, rfl⟩
  · obtain ⟨_, -, hlast⟩ := Option.bind_eq_some_iff.1 hlast
    rw [List.getLast?_take, if_neg (by decide), hlast, Option.some_or]

/-- Every page passes the check of a response. -/
theorem check_list : Protocol.Response.check (.jobs (((following jobs after).take maxJobsPerPage).map summarize)
    (next (following jobs after))) = .ok () := by
  have hshort : ¬(((following jobs after).take maxJobsPerPage).map summarize).length > maxJobsPerPage := by
    rw [List.length_map, List.length_take]
    omega
  have hnonzero : ¬(((following jobs after).take maxJobsPerPage).map summarize).any (·.job = 0) = true := by
    intro hzero
    obtain ⟨summary, hsummary, hzero⟩ := List.any_eq_true.1 hzero
    obtain ⟨job, -, rfl⟩ := List.mem_map.1 hsummary
    exact job.id.get_ne_zero (of_decide_eq_true hzero)
  rw [Protocol.Response.check, if_neg hshort, if_neg hnonzero]

/-! ### Walking through the pages -/

/-- What the repository loads is a set of jobs: each row of its table is another one. -/
theorem nodup_jobs {store : Persistence.Store} {loaded : List Job} (h : Persistence.jobs store = .ok loaded) :
    (loaded.map Job.id).Nodup := by
  have hid : ∀ (entry : (_ : ℤ) × Persistence.JobsRow) (job : Job), Persistence.loadJob store entry = .ok job →
      (job.id.get : ℤ) = entry.1 := by
    intro entry job hload
    obtain ⟨record, hrecord, hload⟩ := Fallible.bind_eq_ok.1 hload
    have hjob : job.id = record.id := by
      rw [(Job.restore_eq_ok (Persistence.orCorrupt_eq_ok.1 hload)).eq]
    unfold Persistence.loadRecord at hrecord
    obtain ⟨number, hnumber, hrecord⟩ := Fallible.bind_eq_ok.1 hrecord
    obtain ⟨id, hid, hrecord⟩ := Fallible.bind_eq_ok.1 hrecord
    have hget : (id.get : ℤ) = entry.1 := by
      rw [Persistence.loaded_eq_ok.1 hnumber]
      have hnew := Persistence.orCorrupt_eq_ok.1 hid
      unfold Identifier.new at hnew
      split at hnew
      next => cases hnew
      next =>
        cases hnew
        rfl
    have hsame : record.id = id := by
      obtain ⟨spec, -, hrecord⟩ := Fallible.bind_eq_ok.1 hrecord
      obtain ⟨version, -, hrecord⟩ := Fallible.bind_eq_ok.1 hrecord
      split at hrecord
      next =>
        cases hrecord
        rfl
      next =>
        obtain ⟨state, -, hrecord⟩ := Fallible.bind_eq_ok.1 hrecord
        obtain ⟨durable, -, hrecord⟩ := Fallible.bind_eq_ok.1 hrecord
        cases hrecord
        rfl
    rw [hjob, hsame, hget]
  have hkeys := Fallible.map_of_mapM_eq_ok hid h
  have hnodup : ((store.jobs.entries.insertionSort fun a b ↦ a.1 ≤ b.1).map (·.1)).Nodup :=
    ((List.perm_insertionSort _ store.jobs.entries).map _).nodup_iff.2 store.jobs.nodupKeys
  rw [← hkeys] at hnodup
  exact List.Nodup.of_map (fun id : JobId ↦ (id.get : ℤ)) (by rwa [List.map_map])

/-- What is passed with a request is no number, or that of a job. -/
theorem check_asked {jobs : ℕ → List Job} (hjobs : ∀ n, ((jobs n).map Job.id).Nodup) {n : ℕ}
    (h : asked jobs n = some after) : (Protocol.Request.list after).check = .ok () := by
  cases n with
  | zero =>
    cases h
    rfl
  | succ n =>
    obtain ⟨before, last, -, hlast, rfl⟩ := Paging.cursor_succ h
    have hpage := isPage_list (hjobs n) before
    obtain ⟨job, -, rfl⟩ := hpage.mem last (hpage.le_next last hlast).1
    cases hnumber : job.id.get with
    | zero => exact absurd hnumber job.id.get_ne_zero
    | succ number => rfl

/-- **Paging is complete**, whatever jobs are added and removed between the requests: no request and no page is
refused; what the client is told ascends, so it is told of no job twice; it is told of every job that is there at
each request; and it comes to an end if there are finitely many jobs. -/
theorem list_pages (jobs : ℕ → List Job) (hjobs : ∀ n, ((jobs n).map Job.id).Nodup) :
    (∀ n after, asked jobs n = some after → (Protocol.Request.list after).check = .ok () ∧
      ∃ response, list (.ok (jobs n)) after = .ok response ∧ response.check = .ok ()) ∧
    (∀ n, (told jobs n).Pairwise (· < ·)) ∧
    (∀ id : JobId, (∀ n, asked jobs n ≠ none → id ∈ (jobs n).map Job.id) →
      ∃ n, ∀ m ≥ n, (told jobs m).count id.get = 1) ∧
    ((∃ all : Finset ℕ, ∀ n, ∀ job ∈ jobs n, job.id.get ∈ all) → ∃ n, asked jobs n = none) := by
  have hpages := fun n after ↦ isPage_list (hjobs n) after
  refine ⟨fun n after h ↦ ⟨check_asked hjobs h, _, rfl, check_list⟩,
    fun n ↦ (Paging.visited_ascending hpages n).1, fun id hid ↦ ⟨(Finset.Iic id.get).card + 1, fun m hm ↦ ?_⟩,
    fun ⟨all, hall⟩ ↦ ⟨all.card + 1, ?_⟩⟩
  · have hvisited := Paging.mem_visited hpages fun n hn ↦ by
      obtain ⟨job, hjob, heq⟩ := List.mem_map.1 (hid n hn)
      exact ⟨job, hjob, congrArg Identifier.get heq⟩
    exact List.count_eq_one_of_mem (Paging.nodup_visited hpages m) ((Paging.visited_mono hm).subset hvisited)
  · refine Paging.cursor_eq_none hpages (fun key hkey ↦ ?_) (Nat.lt_succ_self _)
    obtain ⟨i, job, hjob, rfl⟩ := Paging.mem_of_visited hpages hkey
    exact hall i job hjob

/-- Two jobs, the first of which is removed after the first page. -/
def Sample.listed (n : ℕ) : List Job :=
  (if n = 0 then [3, 1] else [3]).map fun id : ℕ ↦ Job.new ⟨id + 1, id.succ_ne_zero⟩
    ⟨⟨1, Nat.one_ne_zero⟩, ⟨1, Nat.one_ne_zero⟩, none, .normal, 1, Nat.one_ne_zero, one_le_i64Max⟩

theorem list_pages_jobs :
    (∀ n after, asked Sample.listed n = some after → (Protocol.Request.list after).check = .ok () ∧
      ∃ response, list (.ok (Sample.listed n)) after = .ok response ∧ response.check = .ok ()) ∧
    (∀ n, (told Sample.listed n).Pairwise (· < ·)) ∧
    (∀ id : JobId, (∀ n, asked Sample.listed n ≠ none → id ∈ (Sample.listed n).map Job.id) →
      ∃ n, ∀ m ≥ n, (told Sample.listed m).count id.get = 1) ∧
    ((∃ all : Finset ℕ, ∀ n, ∀ job ∈ Sample.listed n, job.id.get ∈ all) → ∃ n, asked Sample.listed n = none) :=
  list_pages Sample.listed fun n ↦ by
    unfold Sample.listed
    split <;> decide

end Service

end Fhd
