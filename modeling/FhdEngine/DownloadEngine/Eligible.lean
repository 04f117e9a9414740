import FhdEngine.DownloadEngine.ManagerInvariant
import FhdEngine.Library.Ranked

/-!
# Which job starts next

`next_eligible` goes once through the queue and keeps the best job so far. Its loop merges the jobs that may start by
their priority, and a tie keeps what is there: so what is left is the first job of the highest priority
(`nextEligible_eq_some_iff`).

Starting a job takes it out of the queue and gives its origin one more worker. Whatever may start afterwards could have
started before (`eligible_of_start`), so what is left waiting at the end of any number of starts was passed over by
nothing of a lower priority.
-/

namespace Fhd.DownloadEngine

open Table Actor

variable {PathBuf : Type} {jobs : List (JobId × Job PathBuf)} {queue : List JobId} {maxPerOrigin index : ℕ} {id : JobId}
  {job : Job PathBuf}

/-! ### The loop as a merge -/

/-- The job of an entry of the queue, if it may start. -/
def candidate (jobs : List (JobId × Job PathBuf)) (maxPerOrigin : ℕ) (entry : JobId × ℕ) : Option (ℕ × Priority) :=
  match jobs.lookup entry.1 with
  | none => none
  | some job =>
    if job.state ≠ .queued then none
    else if jobs.countP (activeAt job.origin) ≥ maxPerOrigin then none
    else some (entry.2, job.priority)

/-- The places of the queue whose jobs may start, with their priorities. -/
def candidates (jobs : List (JobId × Job PathBuf)) (queue : List JobId) (maxPerOrigin : ℕ) : List (ℕ × Priority) :=
  queue.zipIdx.filterMap (candidate jobs maxPerOrigin)

def urgency (choice : ℕ × Priority) : ℕ := choice.2.code.toNat

/-- Of two choices the later one is taken only if it is more urgent. -/
def better (best choice : ℕ × Priority) : ℕ × Priority := if urgency best < urgency choice then choice else best

theorem ranked_better : Ranked urgency better where
  rank_merge a b := by
    unfold better
    split
    next h => exact (max_eq_right h.le).symm
    next h => exact (max_eq_left (not_lt.1 h)).symm
  merge_of_lt h := if_pos h
  merge_of_gt h := if_neg h.not_gt

/-- One round of the loop. -/
def select (jobs : List (JobId × Job PathBuf)) (maxPerOrigin : ℕ) (selected : Option ℕ × Priority)
    (entry : JobId × ℕ) : Option ℕ × Priority :=
  match jobs.lookup entry.1 with
  | none => selected
  | some candidate =>
    if candidate.state ≠ .queued then selected
    else if jobs.countP (activeAt candidate.origin) ≥ maxPerOrigin then selected
    else if selected.1.isNone ∨ selected.2.code < candidate.priority.code then (some entry.2, candidate.priority)
    else selected

/-- A round passes over what is no candidate, and merges what is one. -/
theorem select_eq (jobs : List (JobId × Job PathBuf)) (maxPerOrigin : ℕ) (selected : Option ℕ × Priority)
    (entry : JobId × ℕ) :
    select jobs maxPerOrigin selected entry =
      match candidate jobs maxPerOrigin entry with
      | none => selected
      | some choice =>
        if selected.1.isNone ∨ selected.2.code < choice.2.code then (some choice.1, choice.2) else selected := by
  unfold select candidate
  cases jobs.lookup entry.1 with
  | none => rfl
  | some job =>
    dsimp only
    by_cases hstate : job.state ≠ .queued
    · rw [if_pos hstate, if_pos hstate]
    rw [if_neg hstate, if_neg hstate]
    by_cases hroom : jobs.countP (activeAt job.origin) ≥ maxPerOrigin
    · rw [if_pos hroom, if_pos hroom]
    · rw [if_neg hroom, if_neg hroom]

/-- What the loop holds: nothing with the lowest priority, or the best choice so far. -/
def holding : Option (ℕ × Priority) → Option ℕ × Priority
  | none => (none, .low)
  | some best => (some best.1, best.2)

theorem foldl_select (jobs : List (JobId × Job PathBuf)) (maxPerOrigin : ℕ) (entries : List (JobId × ℕ)) :
    entries.foldl (select jobs maxPerOrigin) (none, .low) =
      holding (combine better (entries.filterMap (candidate jobs maxPerOrigin))) := by
  induction entries using List.reverseRecOn with
  | nil => rfl
  | append_singleton entries entry ih =>
    rw [List.foldl_append, ih, List.filterMap_append, List.foldl_cons, List.foldl_nil, select_eq]
    cases hcandidate : candidate jobs maxPerOrigin entry with
    | none => simp [hcandidate]
    | some choice =>
      rw [List.filterMap_cons_some hcandidate, List.filterMap_nil, combine_concat]
      cases combine better (entries.filterMap (candidate jobs maxPerOrigin)) with
      | none => rfl
      | some best =>
        have hless : best.2.code < choice.2.code ↔ urgency best < urgency choice := UInt8.lt_iff_toNat_lt
        simp only [holding, Option.elim, better, hless, Option.isNone_some, Bool.false_eq_true, false_or]
        by_cases hmore : urgency best < urgency choice
        · rw [if_pos hmore, if_pos hmore]
        · rw [if_neg hmore, if_neg hmore]

/-- **The loop** merges the candidates. -/
theorem nextEligible_eq (jobs : List (JobId × Job PathBuf)) (queue : List JobId) (maxPerOrigin : ℕ) :
    nextEligible jobs queue maxPerOrigin = (combine better (candidates jobs queue maxPerOrigin)).map Prod.fst := by
  show (queue.zipIdx.foldl (select jobs maxPerOrigin) (none, .low)).1 = _
  rw [foldl_select, candidates]
  cases combine better (queue.zipIdx.filterMap (candidate jobs maxPerOrigin)) <;> rfl

/-! ### What is chosen -/

theorem mem_candidates {choice : ℕ × Priority} : choice ∈ candidates jobs queue maxPerOrigin ↔
    ∃ id job, Eligible jobs queue maxPerOrigin choice.1 id job ∧ job.priority = choice.2 := by
  rw [candidates, List.mem_filterMap]
  constructor
  · rintro ⟨⟨id, i⟩, hentry, h⟩
    unfold candidate at h
    split at h
    · cases h
    next job hjob =>
      split_ifs at h with hstate hroom
      obtain rfl := Option.some.inj h
      exact ⟨id, job, ⟨List.mem_zipIdx_iff_getElem?.1 hentry, hjob, not_not.1 hstate, not_le.1 hroom⟩, rfl⟩
  · rintro ⟨id, job, h, hpriority⟩
    refine ⟨(id, choice.1), List.mem_zipIdx_iff_getElem?.2 h.place, ?_⟩
    simp [candidate, h.found, h.queued, h.room, hpriority]

/-- The candidates stand in the order of the queue. -/
theorem candidates_ordered (jobs : List (JobId × Job PathBuf)) (queue : List JobId) (maxPerOrigin : ℕ) :
    (candidates jobs queue maxPerOrigin).Pairwise fun a b ↦ a.1 < b.1 := by
  have hplaces : queue.zipIdx.Pairwise fun a b ↦ a.2 < b.2 := by
    rw [← List.pairwise_map, List.zipIdx_map_snd]
    exact List.pairwise_lt_range'
  refine hplaces.filterMap _ fun a b hab x hx y hy ↦ ?_
  have hplace : ∀ {e : JobId × ℕ} {z : ℕ × Priority}, candidate jobs maxPerOrigin e = some z → z.1 = e.2 := by
    intro e z h
    unfold candidate at h
    split at h
    · cases h
    · split_ifs at h
      exact (Option.some.inj h) ▸ rfl
  rw [hplace hx, hplace hy]
  exact hab

/-- **The best choice**: a job that may start, of the highest priority, and before every other one of that priority. -/
def Best (jobs : List (JobId × Job PathBuf)) (queue : List JobId) (maxPerOrigin index : ℕ) (id : JobId)
    (job : Job PathBuf) : Prop :=
  Eligible jobs queue maxPerOrigin index id job ∧
    ∀ i id' job', Eligible jobs queue maxPerOrigin i id' job' →
      job'.priority.code < job.priority.code ∨ job'.priority = job.priority ∧ index ≤ i

theorem Priority.code_injective {a b : Priority} (h : a.code.toNat = b.code.toNat) : a = b := by
  cases a <;> cases b <;> first | rfl | cases h

theorem best_of_nextEligible (h : nextEligible jobs queue maxPerOrigin = some index) :
    ∃ id job, Best jobs queue maxPerOrigin index id job := by
  rw [nextEligible_eq, Option.map_eq_some_iff] at h
  obtain ⟨best, hbest, rfl⟩ := h
  have hhighest := (ranked_better.rank_combine hbest).1
  have hfirst := ranked_better.find?_combine hbest fun a b ha hb ↦ if_neg (hb.trans ha.symm).not_gt
  obtain ⟨id, job, hjob, hpriority⟩ := mem_candidates.1 (List.mem_of_find?_eq_some hfirst)
  refine ⟨id, job, hjob, fun i id' job' h' ↦ ?_⟩
  have hmem : (i, job'.priority) ∈ candidates jobs queue maxPerOrigin := mem_candidates.2 ⟨id', job', h', rfl⟩
  rw [hpriority, UInt8.lt_iff_toNat_lt]
  rcases (hhighest _ hmem).lt_or_eq with hlt | heq
  · exact .inl hlt
  · refine .inr ⟨Priority.code_injective heq, ?_⟩
    -- before the first of this priority there is none
    obtain ⟨-, before, after, hsplit, hbefore⟩ := List.find?_eq_some_iff_append.1 hfirst
    have hordered := candidates_ordered jobs queue maxPerOrigin
    rw [hsplit] at hmem hordered
    rcases List.mem_append.1 hmem with hmem | hmem
    · exact absurd heq (by simpa using hbefore _ hmem)
    · rcases List.mem_cons.1 hmem with heq | hmem
      · exact (congrArg Prod.fst heq).ge
      · exact ((List.pairwise_cons.1 (List.pairwise_append.1 hordered).2.1).1 _ hmem).le

theorem nextEligible_eq_none_iff :
    nextEligible jobs queue maxPerOrigin = none ↔ ∀ i id job, ¬Eligible jobs queue maxPerOrigin i id job := by
  rw [nextEligible_eq, Option.map_eq_none_iff, combine_eq_none]
  constructor
  · intro h i id job hjob
    have hmem : (i, job.priority) ∈ candidates jobs queue maxPerOrigin := mem_candidates.2 ⟨id, job, hjob, rfl⟩
    rw [h] at hmem
    cases hmem
  · intro h
    refine List.eq_nil_iff_forall_not_mem.2 fun choice hchoice ↦ ?_
    obtain ⟨id, job, hjob, -⟩ := mem_candidates.1 hchoice
    exact h _ _ _ hjob

/-- **The choice** is the best one there is. -/
theorem nextEligible_eq_some_iff :
    nextEligible jobs queue maxPerOrigin = some index ↔ ∃ id job, Best jobs queue maxPerOrigin index id job := by
  refine ⟨best_of_nextEligible, fun ⟨id, job, hjob, hbest⟩ ↦ ?_⟩
  cases hchoice : nextEligible jobs queue maxPerOrigin with
  | none => exact absurd hjob (nextEligible_eq_none_iff.1 hchoice _ _ _)
  | some i =>
    obtain ⟨id', job', hjob', hbest'⟩ := best_of_nextEligible hchoice
    have hle := hbest _ _ _ hjob'
    have hle' := hbest' _ _ _ hjob
    rw [UInt8.lt_iff_toNat_lt] at hle hle'
    rcases hle with hlt | ⟨hpriority, hle⟩
    · rcases hle' with hlt' | ⟨hpriority, -⟩
      · omega
      · rw [hpriority] at hlt
        omega
    · rcases hle' with hlt' | ⟨-, hle'⟩
      · rw [hpriority] at hlt'
        omega
      · rw [le_antisymm hle hle']

/-! ### Starting the choice -/

/-- A job of which only the progress and the signal to its worker changed. -/
structure Job.Alike (job job' : Job PathBuf) : Prop where
  state : job'.state = job.state
  origin : job'.origin = job.origin
  priority : job'.priority = job.priority

section Starting

variable {P : Paths PathBuf} {sha256 : Bytes → Digest} {s s' s'' : Actor PathBuf}

/-- What a save leaves of the jobs. -/
theorem jobs_of_saved (h : Saved P sha256 s s' (.ok ())) : s'.queue = s.queue ∧ s'.config = s.config ∧
    ∃ g : JobId × Job PathBuf → Job PathBuf, s'.jobs = (s.jobs.map fun e ↦ (e.1, g e)) ∧ ∀ e : JobId × Job PathBuf, e.2.Alike (g e) := by
  cases h with
  | without hstore => exact ⟨rfl, rfl, Prod.snd, by simp, fun e ↦ ⟨rfl, rfl, rfl⟩⟩
  | stored hstore progress bytes hbytes =>
    refine ⟨rfl, rfl, fun e ↦ if e.1 ∈ s.owners.map Prod.snd then
      { e.2 with progress := (progress e.1).getD e.2.progress } else e.2, ?_, fun e ↦ ?_⟩
    · refine List.map_congr_left fun e _ ↦ ?_
      dsimp only
      split <;> rfl
    · dsimp only
      split <;> exact ⟨rfl, rfl, rfl⟩

/-- **What starting a job changes.** -/
structure Start (s s' : Actor PathBuf) (index : ℕ) (id : JobId) (job : Job PathBuf) : Prop where
  best : Best s.jobs s.queue s.config.maxPerOrigin index id job
  queue : s'.queue = s.queue.eraseIdx index
  config : s'.config = s.config
  running : ∀ job', s'.jobs.lookup id = some job' → job'.state = .running
  kept : ∀ id' job', s'.jobs.lookup id' = some job' → ∃ job, s.jobs.lookup id' = some job ∧
    job'.priority = job.priority ∧ (id' ≠ id → job.Alike job')
  counts : ∀ origin, s'.jobs.countP (activeAt origin) =
    s.jobs.countP (activeAt origin) + if job.origin = origin then 1 else 0

theorem activeAt_alike {job job' : Job PathBuf} (h : job.Alike job') (id : JobId) (origin : Origin) :
    activeAt origin (id, job') = activeAt origin (id, job) := by
  simp [activeAt, h.state, h.origin]

/-- A job that is told nothing yet. -/
def Job.attend (job : Job PathBuf) : Job PathBuf := { job with cancel := some false }

theorem jobs_spawn (id : JobId) (s : Actor PathBuf) : (s.spawn id).jobs = adjust id Job.attend s.jobs := rfl

theorem start_of_startNext {starting : Starting} (h : s.startNext P sha256 starting = (s', true)) :
    ∃ index id job, nextEligible s.jobs s.queue s.config.maxPerOrigin = some index ∧ s.queue[index]? = some id ∧
      Start s s' index id job := by
  unfold startNext at h
  split at h
  · cases h
  next index hindex =>
    obtain ⟨id, job, hbest⟩ := best_of_nextEligible hindex
    have hjob := hbest.1
    have hfound : (s.dequeue index).jobs.lookup id = some job := hjob.found
    simp only [hjob.place, hfound, hjob.queued, ne_eq, not_true, if_false] at h
    have hsaved := saveState_saved P sha256 starting.save ((s.dequeue index).prepare id)
    split at h
    · cases h
    next s₁ hsave =>
      rw [hsave] at hsaved
      split at h
      · cases h
      obtain rfl : s₁.spawn id = s' := (Prod.mk.inj h).1
      obtain ⟨hqueue, hconfig, g, hjobs, halike⟩ := jobs_of_saved hsaved
      have hlookup : ∀ k, (s₁.spawn id).jobs.lookup k =
          if k = id then (s₁.jobs.lookup k).map Job.attend else s₁.jobs.lookup k :=
        fun k ↦ lookup_adjust id k Job.attend s₁.jobs
      have hlookup₁ : ∀ k, s₁.jobs.lookup k =
          (if k = id then (s.jobs.lookup k).map Job.prepare else s.jobs.lookup k).map fun v ↦ g (k, v) := by
        intro k
        rw [hjobs, lookup_map]
        exact congrArg _ (lookup_adjust id k Job.prepare s.jobs)
      refine ⟨index, id, job, hindex, hjob.place, hbest, hqueue, hconfig, fun job' hjob' ↦ ?_,
        fun id' job' hjob' ↦ ?_, fun origin ↦ ?_⟩
      · rw [hlookup, if_pos rfl, hlookup₁, if_pos rfl, hjob.found] at hjob'
        obtain rfl := Option.some.inj hjob'
        exact (halike (id, job.prepare)).state
      · by_cases hid : id' = id
        · subst hid
          rw [hlookup, if_pos rfl, hlookup₁, if_pos rfl, hjob.found] at hjob'
          obtain rfl := Option.some.inj hjob'
          exact ⟨job, hjob.found, (halike (id', job.prepare)).priority, fun hne ↦ absurd rfl hne⟩
        · rw [hlookup, if_neg hid, hlookup₁, if_neg hid, Option.map_eq_some_iff] at hjob'
          obtain ⟨job₀, hjob₀, rfl⟩ := hjob'
          exact ⟨job₀, hjob₀, (halike (id', job₀)).priority, fun _ ↦ halike (id', job₀)⟩
      · have hprepared : s₁.jobs.lookup id = some (g (id, job.prepare)) := by
          rw [hlookup₁, if_pos rfl, hjob.found]
          rfl
        have hspawn : (s₁.spawn id).jobs.countP (activeAt origin) = s₁.jobs.countP (activeAt origin) := by
          rw [jobs_spawn]
          exact Nat.add_right_cancel (countP_adjust hprepared)
        have hsave : s₁.jobs.countP (activeAt origin) =
            (adjust id Job.prepare s.jobs).countP (activeAt origin) := by
          rw [hjobs, List.countP_map]
          exact List.countP_congr fun e _ ↦ by rw [Function.comp_apply, activeAt_alike (halike e)]
        have hprepare : (adjust id Job.prepare s.jobs).countP (activeAt origin) =
            s.jobs.countP (activeAt origin) + (activeAt origin (id, job.prepare)).toNat := by
          have hidle : activeAt origin (id, job) = false := by simp [activeAt, hjob.queued, State.active]
          have hcount : (adjust id Job.prepare s.jobs).countP (activeAt origin) + (activeAt origin (id, job)).toNat =
              s.jobs.countP (activeAt origin) + (activeAt origin (id, job.prepare)).toNat := countP_adjust hjob.found
          rwa [hidle] at hcount
        rw [hspawn, hsave, hprepare]
        by_cases horigin : job.origin = origin <;> simp [activeAt, Job.prepare, State.active, horigin]

/-- **What may start afterwards** could have started before. -/
theorem eligible_of_start {i : ℕ} {id' : JobId} {job' : Job PathBuf} (hstart : Start s s' index id job)
    (h : Eligible s'.jobs s'.queue s'.config.maxPerOrigin i id' job') :
    ∃ j job₀, Eligible s.jobs s.queue s.config.maxPerOrigin j id' job₀ ∧ job₀.priority = job'.priority := by
  have hne : id' ≠ id := by
    rintro rfl
    have hrunning := hstart.running _ h.found
    rw [h.queued] at hrunning
    cases hrunning
  obtain ⟨job₀, hfound, -, halike⟩ := hstart.kept id' _ h.found
  replace halike := halike hne
  have hplace := h.place
  rw [hstart.queue, List.getElem?_eraseIdx] at hplace
  have hroom := h.room
  rw [hstart.counts, hstart.config, halike.origin] at hroom
  obtain ⟨j, hj⟩ : ∃ j, s.queue[j]? = some id' := by
    split at hplace
    · exact ⟨_, hplace⟩
    · exact ⟨_, hplace⟩
  exact ⟨j, job₀, ⟨hj, hfound, halike.state.symm.trans h.queued, by omega⟩, halike.priority.symm⟩

/-- Jobs are started one after another, each of them the choice at its time. -/
inductive Starts (P : Paths PathBuf) (sha256 : Bytes → Digest) : Actor PathBuf → List JobId → Actor PathBuf → Prop
  | none (s : Actor PathBuf) : Starts P sha256 s [] s
  | next {s s' s'' : Actor PathBuf} {index : ℕ} {id : JobId} {ids : List JobId} (starting : Starting)
      (hchoice : nextEligible s.jobs s.queue s.config.maxPerOrigin = some index) (hid : s.queue[index]? = some id)
      (hstart : s.startNext P sha256 starting = (s', true)) (hrest : Starts P sha256 s' ids s'') :
      Starts P sha256 s (id :: ids) s''

/-- **The loop that starts workers** is such a run, with perhaps a last round that ends it. -/
theorem startWorkers_starts (P : Paths PathBuf) (sha256 : Bytes → Digest) (starts : ℕ → Starting) (rounds : ℕ)
    (s : Actor PathBuf) : ∃ ids s', Starts P sha256 s ids s' ∧
      (s.startWorkers P sha256 starts rounds = s' ∨
        ∃ starting, s'.startNext P sha256 starting = (s.startWorkers P sha256 starts rounds, false)) := by
  induction rounds generalizing s with
  | zero => exact ⟨[], s, .none s, .inl rfl⟩
  | succ rounds ih =>
    rw [startWorkers]
    split
    · exact ⟨[], s, .none s, .inl rfl⟩
    · split
      next s' hstart =>
        obtain ⟨index, id, job, hchoice, hid, -⟩ := start_of_startNext hstart
        obtain ⟨ids, s'', hrest, hend⟩ := ih s'
        exact ⟨id :: ids, s'', .next _ hchoice hid hstart hrest, hend⟩
      next s' hlast => exact ⟨[], s, .none s, .inr ⟨_, hlast⟩⟩

theorem Starts.config {ids : List JobId} (h : Starts P sha256 s ids s') : s'.config = s.config := by
  induction h with
  | none => rfl
  | next starting hchoice hid hstart _ ih =>
    obtain ⟨index, id, job, -, -, hone⟩ := start_of_startNext hstart
    exact ih.trans hone.config

/-- **No start exceeds the limit** of an origin. -/
theorem Starts.counts_le {ids : List JobId} (h : Starts P sha256 s ids s') (origin : Origin) :
    s'.jobs.countP (activeAt origin) ≤ max (s.jobs.countP (activeAt origin)) s.config.maxPerOrigin := by
  induction h with
  | none => exact le_max_left _ _
  | next starting hchoice hid hstart _ ih =>
    obtain ⟨index, id, job, -, -, hone⟩ := start_of_startNext hstart
    have hcount := hone.counts origin
    have hroom := hone.best.1.room
    rw [hone.config] at ih
    split at hcount
    next horigin =>
      rw [horigin] at hroom
      omega
    next => omega

theorem eligible_of_starts {ids : List JobId} {i : ℕ} {id : JobId} {job : Job PathBuf} (h : Starts P sha256 s ids s')
    (hjob : Eligible s'.jobs s'.queue s'.config.maxPerOrigin i id job) :
    ∃ j job₀, Eligible s.jobs s.queue s.config.maxPerOrigin j id job₀ ∧ job₀.priority = job.priority := by
  induction h generalizing i job with
  | none => exact ⟨i, job, hjob, rfl⟩
  | next starting hchoice hid hstart _ ih =>
    obtain ⟨index, id, job', -, -, hone⟩ := start_of_startNext hstart
    obtain ⟨j, job₀, hjob₀, hpriority⟩ := ih hjob
    obtain ⟨j', job₁, hjob₁, hpriority'⟩ := eligible_of_start hone hjob₀
    exact ⟨j', job₁, hjob₁, hpriority'.trans hpriority⟩

/-- **Nothing of a lower priority is started** before a job that is left waiting. -/
theorem Starts.priority_le {ids : List JobId} {i : ℕ} {id : JobId} {job : Job PathBuf} (h : Starts P sha256 s ids s')
    (hjob : Eligible s'.jobs s'.queue s'.config.maxPerOrigin i id job) :
    ∀ started ∈ ids, ∃ job₀, s.jobs.lookup started = some job₀ ∧ job.priority.code ≤ job₀.priority.code := by
  induction h with
  | none => nofun
  | next starting hchoice hid hstart hrest ih =>
    obtain ⟨index, id', job', hchoice', hid', hone⟩ := start_of_startNext hstart
    obtain rfl := Option.some.inj (hchoice'.symm.trans hchoice)
    obtain rfl := Option.some.inj (hid'.symm.trans hid)
    rintro started (_ | ⟨_, hstarted⟩)
    · refine ⟨job', hone.best.1.found, ?_⟩
      obtain ⟨j, job₁, hjob₁, hpriority⟩ := eligible_of_starts hrest hjob
      obtain ⟨j', job₂, hjob₂, hpriority'⟩ := eligible_of_start hone hjob₁
      rw [← hpriority, ← hpriority']
      rcases hone.best.2 _ _ _ hjob₂ with hlt | ⟨heq, -⟩
      · exact UInt8.le_of_lt hlt
      · exact heq ▸ UInt8.le_refl _
    · obtain ⟨job₁, hjob₁, hle⟩ := ih hjob started hstarted
      obtain ⟨job₀, hjob₀, hpriority, -⟩ := hone.kept started job₁ hjob₁
      exact ⟨job₀, hjob₀, hpriority ▸ hle⟩

end Starting

/-- **The choice of the next job**: the first of the highest priority among the queued jobs whose origins have room, and
none exactly if there is no such job. However often its choice is started, no origin gets more workers than its limit
(or than it had), and what could still start has no higher priority than anything that was started. -/
theorem next_eligible_chooses (P : Paths PathBuf) (sha256 : Bytes → Digest) :
    (∀ (jobs : List (JobId × Job PathBuf)) (queue : List JobId) (maxPerOrigin : ℕ),
      (∀ index, nextEligible jobs queue maxPerOrigin = some index ↔
        ∃ id job, Best jobs queue maxPerOrigin index id job) ∧
      (nextEligible jobs queue maxPerOrigin = none ↔ ∀ i id job, ¬Eligible jobs queue maxPerOrigin i id job)) ∧
    ∀ s ids s', Starts P sha256 s ids s' →
      (∀ origin, s'.jobs.countP (activeAt origin) ≤ max (s.jobs.countP (activeAt origin)) s.config.maxPerOrigin) ∧
      ∀ i id job, Eligible s'.jobs s'.queue s'.config.maxPerOrigin i id job → ∀ started ∈ ids,
        ∃ job₀, s.jobs.lookup started = some job₀ ∧ job.priority.code ≤ job₀.priority.code :=
  ⟨fun _ _ _ ↦ ⟨fun _ ↦ nextEligible_eq_some_iff, nextEligible_eq_none_iff⟩,
    fun _ _ _ h ↦ ⟨h.counts_le, fun _ _ _ hjob ↦ h.priority_le hjob⟩⟩

end Fhd.DownloadEngine
