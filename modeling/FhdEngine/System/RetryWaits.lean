import FhdEngine.System.Scheduling
import FhdEngine.Runtime.RetryTiming

/-!
# A retry waits for its moment

The other half of the retry timing is the scheduler's: what a session put off until a tick is not started
before the clock reads that tick. `Minded` is the invariant, for any deadlines that some identities are
held back by: such an identity has no session and is not ready, and what waits under it waits at least
as long.

Nothing is assumed about the other jobs, which may be admitted twice, told to stop, or fail.
-/

namespace Fhd

open Process (Prog Environment Ensures Returns)
open Loop (answered_eq_some)

/-! ### Jobs that may be held back -/

/-- **A job is minded**: it is not ready while it is held back, and waits at least as long. -/
structure Minds (held : JobId → Option ℕ) (job : Job) : Prop where
  inv : job.Inv
  free : job.Runnable → held job.id = none
  waits : job.state = .retryWait → ∀ due ∈ held job.id, ∃ at', job.retryAt = some at' ∧ due ≤ at'

theorem Minds.of_free {held : JobId → Option ℕ} {job : Job} (hinv : job.Inv)
    (hfree : held job.id = none) : Minds held job :=
  ⟨hinv, fun _ ↦ hfree, fun _ due hdue ↦ by rw [hfree] at hdue; cases hdue⟩

/-- A job that rests is minded. -/
theorem Minds.of_rest {held : JobId → Option ℕ} {job : Job} (hinv : job.Inv) (hrun : ¬job.Runnable)
    (hwait : job.state ≠ .retryWait) : Minds held job :=
  ⟨hinv, fun h ↦ absurd h hrun, fun h ↦ absurd h hwait⟩

/-- **A task is minded**: its job is not held back, and it returns that job. -/
structure Task.Minded (held : JobId → Option ℕ) (t : Task) : Prop where
  free : held t.id = none
  returns : ∀ p, t.session = some p → Ensures (around False) (fun _ ↦ True)
    (fun r _ ↦ r.1.id = t.id ∧ ∀ ended, r.2 = .ok ended → r.1.Inv) () p

/-- A control moves a waiting job out of the queue. -/
theorem control_rests {job job' : Job} (hwait : job.state = .retryWait) (control : Control)
    (moved settled : Answers)
    (h : (Coordinator.command job (Loop.commandOf control)).eval moved = .ok job') {job'' : Job}
    (hsettled : Loop.settle settled job' = .ok job'') :
    job''.state = .paused ∨ job''.state = .cancelled ∨ job''.state = .cancelling := by
  have hstate : job'.state = .paused ∨ job'.state = .cancelling := by
    rcases Coordinator.command_eval job (Loop.commandOf control) moved with
      ⟨⟨next, hexec⟩, -⟩ | ⟨next, version, hexec, hr⟩ | ⟨e, hr, -⟩
    · cases control <;> simp [Loop.commandOf, Job.execute, hwait, Job.moved] at hexec
    · rw [hr] at h
      cases h
      cases control with
      | pause =>
        simp only [Loop.commandOf, Job.execute, hwait, Job.moved] at hexec
        cases hexec
        exact Or.inl rfl
      | cancel =>
        simp only [Loop.commandOf, Job.execute, hwait, Job.moved] at hexec
        cases hexec
        exact Or.inr rfl
    · rw [hr] at h
      cases h
  rcases hstate with hs | hs
  · simp only [Loop.settle, hs] at hsettled
    cases hsettled
    exact Or.inl hs
  · have hcleanup : (Coordinator.command job' .cleanupFinished).eval settled = .ok job'' := by
      simp only [Loop.settle, Coordinator.recover, hs] at hsettled
      rwa [Prog.eval_bind] at hsettled
    rcases Coordinator.command_eval job' .cleanupFinished settled with
      ⟨⟨next, hexec⟩, hr⟩ | ⟨next, version, hexec, hr⟩ | ⟨e, hr, -⟩
    · rw [hr] at hcleanup
      cases hcleanup
      exact Or.inr (Or.inr hs)
    · rw [hr] at hcleanup
      cases hcleanup
      simp only [Job.execute, hs, Job.moved] at hexec
      split at hexec
      · cases hexec
      · cases hexec
        exact Or.inr (Or.inl rfl)
    · rw [hr] at hcleanup
      cases hcleanup

namespace Loop

variable {S : Scheduler} {held : JobId → Option ℕ} {s : Loop}

/-- **The invariant**: what is ready or runs is not held back, and what waits is to wait long enough. -/
structure Minded (held : JobId → Option ℕ) (s : Loop) : Prop where
  ready : ∀ e ∈ s.ready, Minds held e.job ∧ e.job.Runnable
  waiting : ∀ e ∈ s.waiting, Minds held e.job ∧ e.job.state = .retryWait
  sessions : ∀ t ∈ s.sessions, t.Minded held

namespace Minded

/-- Only the two queues and the sessions matter. -/
theorem congr {s' : Loop} (h : s.Minded held) (hready : s'.ready = s.ready)
    (hwaiting : s'.waiting = s.waiting) (hsessions : s'.sessions = s.sessions) : s'.Minded held :=
  ⟨hready ▸ h.ready, hwaiting ▸ h.waiting, hsessions ▸ h.sessions⟩

/-! ### Sessions -/

theorem setTask {t : Task} (h : s.Minded held) (ht : t.Minded held) : (s.setTask t).Minded held := by
  refine ⟨h.ready, h.waiting, fun u hu ↦ ?_⟩
  obtain ⟨v, hv, rfl⟩ := List.mem_map.1 hu
  split
  · exact ht
  · exact h.sessions v hv

/-- **A session does one thing by itself.** -/
theorem aside (h : s.Minded held) (a : Aside) : (s.aside a).Minded held := by
  cases a with
  | answer task give =>
    rw [Loop.aside]
    split
    next t hfind =>
      have ht := h.sessions t (List.mem_of_find?_eq_some hfind)
      split
      next op next hsession =>
        split
        · exact h
        next a _ =>
          split
          · exact h
          next controls governor _ =>
            have hnext : Task.Minded held { t with controls, session := some (next a) } := by
              refine ⟨ht.free, fun p hp ↦ ?_⟩
              cases hp
              exact (ht.returns _ hsession a () False.elim).2
            exact (h.setTask hnext).congr rfl rfl rfl
      · exact h
    · exact h
  | panic task =>
    rw [Loop.aside]
    split
    next t hfind =>
      have ht := h.sessions t (List.mem_of_find?_eq_some hfind)
      split
      · exact h.setTask ⟨ht.free, (by rintro _ ⟨⟩)⟩
      · exact h
    · exact h

theorem asides (h : s.Minded held) (l : List Aside) : (s.asides l).Minded held := by
  induction l generalizing s with
  | nil => exact h
  | cons a l ih => exact ih (h.aside a)

theorem send (h : s.Minded held) (id : JobId) (task : ℕ) (control : Control) :
    (s.send id task control).Minded held := by
  unfold Loop.send trySend
  split
  · exact h.congr rfl rfl rfl
  next t hfind =>
    have ht := h.sessions t (List.mem_of_find?_eq_some hfind)
    split
    · exact h.setTask ⟨ht.free, ht.returns⟩
    · exact h.congr rfl rfl rfl

theorem deliver (h : s.Minded held) (meanwhile : ℕ → List Aside) :
    (s.deliver meanwhile).Minded held := by
  have hall : ∀ (l : List (JobId × Control)) (s : Loop) (meanwhile : ℕ → List Aside),
      s.Minded held → (s.deliverAll meanwhile l).Minded held := by
    intro l
    induction l with
    | nil => exact fun _ _ h ↦ h
    | cons d l ih =>
      intro s meanwhile h
      obtain ⟨id, control⟩ := d
      unfold deliverAll
      dsimp only
      split
      · exact ih _ _ ((h.asides _).send _ _ _)
      · exact ih _ _ (h.asides _)
  exact hall _ _ _ (h.congr rfl rfl rfl)

/-! ### The queue -/

/-- **A minded job is queued**, or it is done. -/
theorem take {e : Entry} (h : s.Minded held) (he : Minds held e.job) : (s.take e).Minded held := by
  have hready : e.job.Runnable → Minded held { s with ready := s.ready ++ [e] } := by
    refine fun hrun ↦ ⟨fun e' he' ↦ ?_, h.waiting, h.sessions⟩
    rcases List.mem_append.1 he' with he' | he'
    · exact h.ready e' he'
    · rw [List.mem_singleton.1 he']
      exact ⟨he, hrun⟩
  unfold Loop.take
  split
  next hs => exact hready (Or.inl hs)
  next hs => exact hready (Or.inr (Or.inl hs))
  next hs => exact hready (Or.inr (Or.inr hs))
  next hs =>
    refine ⟨h.ready, fun e' he' ↦ ?_, h.sessions⟩
    rcases List.mem_append.1 he' with he' | he'
    · exact h.waiting e' he'
    · rw [List.mem_singleton.1 he']
      exact ⟨he, hs⟩
  · exact h.congr rfl rfl rfl

theorem push (h : s.Minded held) (outcome : Outcome) : (s.push outcome).Minded held :=
  h.congr rfl rfl rfl

theorem takeBack {result : Except RunError Job} (h : s.Minded held) (e : Entry)
    (hresult : ∀ job, result = .ok job → Minds held job) : (s.takeBack e result).Minded held := by
  cases result with
  | ok job => exact h.take (e := ⟨job, e.origin⟩) (hresult job rfl)
  | error error => exact h.push _

/-- An entry is taken out of a queue. -/
theorem remove {id : JobId} {e : Entry} {s' : Loop} (h : s.Minded held)
    (hremove : s.remove id = some (e, s')) :
    s'.Minded held ∧ Minds held e.job ∧ (e.job.Runnable ∨ e.job.state = .retryWait) := by
  unfold Loop.remove at hremove
  split at hremove
  next e' hfind =>
    cases hremove
    obtain ⟨he, hrun⟩ := h.ready e (List.mem_of_find?_eq_some hfind)
    exact ⟨⟨fun e' he' ↦ h.ready e' (List.mem_of_mem_eraseP he'), h.waiting, h.sessions⟩, he,
      Or.inl hrun⟩
  · split at hremove
    next e' hfind =>
      cases hremove
      obtain ⟨he, hwait⟩ := h.waiting e (List.mem_of_find?_eq_some hfind)
      exact ⟨⟨h.ready, fun e' he' ↦ h.waiting e' (List.mem_of_mem_eraseP he'), h.sessions⟩, he,
        Or.inr hwait⟩
    · cases hremove

/-- **Promotion** leaves what is held back, as long as its moment is ahead. -/
theorem promoteAll {now : ℕ} (hheld : ∀ id, ∀ due ∈ held id, now < due) (answers : ℕ → Answers)
    (l : List Entry) (h : s.Minded held)
    (hl : ∀ e ∈ l, Minds held e.job ∧ e.job.state = .retryWait) :
    (s.promoteAll now answers l).Minded held := by
  induction l generalizing s answers with
  | nil => exact h
  | cons e l ih =>
    obtain ⟨he, hwait⟩ := hl e List.mem_cons_self
    unfold Loop.promoteAll
    refine ih _ ?_ fun e he ↦ hl e (List.mem_cons_of_mem _ he)
    split
    · have htake := h.take he
      rwa [Loop.take, hwait] at htake
    next hpast =>
      refine h.takeBack e fun job hjob ↦ ?_
      have hsame := Coordinator.command_same e.job (.retryDue now) (answers 0)
      rw [hjob] at hsame
      refine .of_free (hsame.2 he.inv) ?_
      -- a job that is held back waits past this moment
      rw [hsame.1]
      refine Option.eq_none_iff_forall_not_mem.2 fun due hdue ↦ hpast ?_
      obtain ⟨at', hat, hle⟩ := he.waits hwait due hdue
      rw [ahead, hat]
      exact decide_eq_true ((hheld _ due hdue).trans_le hle)

theorem promoteDue {now : ℕ} (h : s.Minded held) (hheld : ∀ id, ∀ due ∈ held id, now < due)
    (answers : ℕ → Answers) : (s.promoteDue now answers).Minded held :=
  promoteAll hheld answers s.waiting ⟨h.ready, fun _ he ↦ absurd he List.not_mem_nil, h.sessions⟩
    h.waiting

/-! ### Admission -/

theorem spawn {e : Entry} {grant : ℕ} (h : s.Minded held) (he : Minds held e.job)
    (hrun : e.job.Runnable) (hgrant : grant ≠ 0 ∧ grant ≤ S.coordinator.config.connections) :
    (s.spawn S e grant).Minded held := by
  refine ⟨h.ready, h.waiting, fun t ht ↦ ?_⟩
  rcases List.mem_append.1 ht with ht | ht
  · exact h.sessions t ht
  · rw [List.mem_singleton.1 ht]
    refine ⟨he.free hrun, fun p hp ↦ ?_⟩
    cases hp
    refine (Coordinator.runWith_ordinary he.inv hrun hgrant).mono fun r _ hr ↦ ⟨hr.1, ?_⟩
    rintro ended hended
    have hrest := hr.2
    rw [hended] at hrest
    exact hrest.inv

theorem admitAll (now : ℕ) (meanwhile : ℕ → List Aside) (skipped l : List Entry) (h : s.Minded held)
    (hl : ∀ e ∈ skipped ++ l, Minds held e.job ∧ e.job.Runnable) :
    (Loop.admitAll S now s meanwhile skipped l).Minded held := by
  induction l generalizing s meanwhile skipped with
  | nil =>
    rw [List.append_nil] at hl
    exact ⟨hl, h.waiting, h.sessions⟩
  | cons e l ih =>
    obtain ⟨he, hrun⟩ := hl e (by simp)
    unfold Loop.admitAll
    split
    · exact ⟨hl, h.waiting, h.sessions⟩
    · have hasides := h.asides (meanwhile 0)
      dsimp only
      split
      · exact ih _ _ (hasides.congr rfl rfl rfl) (by simpa using hl)
      next hgrant =>
        have hle : ∀ want, (((s.asides (meanwhile 0)).governor.admitConnections e.origin want now).1 ≤
            want) := fun want ↦ OriginGovernor.admit_le
        refine ih _ _ (spawn (s := { s.asides (meanwhile 0) with governor := _ }) ?_ he hrun ⟨hgrant, ?_⟩)
          fun e' he' ↦ hl e' ?_
        · exact hasides.congr rfl rfl rfl
        · exact ((hle _).trans (Nat.min_le_left _ _)).trans S.perJob_le
        · simp only [List.mem_append, List.mem_cons] at he' ⊢
          tauto

theorem admitReady (h : s.Minded held) (now : ℕ) (meanwhile : ℕ → List Aside) :
    (Loop.admitReady S s now meanwhile).Minded held :=
  admitAll now meanwhile [] s.ready ⟨fun _ he ↦ absurd he List.not_mem_nil, h.waiting, h.sessions⟩
    h.ready

/-! ### Events -/

theorem finish (h : s.Minded held) (id : JobId) (published : Bool) (now : ℕ) :
    (s.finish id published now).Minded held := by
  unfold Loop.finish
  split
  · exact h
  · exact h.congr rfl rfl rfl

/-- **A session is over**, and its job is free to be queued. -/
theorem onJoined (h : s.Minded held) (task now : ℕ) (origin : OriginId) :
    (s.onJoined task now origin).Minded held := by
  have hrest : Minded held { s with sessions := s.sessions.filter (·.number ≠ task) } :=
    ⟨h.ready, h.waiting, fun t ht ↦ h.sessions t (List.mem_of_mem_filter ht)⟩
  unfold Loop.onJoined
  split
  · exact h
  next t hfind =>
    have ht := h.sessions t (List.mem_of_find?_eq_some hfind)
    dsimp only
    split
    · exact h
    next job result hsession =>
      obtain ⟨hid, hinv⟩ := ht.returns _ hsession
      have hdone := hrest.finish t.id (isPublished result) now
      cases result with
      | ok ended =>
        refine take (e := ⟨job, origin⟩) (hdone.congr rfl rfl rfl) ?_
        exact .of_free (hinv ended rfl) (by rw [show job.id = t.id from hid]; exact ht.free)
      | error error => exact hdone.push _
    · split
      · exact hrest
      · have howners : Minded held { s with
            sessions := s.sessions.filter (·.number ≠ task)
            owners := s.owners.erase task } := hrest.congr rfl rfl rfl
        exact (howners.finish ..).push _

/-- **A control** never brings a job that waits back to the front. -/
theorem onControl (h : s.Minded held) (id : JobId) (control : Control) (moved settled : Answers) :
    (s.onControl id control moved settled).Minded held := by
  unfold Loop.onControl
  split
  · exact h.send _ _ _
  · split
    · exact h
    next e s' hremove =>
      obtain ⟨hs', he, hstate⟩ := h.remove hremove
      have hcommand := Coordinator.command_same e.job (commandOf control) moved
      split
      next job hjob =>
        rw [hjob] at hcommand
        refine hs'.takeBack e fun job' hjob' ↦ ?_
        have hsame := settle_same job settled
        rw [hjob'] at hsame
        have hinv : job'.Inv := hsame.2 (hcommand.2 he.inv)
        rcases hstate with hrun | hwait
        · exact .of_free hinv (by rw [hsame.1, hcommand.1]; exact he.free hrun)
        · have hrests := control_rests hwait control moved settled hjob hjob'
          refine .of_rest hinv ?_ ?_
          · rintro (hs | hs | hs) <;> simp [hs] at hrests
          · intro hs
            simp [hs] at hrests
      · exact hs'.push _

/-- **The select**, unless it hands over a job that is held back. -/
theorem select (h : s.Minded held) (event : Event)
    (harrival : ∀ job, s.arrival event = some job → Minds held job) : (s.select event).Minded held := by
  have hsendAll : ∀ (l : List ((_ : JobId) × Active)) (s : Loop), s.Minded held →
      (l.foldl (fun s e ↦ s.send e.1 e.2.control .pause) s).Minded held := by
    intro l
    induction l with
    | nil => exact fun _ h ↦ h
    | cons e l ih => exact fun s h ↦ ih _ (h.send _ _ _)
  cases event with
  | joined task now origin => exact h.onJoined task now origin
  | closed => exact h.congr rfl rfl rfl
  | woke => exact h
  | command command origin moved settled =>
    rw [Loop.select]
    split
    next hopen =>
      cases command with
      | pause id => exact h.onControl id .pause moved settled
      | cancel id => exact h.onControl id .cancel moved settled
      | shutdown => exact (hsendAll s.active.entries s h).congr rfl rfl rfl
      | admitJob job =>
        exact h.take (e := ⟨job, origin⟩) (harrival job (by simp [arrival, hopen]))
    · exact h

/-! ### Turns -/

theorem prepare (h : s.Minded held) (t : Turn) (hheld : ∀ id, ∀ due ∈ held id, t.promoteNow < due) :
    (s.prepare S t).Minded held := by
  have hdeliver := h.deliver t.delivering
  unfold Loop.prepare
  dsimp only
  split
  · exact hdeliver
  · exact (hdeliver.promoteDue hheld t.promoted).admitReady t.admitNow t.admitting

/-- **Step lemma**: a turn whose promotion looks before anything that is held back falls due. -/
theorem turn (h : s.Minded held) (t : Turn) (hheld : ∀ id, ∀ due ∈ held id, t.promoteNow < due)
    (harrival : ∀ job, s.turnArrival S t = some job → Minds held job) : (s.turn S t).Minded held := by
  by_cases hover : s.outcomes.isSome = true
  · rwa [Loop.turn, if_pos hover]
  have hs := h.prepare (S := S) t hheld
  rw [Loop.turn, if_neg hover]
  dsimp only
  split
  · exact hs.congr rfl rfl rfl
  next hfinished =>
    have hcheck := hs.asides t.checking
    split
    · exact hcheck.congr rfl rfl rfl
    next hstranded =>
      have hat : s.atSelect S t = some (((s.prepare S t).asides t.checking).asides t.selecting) := by
        simp [atSelect, hover, hfinished, hstranded]
      refine (hcheck.asides t.selecting).select t.event fun job hjob ↦ harrival job ?_
      rw [turnArrival, hat]
      exact hjob

/-- What is held back is not started. -/
theorem notMem_started {x : JobId} {due : ℕ} (h : s.Minded held) (hx : held x = some due) (n : ℕ) :
    x ∉ s.startedSince n := by
  intro hmem
  obtain ⟨r, hr, rfl⟩ := List.mem_map.1 (Multiset.mem_coe.1 hmem)
  obtain ⟨t, ht, rfl⟩ := List.mem_map.1 (List.mem_of_mem_filter hr)
  rw [show held t.id = none from (h.sessions t ht).free] at hx
  cases hx

/-! ### Runs -/

/-- Nothing is ready or runs before a run. -/
theorem start (governor : OriginGovernor) : (Loop.start governor).Minded held :=
  ⟨fun _ he ↦ absurd he List.not_mem_nil, fun _ he ↦ absurd he List.not_mem_nil,
    fun _ ht ↦ absurd ht List.not_mem_nil⟩

/-- What a run is given is not held back. -/
theorem intake (h : s.Minded held) (seen : List JobId) (jobs : List (Job × Answers × OriginId))
    (hjobs : ∀ j ∈ jobs, j.1.Inv ∧ held j.1.id = none) : (s.intake seen jobs).Minded held := by
  induction jobs generalizing s seen with
  | nil => exact h
  | cons j jobs ih =>
    obtain ⟨job, answers, origin⟩ := j
    have hrest : ∀ j ∈ jobs, j.1.Inv ∧ held j.1.id = none := fun j hj ↦ hjobs j (List.mem_cons_of_mem _ hj)
    obtain ⟨hjob, hfree⟩ := hjobs _ List.mem_cons_self
    unfold Loop.intake
    split
    · exact ih (h.push _) _ hrest
    · have hsame := settle_same job answers
      split
      next settled hsettled =>
        rw [hsettled] at hsame
        have hminds : Minds held settled := .of_free (hsame.2 hjob) (hsame.1 ▸ hfree)
        exact ih (h.take (e := ⟨settled, origin⟩) hminds) _ hrest
      · exact ih (h.push _) _ hrest

/-- **Run lemma**: nothing is needed of a run but jobs that are in order. -/
theorem run (h : s.Minded fun _ ↦ none) (turns : List Turn)
    (harrivals : ∀ job ∈ arrivals S s turns, job.Inv) :
    (turns.foldl (Loop.turn S) s).Minded fun _ ↦ none := by
  induction turns generalizing s with
  | nil => exact h
  | cons t turns ih =>
    refine ih (h.turn t (fun _ _ hdue ↦ by cases hdue) fun job hjob ↦ .of_free ?_ rfl) fun job hjob ↦ ?_
    · exact harrivals job (List.mem_append_left _ (by simp [hjob]))
    · exact harrivals job (List.mem_append_right _ hjob)

end Minded

/-- One identity is held back. -/
def holding (x : JobId) (due : ℕ) : JobId → Option ℕ := fun id ↦ if id = x then some due else none

theorem mem_holding {x id : JobId} {due due' : ℕ} (h : due' ∈ holding x due id) : id = x ∧ due' = due := by
  unfold holding at h
  split at h
  next hid => exact ⟨hid, (Option.some.inj h).symm⟩
  · cases h

/-- What is held back beyond every look of a run is not started in it. -/
theorem Minded.neverStarted {x : JobId} {due : ℕ} {later : List Turn} (h : s.Minded (holding x due))
    (hlate : ∀ t ∈ later, t.promoteNow < due)
    (harrivals : ∀ job ∈ arrivals S s later, job.Inv ∧ job.id ≠ x) {pre post : List Turn} {t : Turn}
    (hlater : later = pre ++ t :: post) : x ∉ (pre.foldl (Loop.turn S) s).turnStarts S t := by
  induction later generalizing s pre with
  | nil => simp at hlater
  | cons u later ih =>
    have hheld : ∀ id, ∀ due' ∈ holding x due id, u.promoteNow < due' := by
      intro id due' hmem
      rw [(mem_holding hmem).2]
      exact hlate u List.mem_cons_self
    cases pre with
    | nil =>
      obtain ⟨rfl, -⟩ := List.cons.inj hlater
      have hnot : x ∉ (s.prepare S u).startedSince s.nextTask :=
        (h.prepare u hheld).notMem_started (if_pos rfl) _
      rw [List.foldl_nil, turnStarts]
      split
      · exact Multiset.notMem_zero _
      · exact hnot
    | cons u' pre =>
      obtain ⟨rfl, hrest⟩ := List.cons.inj hlater
      refine ih (h.turn u hheld fun job hjob ↦ ?_) (fun t ht ↦ hlate t (List.mem_cons_of_mem _ ht))
        (fun job hjob ↦ harrivals job (List.mem_append_right _ hjob)) hrest
      obtain ⟨hinv, hne⟩ := harrivals job (List.mem_append_left _ (by simp [hjob]))
      exact .of_free hinv (if_neg hne)

end Loop

open Loop

/-- The probe of a session fails at three, and the jitter is two. -/
def Sample.failing (l : List Called) (op : Port) : Option (Answer op × List Called) :=
  have answer : Option (Answer op) :=
    match op with
    | .job (.commitTransition _) => some (Except.ok () : Except CommitError Unit)
    | .awaitProbe _ _ => some (.probe (.error .transient))
    | .nowMs => some (3 : ℕ)
    | .jitter => some (2 : ℕ)
    | .tryRecv => some (none : Option Control)
    | .abortWorkers => some ()
    | _ => none
  answer.map fun a ↦ (a, ⟨op, a⟩ :: l)

end Fhd
