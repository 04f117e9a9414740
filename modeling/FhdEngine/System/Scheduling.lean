import FhdEngine.Runtime.SchedulerRuns
import FhdEngine.System.Sessions

/-!
# What the scheduler promises

Four promises of `crates/runtime/src/scheduler.rs` over whole runs, for any jobs, any sequence of commands
and any behaviour of the sessions: the accounts agree at every point of every iteration and every job is
answered once; no identity lives twice; queued work always has a moment at which it is looked at again;
and a job that is left alone is started a bounded number of times.

The second and the third have exceptions, which are made precise here. An `Admit` is not compared with
what is live, and a deadline that passes between two readings of the clock is seen by neither.
-/

namespace Fhd

open Loop

/-! ### Runs that admit new jobs -/

/-- **Every job that is admitted is nowhere yet**: not ready, not waiting and not active. -/
def AdmitsNew (S : Scheduler) : Loop → List Turn → Prop
  | _, [] => True
  | s, t :: turns =>
    (∀ s' job, s.atSelect S t = some s' → s'.arrival t.event = some job →
      job.Inv ∧ job.id ∉ s'.liveIds) ∧ AdmitsNew S (s.turn S t) turns

/-- The jobs a run is handed through `Admit`. -/
def arrivals (S : Scheduler) : Loop → List Turn → List Job
  | _, [] => []
  | s, t :: turns => (s.turnArrival S t).toList ++ arrivals S (s.turn S t) turns

/-- Nothing is to be known of any job. -/
def plainWatch (S : Scheduler) (limits : OriginLimits) : Watch S where
  limits := limits
  spared := fun _ ↦ False
  know := fun _ _ _ ↦ False
  limit := 0
  next := False.elim
  ended := fun h _ _ ↦ h
  due := fun h _ ↦ h

variable {S : Scheduler} {governor : OriginGovernor} {jobs : List (Job × Answers × OriginId)}
  {turns : List Turn}

theorem AdmitsNew.allowed {limits : OriginLimits} {s : Loop} {P : Past} (h : AdmitsNew S s turns) :
    AllAllowed (plainWatch S limits) s P turns := by
  induction turns generalizing s P with
  | nil => trivial
  | cons t turns ih =>
    refine ⟨fun s' hat ↦ ?_, ih h.2⟩
    cases hevent : t.event with
    | command command origin moved settled =>
      cases command with
      | admitJob job =>
        intro hopen
        have harrival : s'.arrival t.event = some job := by simp [hevent, arrival, hopen]
        obtain ⟨hinv, hnew⟩ := h.1 s' job hat harrival
        exact ⟨hinv, by rwa [live_nil, Multiset.mem_coe], False.elim⟩
      | pause => exact fun _ ↦ id
      | cancel => exact fun _ ↦ id
      | shutdown => exact fun _ _ ↦ id
    | _ => trivial

theorem given_runPast (s : Loop) (P : Past) (turns : List Turn) :
    (runPast S s P turns).given = ↑((arrivals S s turns).map (·.id)) + P.given := by
  induction turns generalizing s P with
  | nil => simp [runPast, arrivals]
  | cons t turns ih =>
    have hone : ((s.turnArrival S t).toList.map (·.id) : List JobId) =
        ((s.turnArrival S t).map (·.id)).toList := by
      cases s.turnArrival S t <;> rfl
    rw [runPast, ih, turnPast, arrivals, List.map_append, hone, ← Multiset.coe_add, add_assoc]
    exact add_left_comm _ _ _

/-- A run under these conditions stands well. -/
theorem standing_run (hgovernor : ∀ origin, governor.inFlight origin = 0) (hjobs : ∀ j ∈ jobs, j.1.Inv)
    (hadmits : AdmitsNew S ((start governor).intake [] jobs) turns) :
    Standing (plainWatch S governor.limits)
      (runPast S ((start governor).intake [] jobs) ⟨↑(jobs.map (·.1.id)), 0, 0⟩ turns)
      (S.run governor jobs turns) := by
  have hstart : Sound (plainWatch S governor.limits) ⟨0, 0, 0⟩ 0 [] (start governor) :=
    Sound.start rfl hgovernor
  have hintake : Sound (plainWatch S governor.limits) ⟨↑(jobs.map (·.1.id)) + 0, 0, 0⟩ 0 []
      ((start governor).intake [] jobs) :=
    hstart.intake (fun id hid ↦ by simp [Loop.live, start] at hid) hjobs (fun _ h ↦ h.elim)
      fun _ _ h ↦ h.elim
  rw [add_zero] at hintake
  exact Standing.run ⟨_, hintake, Or.inl rfl⟩ hadmits.allowed

/-! ### The accounts -/

/-- **The accounts of the scheduler.** At the top of every iteration, after admission and at the select,
the sums agree and the caps are kept; when a run returns nothing is outstanding, and every job given or
admitted comes back exactly once. -/
theorem accounts_inOrder (hgovernor : ∀ origin, governor.inFlight origin = 0)
    (hjobs : ∀ j ∈ jobs, j.1.Inv) (hadmits : AdmitsNew S ((start governor).intake [] jobs) turns) :
    InOrder S (S.run governor jobs turns) ∧
      ((S.run governor jobs turns).outcomes = none → ∀ t,
        InOrder S ((S.run governor jobs turns).prepare S t) ∧
        ∀ s', (S.run governor jobs turns).atSelect S t = some s' → InOrder S s') ∧
      ∀ l, (S.run governor jobs turns).outcomes = some l →
        (S.run governor jobs turns).used = 0 ∧ (S.run governor jobs turns).active.entries = [] ∧
        (∀ origin, (S.run governor jobs turns).governor.inFlight origin = 0) ∧
        (l.map (·.id)).Perm (jobs.map (·.1.id) ++
          (arrivals S ((start governor).intake [] jobs) turns).map (·.id)) := by
  have hstanding := standing_run hgovernor hjobs hadmits
  refine ⟨hstanding.inOrder, fun hrunning t ↦ ?_, fun l hl ↦ ?_⟩
  · have hs := hstanding.sound hrunning
    exact ⟨(hs.prepare t).inOrder, fun s' hat ↦ (hs.atSelect hat).inOrder⟩
  · obtain ⟨hids, hused, hactive, hinFlight⟩ := hstanding.returned hl
    refine ⟨hused, hactive, hinFlight, Multiset.coe_eq_coe.1 ?_⟩
    rw [hids, given_runPast, ← Multiset.coe_add, add_comm]

/-- One connection for one job at a time. -/
def Sample.scheduler : Scheduler where
  coordinator := Sample.coordinator
  config := ⟨1, 1, 1, false⟩
  fuel := 2
  config_valid := by decide
  perJob_le := by decide

def Sample.idleGovernor : OriginGovernor := ⟨⟨1, 1, 1, 1⟩, fun _ ↦ none⟩

/-- Every command outside a session is committed. -/
def Sample.answers : Answers
  | .commitTransition _ => (Except.ok () : Except CommitError Unit)
  | .partsFor _ => (Except.ok ["parts"] : Except AppError Path)
  | .dropPart _ _ => (some (.ok ()) : Blocking Unit)

/-- A turn at one moment, in which only this happens. -/
def Sample.turn (selecting : List Aside) (event : Event) : Turn where
  delivering := fun _ ↦ []
  promoteNow := 0
  promoted := fun _ ↦ Sample.answers
  admitNow := 0
  admitting := fun _ ↦ []
  checking := []
  deadlineNow := 0
  selecting := selecting
  event := event

/-- One job, given twice. -/
def Sample.addedTwice : List (Job × Answers × OriginId) :=
  [(Sample.added, Sample.answers, Sample.origin), (Sample.added, Sample.answers, Sample.origin)]

/-- The only session panics, it is joined, and the run returns. -/
def Sample.panics : List Turn :=
  [Sample.turn [.panic 0] (.joined 0 0 Sample.origin), Sample.turn [] .woke]

/-- The second of two is refused, the first panics, and both are answered. -/
theorem accounts_of_panic : ∃ l,
    (Sample.scheduler.run Sample.idleGovernor Sample.addedTwice Sample.panics).outcomes = some l ∧
    (l.map (·.id)).Perm [Sample.added.id, Sample.added.id] ∧ InOrder Sample.scheduler
      (Sample.scheduler.run Sample.idleGovernor Sample.addedTwice Sample.panics) := by
  have hadmits : AdmitsNew Sample.scheduler ((start Sample.idleGovernor).intake [] Sample.addedTwice)
      Sample.panics :=
    ⟨fun _ _ _ harrival ↦ (by cases harrival), fun _ _ _ harrival ↦ (by cases harrival), trivial⟩
  have hjobs : ∀ j ∈ Sample.addedTwice, j.1.Inv := by
    have hadded : ∀ j ∈ Sample.addedTwice, j.1 = Sample.added := by simp [Sample.addedTwice]
    exact fun j hj ↦ hadded j hj ▸ Job.inv_new _ _
  obtain ⟨horder, -, hreturned⟩ := accounts_inOrder (fun _ ↦ rfl) hjobs hadmits
  have hover : (Sample.scheduler.run Sample.idleGovernor Sample.addedTwice
      Sample.panics).outcomes.isSome = true := by decide +kernel
  obtain ⟨l, hl⟩ := Option.isSome_iff_exists.1 hover
  have harrivals : arrivals Sample.scheduler ((start Sample.idleGovernor).intake [] Sample.addedTwice)
      Sample.panics = [] := by decide +kernel
  obtain ⟨-, -, -, hids⟩ := hreturned l hl
  rw [harrivals] at hids
  exact ⟨l, hl, hids, horder⟩

/-! ### One live job per identity -/

/-- What was done before the intake stays where it is, and nothing else depends on it. -/
theorem intake_done (seen : List JobId) (l : List (Job × Answers × OriginId)) (s : Loop) :
    ∃ more, ∀ done, { s with done }.intake seen l = { s.intake seen l with done := done ++ more } := by
  induction l generalizing s seen with
  | nil => exact ⟨[], fun done ↦ by simp [intake]⟩
  | cons j l ih =>
    obtain ⟨job, answers, origin⟩ := j
    have hpush : ∀ (seen : List JobId) (o : Outcome), ∃ more, ∀ done,
        ({ s with done }.push o).intake seen l = { (s.push o).intake seen l with done := done ++ more } := by
      intro seen o
      obtain ⟨more, hmore⟩ := ih seen (s.push o)
      refine ⟨o :: more, fun done ↦ ?_⟩
      have := hmore (done ++ [o])
      rwa [List.append_assoc] at this
    have htake : ∀ (seen : List JobId) (e : Entry), ∃ more, ∀ done,
        ({ s with done }.take e).intake seen l = { (s.take e).intake seen l with done := done ++ more } := by
      intro seen e
      obtain ⟨more, hmore⟩ := ih seen (s.take e)
      by_cases hdone : (s.take e).done = s.done
      · refine ⟨more, fun done ↦ ?_⟩
        rw [← hmore done]
        unfold take at hdone ⊢
        split <;> first | rfl | simp_all
      · refine ⟨.settled e.job :: more, fun done ↦ ?_⟩
        have := hmore (done ++ [.settled e.job])
        rw [List.append_assoc] at this
        rw [← List.singleton_append, ← this]
        unfold take at hdone ⊢
        split <;> first | rfl | simp_all
    unfold intake
    split
    · exact hpush _ _
    · split
      · exact htake _ _
      · exact hpush _ _

/-- **A repeated identity is refused by the intake**, and everything else is as without it. -/
theorem intake_repeated {s : Loop} {seen : List JobId} {pre post : List (Job × Answers × OriginId)}
    {job : Job} {answers : Answers} {origin : OriginId}
    (hrepeated : job.id ∈ seen ++ pre.map (·.1.id)) :
    ∃ before after, s.intake seen (pre ++ (job, answers, origin) :: post) =
        { s.intake seen (pre ++ post) with done := before ++ .failed job.id .invariant :: after } ∧
      (s.intake seen (pre ++ post)).done = before ++ after := by
  induction pre generalizing s seen with
  | nil =>
    rw [List.map_nil, List.append_nil] at hrepeated
    obtain ⟨more, hmore⟩ := intake_done seen post s
    refine ⟨s.done, more, ?_, congrArg Loop.done (hmore s.done)⟩
    rw [List.nil_append, intake, if_pos hrepeated, push, hmore, List.append_assoc]
    rfl
  | cons j pre ih =>
    obtain ⟨job', answers', origin'⟩ := j
    rw [List.cons_append, List.cons_append, intake, intake]
    have hmore : job.id ∈ (job'.id :: seen) ++ pre.map (·.1.id) := by
      simp only [List.map_cons, List.mem_append, List.mem_cons] at hrepeated ⊢
      tauto
    split
    next hseen =>
      refine ih ?_
      simp only [List.cons_append, List.mem_cons] at hmore
      rcases hmore with heq | hmore
      · rw [heq]
        exact List.mem_append_left _ hseen
      · exact hmore
    · split
      · exact ih hmore
      · exact ih hmore

/-- **No identity lives twice** in a run whose every `Admit` brings a job that is nowhere yet; and a job
that is given again at the start is refused, which changes nothing for the first. -/
theorem liveIds_nodup (hgovernor : ∀ origin, governor.inFlight origin = 0)
    (hjobs : ∀ j ∈ jobs, j.1.Inv) (hadmits : AdmitsNew S ((start governor).intake [] jobs) turns) :
    (S.run governor jobs turns).liveIds.Nodup ∧
      ((S.run governor jobs turns).outcomes = none → ∀ t,
        ((S.run governor jobs turns).prepare S t).liveIds.Nodup ∧
        ∀ s', (S.run governor jobs turns).atSelect S t = some s' → s'.liveIds.Nodup) ∧
      ∀ pre post job answers origin, jobs = pre ++ (job, answers, origin) :: post →
        job.id ∈ pre.map (·.1.id) → ∃ before after,
          (start governor).intake [] jobs = { (start governor).intake [] (pre ++ post) with
            done := before ++ .failed job.id .invariant :: after } ∧
          ((start governor).intake [] (pre ++ post)).done = before ++ after := by
  have hstanding := standing_run hgovernor hjobs hadmits
  refine ⟨hstanding.inOrder.live, fun hrunning t ↦ ?_, ?_⟩
  · have hs := hstanding.sound hrunning
    exact ⟨(hs.prepare t).inOrder.live, fun s' hat ↦ (hs.atSelect hat).inOrder.live⟩
  · rintro pre post job answers origin rfl hmem
    exact intake_repeated hmem

/-- Of a job that is given twice, one lives. -/
theorem liveIds_of_repeated :
    (Sample.scheduler.run Sample.idleGovernor Sample.addedTwice [Sample.turn [] .woke]).liveIds =
      [Sample.added.id] ∧
    (Sample.scheduler.run Sample.idleGovernor Sample.addedTwice [Sample.turn [] .woke]).liveIds.Nodup := by
  have hjobs : ∀ j ∈ Sample.addedTwice, j.1.Inv := by
    have hadded : ∀ j ∈ Sample.addedTwice, j.1 = Sample.added := by simp [Sample.addedTwice]
    exact fun j hj ↦ hadded j hj ▸ Job.inv_new _ _
  have hadmits : AdmitsNew Sample.scheduler ((start Sample.idleGovernor).intake [] Sample.addedTwice)
      [Sample.turn [] .woke] := ⟨fun _ _ _ harrival ↦ (by cases harrival), trivial⟩
  exact ⟨by decide +kernel, (liveIds_nodup (fun _ ↦ rfl) hjobs hadmits).1⟩

/-- **A job that is admitted again while its session runs** is ready and active at once. -/
theorem not_liveIds_nodup : ¬∀ (S : Scheduler) (governor : OriginGovernor)
    (jobs : List (Job × Answers × OriginId)) (turns : List Turn),
    (∀ origin, governor.inFlight origin = 0) → (∀ j ∈ jobs, j.1.Inv) →
    (∀ job ∈ arrivals S ((start governor).intake [] jobs) turns, job.Inv) →
    (S.run governor jobs turns).liveIds.Nodup := by
  intro h
  have hlive := h Sample.scheduler Sample.idleGovernor [(Sample.added, Sample.answers, Sample.origin)]
    [Sample.turn [] (.command (.admitJob Sample.added) Sample.origin Sample.answers Sample.answers)]
    (fun _ ↦ rfl) (fun j hj ↦ by rw [List.mem_singleton.1 hj]; exact Job.inv_new _ _) ?_
  · exact absurd hlive (by decide +kernel)
  · intro job hjob
    have harrivals : arrivals Sample.scheduler ((start Sample.idleGovernor).intake []
        [(Sample.added, Sample.answers, Sample.origin)]) [Sample.turn []
          (.command (.admitJob Sample.added) Sample.origin Sample.answers Sample.answers)] =
        [Sample.added] := by decide +kernel
    rw [harrivals] at hjob
    rw [List.mem_singleton.1 hjob]
    exact Job.inv_new _ _

/-! ### Work is never stranded, unless its deadline slips through -/

/-- **Every deadline slipped through**: each retry fell due after promotion had looked, each origin came
back after admission had looked, and all of it before the wake-up time was computed. -/
def Loop.SlippedThrough (s : Loop) (t : Turn) : Prop :=
  (∀ e ∈ s.waiting, ∃ due, e.job.retryAt = some due ∧ t.promoteNow < due ∧ due ≤ t.deadlineNow) ∧
    ∀ e ∈ s.ready, t.admitNow < (s.governor.account e.origin).readyAt ∧
      (s.governor.account e.origin).readyAt ≤ t.deadlineNow

theorem nextDeadline_eq_none {s : Loop} {now : ℕ} : s.nextDeadline now = none ↔
    (∀ e ∈ s.waiting, ∀ due, e.job.retryAt = some due → due ≤ now) ∧
      ∀ e ∈ s.ready, (s.governor.account e.origin).readyAt ≤ now := by
  have hretry : ((s.waiting.filterMap (·.job.retryAt)).filter (· > now)).min? = none ↔
      ∀ e ∈ s.waiting, ∀ due, e.job.retryAt = some due → due ≤ now := by
    rw [List.min?_eq_none_iff, List.filter_eq_nil_iff]
    simp only [List.mem_filterMap, decide_eq_true_eq, not_lt]
    exact ⟨fun h e he due hdue ↦ h due ⟨e, he, hdue⟩, fun h due ⟨e, he, hdue⟩ ↦ h e he due hdue⟩
  have horigin : (s.ready.filterMap fun e ↦ s.governor.readyAt e.origin now).min? = none ↔
      ∀ e ∈ s.ready, (s.governor.account e.origin).readyAt ≤ now := by
    rw [List.min?_eq_none_iff, List.filterMap_eq_nil_iff]
    refine forall₂_congr fun e _ ↦ ?_
    unfold OriginGovernor.readyAt OriginGovernor.account
    cases s.governor.origins e.origin <;> simp [OriginState.readyAt, OriginState.empty]
  unfold nextDeadline
  rw [← hretry, ← horigin]
  dsimp only
  split <;> simp_all

/-- **The scheduler never strands work**, unless every deadline slipped through: where nothing runs after
admission, there is a moment to wake up at exactly when one deadline did not. -/
theorem nextDeadline_isSome (hlimits : governor.limits.valid = true)
    (hgovernor : ∀ origin, governor.inFlight origin = 0) (hjobs : ∀ j ∈ jobs, j.1.Inv)
    (hadmits : AdmitsNew S ((start governor).intake [] jobs) turns) {t : Turn}
    (hrunning : (S.run governor jobs turns).outcomes = none)
    (hnone : ((S.run governor jobs turns).prepare S t).sessions = [])
    (hstopping : ((S.run governor jobs turns).prepare S t).stopping = false) :
    (((((S.run governor jobs turns).prepare S t).asides t.checking).nextDeadline
      t.deadlineNow).isSome = true ↔
        ¬((S.run governor jobs turns).prepare S t).SlippedThrough t) := by
  have hs := (standing_run hgovernor hjobs hadmits).sound hrunning
  have hvalid : 1 ≤ governor.limits.connections := by
    simp only [OriginLimits.valid, decide_eq_true_eq] at hlimits
    exact hlimits.1.1
  obtain ⟨hwaiting, hready⟩ := hs.left_of_nil hvalid hnone hstopping
  rw [asides_of_nil hnone, Option.isSome_iff_ne_none, not_iff_not, nextDeadline_eq_none]
  refine and_congr (forall₂_congr fun e he ↦ ?_) (forall₂_congr fun e he ↦ ?_)
  · obtain ⟨due, hdue, hlt⟩ := hwaiting e he
    refine ⟨fun h ↦ ⟨due, hdue, hlt, h due hdue⟩, ?_⟩
    rintro ⟨due₁, hdue₁, -, hle⟩ due₂ hdue₂
    rw [hdue₁] at hdue₂
    rwa [← Option.some.inj hdue₂]
  · exact ⟨fun h ↦ ⟨hready e he, h⟩, And.right⟩

/-- A job that waits for its retry. -/
def Sample.retrying (due : ℕ) : Job :=
  (Job.new ⟨1, Nat.one_ne_zero⟩ Sample.spec).run
    [.handle .start, .handle (.retry due), .handle .workersDrained]

/-- The clock reads this when promotion and admission look, and that when the wake-up is computed. -/
def Sample.turnAt (now later : ℕ) : Turn :=
  { Sample.turn [] .woke with promoteNow := now, admitNow := now, deadlineNow := later }

/-- One job that waits until five. -/
def Sample.waitingUntilFive : List (Job × Answers × OriginId) :=
  [(Sample.retrying 5, Sample.answers, Sample.origin)]

theorem Sample.inv_waitingUntilFive : ∀ j ∈ Sample.waitingUntilFive, j.1.Inv := fun j hj ↦ by
  rw [List.mem_singleton.1 hj]
  exact Job.inv_run_new _ _ _

/-- A clock that stands still misses nothing. -/
theorem nextDeadline_of_still :
    ((((Sample.scheduler.run Sample.idleGovernor Sample.waitingUntilFive []).prepare Sample.scheduler
      (Sample.turnAt 4 4)).asides []).nextDeadline 4).isSome = true := by
  have hadmits : AdmitsNew Sample.scheduler
      ((start Sample.idleGovernor).intake [] Sample.waitingUntilFive) [] := trivial
  refine (nextDeadline_isSome (t := Sample.turnAt 4 4) (by decide) (fun _ ↦ rfl)
    Sample.inv_waitingUntilFive hadmits (by decide +kernel) (by decide +kernel) (by decide +kernel)).2 ?_
  intro hslipped
  have hlength : ((Sample.scheduler.run Sample.idleGovernor Sample.waitingUntilFive []).prepare
      Sample.scheduler (Sample.turnAt 4 4)).waiting.length = 1 := by decide +kernel
  obtain ⟨e, he⟩ := List.exists_mem_of_length_pos (hlength ▸ Nat.one_pos)
  obtain ⟨due, -, hlt, hle⟩ := hslipped.1 e he
  exact absurd (hlt.trans_le hle) (by decide)

/-- **A retry that falls due between two readings** is handed back: the run returns with it. -/
theorem not_nextDeadline_isSome : ¬∀ (S : Scheduler) (governor : OriginGovernor)
    (jobs : List (Job × Answers × OriginId)) (turns : List Turn) (t : Turn),
    governor.limits.valid = true → (∀ origin, governor.inFlight origin = 0) →
    (∀ j ∈ jobs, j.1.Inv) → AdmitsNew S ((start governor).intake [] jobs) turns →
    (S.run governor jobs turns).outcomes = none →
    ((S.run governor jobs turns).prepare S t).sessions = [] →
    ((S.run governor jobs turns).prepare S t).stopping = false →
    ((S.run governor jobs turns).prepare S t).idle = false →
    t.promoteNow ≤ t.admitNow → t.admitNow ≤ t.deadlineNow →
    ((((S.run governor jobs turns).prepare S t).asides t.checking).nextDeadline
      t.deadlineNow).isSome = true := by
  intro h
  have hsome := h Sample.scheduler Sample.idleGovernor Sample.waitingUntilFive [] (Sample.turnAt 4 5)
    (by decide) (fun _ ↦ rfl) Sample.inv_waitingUntilFive trivial (by decide +kernel)
    (by decide +kernel) (by decide +kernel) (by decide +kernel) (by decide) (by decide)
  exact absurd hsome (by decide +kernel)

end Fhd
