import FhdEngine.Runtime.SessionOutcome
import FhdEngine.Runtime.Scheduler
import Mathlib.Algebra.BigOperators.Group.List.Basic
import Mathlib.Tactic.Abel

/-!
# What holds of the scheduler between two turns

The scheduler keeps one job in several places: in a queue, in the table of what is active, in the table
of who owns a task, in the task itself, and in two sums, the connections used and what the governor has
outstanding. `Sound` says that these agree, for a loop that has some entries in its hands (`transit`).
It has four parts, each about its own fields, so that a piece of a turn touches one or two of them.

`Watch` is what is to be known of some of the jobs, the **spared** ones, which no command reaches: a fact
about the job that depends on how many sessions it had and how often it was queued anew.
-/

namespace Fhd

open Process (Prog Environment Ensures)

/-! ### A table without one of its keys -/

section Table

variable {α : Type} {β : α → Type} [DecidableEq α]

theorem AList.perm_of_lookup {s : AList β} {a : α} {b : β a} (h : s.lookup a = some b) :
    s.entries.Perm (⟨a, b⟩ :: (s.erase a).entries) := by
  have hmem : a ∈ s.entries.keys := AList.mem_keys.1 (AList.lookup_isSome.1 (by rw [h]; rfl))
  obtain ⟨b', l₁, l₂, -, hl, herase⟩ := List.exists_of_kerase hmem
  have hb : s.lookup a = some b' :=
    AList.mem_lookup_iff.2 (by rw [hl]; simp)
  obtain rfl := Option.some.inj (h.symm.trans hb)
  have he : (s.erase a).entries = l₁ ++ l₂ := herase
  rw [he, hl]
  exact List.perm_middle

end Table

namespace Loop

/-! ### The two sums -/

/-- A sum over everything that is active. -/
def total (f : Active → ℕ) (s : Loop) : ℕ := (s.active.entries.map fun e ↦ f e.2).sum

/-- The connections granted. -/
def granted (s : Loop) : ℕ := s.total Active.grant

/-- The connections granted for one origin. -/
def grantedTo (s : Loop) (origin : OriginId) : ℕ :=
  s.total fun a ↦ if a.origin = origin then a.grant else 0

/-- The identities of everything that is ready, waiting or active. -/
def liveIds (s : Loop) : List JobId := (s.ready ++ s.waiting).map (·.job.id) ++ s.active.keys

/-- **The books are in step**: the caps are kept, and both sums are what is active. -/
structure Accounted (S : Scheduler) (s : Loop) : Prop where
  used_eq : s.used = s.granted
  used_le : s.used ≤ S.config.connections
  active_le : s.active.entries.length ≤ S.config.maxActive
  grant : ∀ e ∈ s.active.entries, 1 ≤ e.2.grant ∧ e.2.grant ≤ S.config.perJob
  inFlight : ∀ origin, s.governor.inFlight origin = s.grantedTo origin

/-- The tasks that were spawned and not yet joined, each with its job. -/
def roster (s : Loop) : List (ℕ × JobId) := s.sessions.map fun t ↦ (t.number, t.id)

/-- **Whatever is active is a task**, and its owner is known. -/
structure Staffed (s : Loop) : Prop where
  numbers : (s.sessions.map (·.number)).Nodup
  fresh : ∀ t ∈ s.sessions, t.number < s.nextTask
  tasks : s.roster.Perm (s.active.entries.map fun e ↦ (e.2.control, e.1))
  owners : ∀ t ∈ s.sessions, s.owners.lookup t.number = some t.id

end Loop

/-! ### Sessions -/

/-- An error a session may answer: it was started with what it needs. -/
def RunError.Ordinary (e : RunError) : Prop := e ≠ .invalidConfig ∧ ∀ state, e ≠ .notRunnable state

/-- Anything may happen to a session, but no control reaches one that is spared. -/
def around (spared : Prop) : Environment Unit Port Answer := fun _ op a _ ↦ spared → brings op a = none

/-- The ground on which nothing is promised, and every error but two is excused. -/
def looseGround (c : Coordinator) (spec : JobSpec) (spared : Prop) : Ground c spec Unit where
  env := around spared
  excused := RunError.Ordinary
  link := fun _ _ ↦ True
  commit_error := fun _ ↦ ⟨nofun, nofun⟩
  commit_ok := fun _ ↦ Or.inl ⟨nofun, nofun⟩
  extents_error := fun _ ↦ ⟨nofun, nofun⟩
  intent_error := fun _ ↦ ⟨nofun, nofun⟩
  durable_error := fun _ ↦ ⟨nofun, nofun⟩
  previous_error := fun _ ↦ ⟨nofun, nofun⟩
  resolve_error := fun _ ↦ ⟨nofun, nofun⟩
  parts_error := fun _ _ _ ↦ ⟨nofun, nofun⟩
  obtain_panic := fun _ ↦ ⟨nofun, nofun⟩
  inspect_panic := fun _ ↦ ⟨nofun, nofun⟩
  inspect_error := fun _ ↦ ⟨nofun, nofun⟩
  start_error := fun _ ↦ ⟨nofun, nofun⟩
  probe_ok := fun _ _ _ ↦ Or.inl ⟨nofun, nofun⟩
  fits := Or.inl ⟨nofun, nofun⟩
  calm := spared
  quiet := fun hspared h ↦ h hspared
  link_commit := fun _ _ _ ↦ trivial
  link_call := fun _ _ _ _ _ ↦ trivial
  link_segments := fun _ _ _ ↦ trivial

/-- A job a session may take up. -/
def Job.Runnable (j : Job) : Prop := j.state = .queued ∨ j.state = .verifying ∨ j.state = .publishing

/-- **A session of the scheduler**: whatever happens to it, it returns its job as `Ended` says, or fails
with an error other than the two that say it was started wrongly. -/
theorem Coordinator.runWith_ordinary {c : Coordinator} {fuel : ℕ} {job : Job} {grant : ℕ}
    {origin : OriginId} {spared : Prop} (hinv : job.Inv) (hrun : job.Runnable)
    (hgrant : grant ≠ 0 ∧ grant ≤ c.config.connections) :
    Ensures (around spared) (fun _ ↦ True) (fun r _ ↦ r.1.id = job.id ∧
      match r.2 with
      | .ok _ => Ended c job.spec spared (Session.started job) r.1
      | .error e => e.Ordinary) () (c.runWith fuel job grant origin) := by
  refine (Coordinator.runWith_ensures (G := looseGround c job.spec spared) fuel hinv rfl
    (Or.inl ⟨nofun, nofun⟩) hrun hgrant (Or.inl ⟨nofun, nofun⟩) trivial).mono fun r _ hr ↦ ⟨hr.1, ?_⟩
  have hrest := hr.2
  revert hrest
  cases r.2 with
  | ok _ => exact fun hrest ↦ hrest.1.1
  | error e => exact id

/-! ### Commands outside a session -/

section Command

variable {job job' : Job} {command : JobCommand} {answers : Answers} {e : RunError}

theorem Coordinator.eval_command (job : Job) (command : JobCommand) (answers : Answers) :
    (Coordinator.command job command).eval answers =
      match (stepJob job command).eval answers with
      | (.error error, _) => .error error
      | (.ok _, job') => .ok job' := by
  unfold Coordinator.command
  rw [Prog.eval_bind]
  rcases (stepJob job command).eval answers with ⟨_ | _, _⟩ <;> rfl

theorem eval_commitAll {job next : Job} {event : JobEvent} (answers : Answers)
    (happly : job.apply event = (.ok (), { next with version := job.version + 1 })) :
    (commitAll job [event]).eval answers =
      match (answers (.commitTransition event) : Except CommitError Unit) with
      | .error error => (.error (.commit error), job)
      | .ok _ => (.ok (), { next with version := job.version + 1 }) := by
  rw [commitAll]
  have hask : ∀ f : Except CommitError Unit → Prog JobPort JobAnswer (Except RunError Unit × Job),
      (Prog.ask (JobPort.commitTransition event) >>= f).eval answers =
        (f (answers (.commitTransition event))).eval answers := fun _ ↦ rfl
  refine (hask _).trans ?_
  rw [happly]
  cases (answers (.commitTransition event) : Except CommitError Unit) <;> rfl

/-- **A command outside a session** changes nothing, or moves the job as it was decided. -/
theorem Coordinator.command_eval (job : Job) (command : JobCommand) (answers : Answers) :
    ((∃ next, Job.execute job command = .ok (false, next)) ∧
        (Coordinator.command job command).eval answers = .ok job) ∨
      (∃ next version, Job.execute job command = .ok (true, next) ∧
        (Coordinator.command job command).eval answers = .ok { next with version := version }) ∨
      ∃ e, (Coordinator.command job command).eval answers = .error e ∧ e.Ordinary := by
  rw [Coordinator.eval_command, stepJob]
  cases hexec : Job.execute job command with
  | error e =>
    have hdecide : job.decide command = .error e := by rw [Job.decide, hexec]
    rw [hdecide]
    exact Or.inr (Or.inr ⟨.domain e, rfl, (by rintro ⟨⟩), (by rintro _ ⟨⟩)⟩)
  | ok r =>
    obtain ⟨changed, next⟩ := r
    cases changed with
    | false =>
      rw [Job.decide_of_execute_false hexec]
      exact Or.inl ⟨⟨next, rfl⟩, rfl⟩
    | true =>
      rcases Job.decide_of_execute_true hexec with ⟨hover, -⟩ | ⟨event, hdecide⟩
      · rw [hover]
        exact Or.inr (Or.inr ⟨_, rfl, (by rintro ⟨⟩), (by rintro _ ⟨⟩)⟩)
      · obtain ⟨next', hexec', -, happly⟩ := Job.apply_decided hdecide
        rw [hexec] at hexec'
        cases hexec'
        rw [hdecide]
        simp only [eval_commitAll answers happly]
        cases (answers (.commitTransition event) : Except CommitError Unit) with
        | error error => exact Or.inr (Or.inr ⟨.commit error, rfl, (by rintro ⟨⟩), (by rintro _ ⟨⟩)⟩)
        | ok _ => exact Or.inr (Or.inl ⟨next, job.version + 1, rfl, rfl⟩)

/-- A command outside a session answers with the same job, or with an ordinary error. -/
def Same (job : Job) : Except RunError Job → Prop
  | .ok job' => job'.id = job.id ∧ (job.Inv → job'.Inv)
  | .error e => e.Ordinary

theorem Coordinator.command_same (job : Job) (command : JobCommand) (answers : Answers) :
    Same job ((Coordinator.command job command).eval answers) := by
  rcases Coordinator.command_eval job command answers with ⟨-, h⟩ | ⟨next, version, hexec, h⟩ | ⟨e, h, he⟩
  · rw [h]
    exact ⟨rfl, id⟩
  · rw [h]
    have hstep := Job.execute_step hexec
    exact ⟨hstep.identity.1, fun hinv ↦ (hstep.inv hinv).setVersion version⟩
  · rw [h]
    exact he

theorem Same.trans {result : Except RunError Job} (h : job'.id = job.id ∧ (job.Inv → job'.Inv))
    (h' : Same job' result) : Same job result := by
  cases result with
  | ok job'' => exact ⟨h'.1.trans h.1, fun hinv ↦ h'.2 (h.2 hinv)⟩
  | error e => exact h'

theorem Coordinator.pause_same (job : Job) (answers : Answers) :
    Same job (((do
      match ← Coordinator.command job .pause with
      | .error error => pure (.error error)
      | .ok job' =>
        if job'.state = .stopping then Coordinator.command job' .workersDrained
        else pure (.ok job')) : Prog JobPort JobAnswer (Except RunError Job)).eval answers) := by
  rw [Prog.eval_bind]
  have hfirst := Coordinator.command_same job .pause answers
  cases hr : (Coordinator.command job .pause).eval answers with
  | error e =>
    rw [hr] at hfirst
    exact hfirst
  | ok job' =>
    rw [hr] at hfirst
    dsimp only
    split
    · exact Same.trans hfirst (Coordinator.command_same job' .workersDrained answers)
    · exact hfirst

theorem Coordinator.recover_same (job : Job) (answers : Answers) :
    Same job ((Coordinator.recover job).eval answers) := by
  unfold Coordinator.recover
  split
  · exact Coordinator.pause_same job answers
  · exact Coordinator.pause_same job answers
  · exact Coordinator.pause_same job answers
  · exact Coordinator.command_same job .workersDrained answers
  · rw [Prog.eval_bind]
    exact Coordinator.command_same job .cleanupFinished answers
  · exact ⟨rfl, id⟩

theorem Loop.settle_same (job : Job) (answers : Answers) : Same job (Loop.settle answers job) := by
  unfold Loop.settle
  split
  · exact Coordinator.recover_same job answers
  · exact Coordinator.recover_same job answers
  · exact Coordinator.recover_same job answers
  · exact Coordinator.recover_same job answers
  · exact ⟨rfl, id⟩

end Command

/-! ### What is known of jobs that are left alone -/

/-- **What is to be known of the spared jobs**, which no command reaches: a fact about the job after so
many sessions, so many of which left it queued anew, and the limit it puts on their number. -/
structure Watch (S : Scheduler) where
  limits : OriginLimits
  spared : JobId → Prop
  know : ℕ → ℕ → Job → Prop
  limit : ℕ
  next : ∀ {n m job}, know n m job → job.Runnable → n + 1 ≤ limit + m
  ended : ∀ {n m job job'}, know n m job → job.Runnable →
    Ended S.coordinator job.spec True (Session.started job) job' →
    know (n + 1) (if job'.state = .queued then m + 1 else m) job'
  due : ∀ {n m job version}, know n m job → job.state = .retryWait →
    know n m { job with retryAt := none, state := .queued, version := version }

/-- What a run has seen so far: every job it was given, every session it began, and every session that
left its job queued anew. -/
structure Past where
  given : Multiset JobId
  begun : Multiset JobId
  renewed : Multiset JobId

/-- Where a job rests that was not told to stop. -/
def Job.Unstopped (j : Job) : Prop :=
  j.removable = true ∧ j.state ≠ .paused ∧ j.state ≠ .cancelled

/-- A job that is neither ready nor waiting, and was not told to stop. -/
theorem Job.Unstopped.rests {j : Job} (h : j.Unstopped) (hqueued : j.state ≠ .queued)
    (hwait : j.state ≠ .retryWait) :
    j.state = .needsAction ∨ j.state = .failed ∨ j.state = .completed := by
  obtain ⟨hrem, hpaused, hcancelled⟩ := h
  unfold Job.removable at hrem
  revert hrem hpaused hcancelled hqueued hwait
  cases j.state <;> simp

namespace Watch

variable {S : Scheduler} (W : Watch S) (P : Past)

/-- What is known of a job in a queue. -/
def Knows (job : Job) : Prop := job.Inv ∧
  (W.spared job.id → W.know (P.begun.count job.id) (P.renewed.count job.id) job)

/-- What is known of a job that comes back from a session. -/
def Returned (job : Job) : Prop := job.Inv ∧ (W.spared job.id →
  W.know (P.begun.count job.id)
    (if job.state = .queued then P.renewed.count job.id + 1 else P.renewed.count job.id) job ∧
  job.Unstopped)

/-- **A task in good order**: however it goes on, it returns its own job, or an ordinary error. -/
structure Fits (t : Task) : Prop where
  controls : W.spared t.id → t.controls = []
  session : ∀ p, t.session = some p → Ensures (around (W.spared t.id)) (fun _ ↦ True)
    (fun r _ ↦ r.1.id = t.id ∧
      match r.2 with
      | .ok _ => W.Returned P r.1
      | .error e => e.Ordinary) () p

variable {W P} {P' : Past}

/-- Nothing that concerns the job has happened. -/
theorem Knows.congr {job : Job} (h : W.Knows P job)
    (hbegun : P'.begun.count job.id = P.begun.count job.id)
    (hrenewed : P'.renewed.count job.id = P.renewed.count job.id) : W.Knows P' job := by
  unfold Knows
  rw [hbegun, hrenewed]
  exact h

theorem Fits.congr {t : Task} (h : W.Fits P t) (hbegun : P'.begun.count t.id = P.begun.count t.id)
    (hrenewed : P'.renewed.count t.id = P.renewed.count t.id) : W.Fits P' t := by
  refine ⟨h.controls, fun p hp ↦ (h.session p hp).mono fun r _ hr ↦ ⟨hr.1, ?_⟩⟩
  have hrest := hr.2
  revert hrest
  cases r.2 with
  | ok _ =>
    intro hreturned
    unfold Returned
    rw [hr.1, hbegun, hrenewed, ← hr.1]
    exact hreturned
  | error e => exact id

/-- What is known of a job that has come back. -/
theorem Returned.knows {job : Job} (h : W.Returned P job) :
    W.Knows { P with renewed := (if job.state = .queued then {job.id} else 0) + P.renewed } job := by
  refine ⟨h.1, fun hspared ↦ ?_⟩
  have hknow := (h.2 hspared).1
  have hcount : Multiset.count job.id ((if job.state = .queued then {job.id} else 0) + P.renewed) =
      if job.state = .queued then P.renewed.count job.id + 1 else P.renewed.count job.id := by
    rw [Multiset.count_add]
    split
    · rw [Multiset.count_singleton_self, add_comm]
    · rw [Multiset.count_zero, zero_add]
  show W.know _ (Multiset.count job.id ((if job.state = .queued then {job.id} else 0) + P.renewed)) job
  rw [hcount]
  exact hknow

/-- The job of a started session is one more that began. -/
theorem Fits.of_spawn {e : Entry} {grant number : ℕ} (hknows : W.Knows P e.job)
    (hrun : e.job.Runnable) (hgrant : grant ≠ 0 ∧ grant ≤ S.coordinator.config.connections) :
    W.Fits { P with begun := e.job.id ::ₘ P.begun } ⟨number, e.job.id, [],
      some (S.coordinator.runWith S.fuel e.job grant e.origin)⟩ := by
  refine ⟨fun _ ↦ rfl, fun p hp ↦ ?_⟩
  cases hp
  refine (Coordinator.runWith_ordinary hknows.1 hrun hgrant).mono fun r _ hr ↦ ⟨hr.1, ?_⟩
  have hrest := hr.2
  revert hrest
  cases r.2 with
  | ok _ =>
    refine fun hended ↦ ⟨hended.inv, fun hspared ↦ ⟨?_, hended.rests, ?_⟩⟩
    · rw [hr.1] at hspared ⊢
      rw [Multiset.count_cons_self]
      exact W.ended (hknows.2 hspared) hrun { hended with calm := fun _ ↦ hended.calm hspared }
    · exact hended.calm (hr.1 ▸ hspared)
  | error e => exact id

end Watch

namespace Loop

/-- The identities of everything that is queued, in hand or active. -/
def live (transit : List Entry) (s : Loop) : Multiset JobId :=
  ↑(transit.map (·.job.id)) + (↑(s.ready.map (·.job.id)) + ↑(s.waiting.map (·.job.id))) + ↑s.active.keys

/-- **The invariant of the scheduler.** The identities in `loose` have left every queue and are not yet
answered. -/
structure Sound {S : Scheduler} (W : Watch S) (P : Past) (loose : Multiset JobId)
    (transit : List Entry) (s : Loop) : Prop where
  books : s.Accounted S
  limits : s.governor.limits = W.limits
  staff : s.Staffed
  task : ∀ t ∈ s.sessions, W.Fits P t
  deferred : ∀ d ∈ s.deferred, ¬W.spared d.1
  inHand : ∀ e ∈ transit, W.Knows P e.job
  ready : ∀ e ∈ s.ready, W.Knows P e.job ∧ e.job.Runnable
  waiting : ∀ e ∈ s.waiting, W.Knows P e.job ∧ e.job.state = .retryWait
  nodup : (s.live transit).Nodup
  given : ↑(s.done.map (·.id)) + (loose + s.live transit) = P.given
  begun : ∀ id ∈ P.begun, id ∈ P.given
  once : ∀ id, W.spared id → P.given.count id ≤ 1
  bound : ∀ id, W.spared id → P.begun.count id ≤ W.limit + P.renewed.count id
  answered : ∀ o ∈ s.done, ∀ e, o.result = some (.error e) → e.Ordinary
  rested : ∀ o ∈ s.done, W.spared o.id → o.id ∈ P.begun → ∀ job ∈ o.job,
    job.state = .needsAction ∨ job.state = .failed ∨ job.state = .completed
  running : s.outcomes = none

variable {S : Scheduler} {W : Watch S} {P : Past} {loose : Multiset JobId} {transit : List Entry}
  {s : Loop}

/-! ### Sessions and their channels -/

theorem Staffed.eq_of_number {t t' : Task} (h : s.Staffed) (ht : t ∈ s.sessions) (ht' : t' ∈ s.sessions)
    (hnumber : t.number = t'.number) : t = t' :=
  List.inj_on_of_nodup_map h.numbers ht ht' hnumber

/-- What is active is the task of that job. -/
theorem Staffed.task_of_active {id : JobId} {a : Active} {t : Task} (h : s.Staffed)
    (ha : s.active.lookup id = some a) (ht : t ∈ s.sessions) (hnumber : t.number = a.control) :
    t.id = id := by
  have hmem : (a.control, id) ∈ s.active.entries.map fun e ↦ (e.2.control, e.1) :=
    List.mem_map.2 ⟨⟨id, a⟩, AList.mem_lookup_iff.1 ha, rfl⟩
  obtain ⟨t', ht', heq⟩ := List.mem_map.1 (h.tasks.mem_iff.2 hmem)
  have hsame : t = t' := h.eq_of_number ht ht' (hnumber.trans (congrArg Prod.fst heq).symm)
  rw [hsame]
  exact congrArg Prod.snd heq

/-- A task that moves on keeps its number and its job. -/
theorem Staffed.map_setTask (h : s.Staffed) {t t' : Task} (ht : t ∈ s.sessions)
    (hnumber : t'.number = t.number) {α : Type} {f : Task → α} (hf : f t' = f t) :
    (s.setTask t').sessions.map f = s.sessions.map f := by
  show (s.sessions.map _).map f = _
  rw [List.map_map]
  refine List.map_congr_left fun u hu ↦ ?_
  simp only [Function.comp_apply]
  split
  next hu' => rw [hf, h.eq_of_number hu ht (hu'.trans hnumber)]
  · rfl

/-- **A task moves on by itself.** -/
theorem Sound.setTask (h : Sound W P loose transit s) {t t' : Task} (ht : t ∈ s.sessions)
    (hfits : W.Fits P t') (hnumber : t'.number = t.number) (hid : t'.id = t.id) :
    Sound W P loose transit (s.setTask t') := by
  have hmem : ∀ u ∈ (s.setTask t').sessions, u = t' ∨ u ∈ s.sessions := by
    intro u hu
    obtain ⟨v, hv, rfl⟩ := List.mem_map.1 hu
    split
    · exact Or.inl rfl
    · exact Or.inr hv
  refine { h with
    books := { h.books with }
    staff := ⟨?_, fun u hu ↦ ?_, ?_, fun u hu ↦ ?_⟩
    task := fun u hu ↦ ?_ }
  · rw [h.staff.map_setTask ht hnumber hnumber]
    exact h.staff.numbers
  · rcases hmem u hu with rfl | hu
    · rw [hnumber]
      exact h.staff.fresh t ht
    · exact h.staff.fresh u hu
  · rw [roster, h.staff.map_setTask ht hnumber (by rw [hnumber, hid])]
    exact h.staff.tasks
  · rcases hmem u hu with rfl | hu
    · rw [hnumber, hid]
      exact h.staff.owners t ht
    · exact h.staff.owners u hu
  · rcases hmem u hu with rfl | hu
    · exact hfits
    · exact h.task u hu

/-- The governor hears how an origin behaved. -/
theorem Sound.setGovernor (h : Sound W P loose transit s) {g : OriginGovernor}
    (hlimits : g.limits = s.governor.limits)
    (hg : ∀ origin, g.inFlight origin = s.governor.inFlight origin) :
    Sound W P loose transit { s with governor := g } :=
  { h with
    limits := hlimits.trans h.limits
    books := { h.books with inFlight := fun origin ↦ (hg origin).trans (h.books.inFlight origin) }
    staff := { h.staff with } }

/-- What sessions do by themselves leaves the queue and the tables alone. -/
structure Still (s s' : Loop) : Prop where
  roster : s'.roster = s.roster
  nextTask : s'.nextTask = s.nextTask
  active : s'.active = s.active
  used : s'.used = s.used
  ready : s'.ready = s.ready
  waiting : s'.waiting = s.waiting
  stopping : s'.stopping = s.stopping

theorem Still.refl (s : Loop) : Still s s := ⟨rfl, rfl, rfl, rfl, rfl, rfl, rfl⟩

theorem Still.trans {s s' s'' : Loop} (h : Still s s') (h' : Still s' s'') : Still s s'' :=
  ⟨h'.roster.trans h.roster, h'.nextTask.trans h.nextTask, h'.active.trans h.active,
    h'.used.trans h.used, h'.ready.trans h.ready, h'.waiting.trans h.waiting,
    h'.stopping.trans h.stopping⟩

theorem Staffed.still_setTask (h : s.Staffed) {t t' : Task} (ht : t ∈ s.sessions)
    (hnumber : t'.number = t.number) (hid : t'.id = t.id) : Still s (s.setTask t') where
  roster := h.map_setTask ht hnumber (by rw [hnumber, hid])
  nextTask := rfl
  active := rfl
  used := rfl
  ready := rfl
  waiting := rfl
  stopping := rfl

theorem Staffed.still_aside (h : s.Staffed) (a : Aside) : Still s (s.aside a) := by
  cases a with
  | answer task give =>
    rw [Loop.aside]
    split
    next t hfind =>
      have ht := List.mem_of_find?_eq_some hfind
      split
      next op next _ =>
        split
        · exact Still.refl s
        next a _ =>
          split
          · exact Still.refl s
          next controls governor _ =>
            have hstill : Still s (s.setTask { t with controls, session := some (next a) }) :=
              h.still_setTask ht rfl rfl
            exact { hstill with }
      · exact Still.refl s
    · exact Still.refl s
  | panic task =>
    rw [Loop.aside]
    split
    next t hfind =>
      have ht := List.mem_of_find?_eq_some hfind
      split
      · exact h.still_setTask ht rfl rfl
      · exact Still.refl s
    · exact Still.refl s

/-- A channel that was empty stays empty, and nothing is received from it. -/
theorem answered_eq_some {t : Task} {op : Port} {a : Answer op} {controls : List Control}
    {governor : OriginGovernor} (h : s.answered t op a = some (controls, governor)) :
    (t.controls = [] → controls = [] ∧ brings op a = none) ∧ governor.limits = s.governor.limits ∧
      ∀ origin, governor.inFlight origin = s.governor.inFlight origin := by
  have hreceived : ∀ message, (s.received t message).map (·, s.governor) = some (controls, governor) →
      (t.controls = [] → controls = [] ∧ message = none) ∧ governor.limits = s.governor.limits ∧
        ∀ origin, governor.inFlight origin = s.governor.inFlight origin := by
    intro message hsome
    obtain ⟨left, hleft, heq⟩ := Option.map_eq_some_iff.1 hsome
    cases heq
    refine ⟨fun hempty ↦ ?_, rfl, fun _ ↦ rfl⟩
    cases message with
    | none =>
      simp only [received] at hleft
      split at hleft
      · cases hleft
        exact ⟨rfl, rfl⟩
      · cases hleft
    | some control => simp [received, hempty] at hleft
  have hother : some (t.controls, s.governor) = some (controls, governor) → brings op a = none →
      (t.controls = [] → controls = [] ∧ brings op a = none) ∧ governor.limits = s.governor.limits ∧
        ∀ origin, governor.inFlight origin = s.governor.inFlight origin := by
    intro hsome hnone
    cases hsome
    exact ⟨fun hempty ↦ ⟨hempty, hnone⟩, rfl, fun _ ↦ rfl⟩
  cases op with
  | awaitProbe source controlOpen =>
    cases a with
    | probe result => exact hother h rfl
    | control isOpen message => exact hreceived message h
  | awaitWorker workers controlOpen =>
    cases a with
    | worker done => exact hother h rfl
    | control isOpen message => exact hreceived message h
  | tryRecv =>
    cases a with
    | some control => exact hreceived _ h
    | none =>
      simp only [answered] at h
      split at h
      · cases h
        exact ⟨fun _ ↦ ⟨rfl, rfl⟩, rfl, fun _ ↦ rfl⟩
      · cases h
  | note origin note =>
    cases note with
    | succeeded now =>
      cases h
      exact ⟨fun hempty ↦ ⟨hempty, rfl⟩, OriginGovernor.limits_succeeded, fun _ ↦ OriginGovernor.inFlight_succeeded⟩
    | throttled retryAfterMs now =>
      cases h
      exact ⟨fun hempty ↦ ⟨hempty, rfl⟩, rfl, fun _ ↦ OriginGovernor.inFlight_throttled⟩
    | failed now =>
      cases h
      exact ⟨fun hempty ↦ ⟨hempty, rfl⟩, rfl, fun _ ↦ OriginGovernor.inFlight_failed⟩
  | _ => exact hother h rfl

/-- **A session does one thing by itself.** -/
theorem Sound.aside (h : Sound W P loose transit s) (a : Aside) :
    Sound W P loose transit (s.aside a) := by
  cases a with
  | answer task give =>
    rw [Loop.aside]
    split
    next t hfind =>
      have ht := List.mem_of_find?_eq_some hfind
      have hfits := h.task t ht
      split
      next op next hsession =>
        split
        · exact h
        next a _ =>
          split
          · exact h
          next controls governor hanswered =>
            obtain ⟨hcontrols, hlimits, hgovernor⟩ := answered_eq_some hanswered
            have hnext : W.Fits P { t with controls, session := some (next a) } := by
              refine ⟨fun hspared ↦ (hcontrols (hfits.controls hspared)).1, fun p hp ↦ ?_⟩
              cases hp
              refine (hfits.session _ hsession a () fun hspared ↦ ?_).2
              exact (hcontrols (hfits.controls hspared)).2
            exact (h.setTask ht hnext rfl rfl).setGovernor hlimits hgovernor
      · exact h
    · exact h
  | panic task =>
    rw [Loop.aside]
    split
    next t hfind =>
      have ht := List.mem_of_find?_eq_some hfind
      split
      · have hgone : W.Fits P { t with session := none } := ⟨(h.task t ht).controls, nofun⟩
        exact h.setTask ht hgone rfl rfl
      · exact h
    · exact h

theorem Sound.asides (h : Sound W P loose transit s) (l : List Aside) :
    Sound W P loose transit (s.asides l) := by
  induction l generalizing s with
  | nil => exact h
  | cons a l ih => exact ih (h.aside a)

theorem Sound.still_asides (h : Sound W P loose transit s) (l : List Aside) : Still s (s.asides l) := by
  induction l generalizing s with
  | nil => exact Still.refl s
  | cons a l ih => exact (h.staff.still_aside a).trans (ih (h.aside a))

/-- **A control is sent** to a session that may be told to stop, or deferred. -/
theorem Sound.send (h : Sound W P loose transit s) {id : JobId} {a : Active} (control : Control)
    (hactive : s.active.lookup id = some a) (hspared : ¬W.spared id) :
    Sound W P loose transit (s.send id a.control control) := by
  have hdeferred : Sound W P loose transit { s with deferred := s.deferred ++ [(id, control)] } := by
    refine { h with books := { h.books with }, staff := { h.staff with }, deferred := fun d hd ↦ ?_ }
    rcases List.mem_append.1 hd with hd | hd
    · exact h.deferred d hd
    · rw [List.mem_singleton.1 hd]
      exact hspared
  unfold Loop.send trySend
  split
  · exact hdeferred
  next t hfind =>
    have ht := List.mem_of_find?_eq_some hfind
    have hnumber : t.number = a.control := by simpa using List.find?_some hfind
    split
    · have hid := h.staff.task_of_active hactive ht hnumber
      have htold : W.Fits P { t with controls := t.controls ++ [control] } :=
        ⟨fun hs ↦ absurd (hid ▸ hs) hspared, (h.task t ht).session⟩
      exact h.setTask ht htold rfl rfl
    · exact hdeferred

theorem Sound.deliverAll (h : Sound W P loose transit s) (meanwhile : ℕ → List Aside)
    {l : List (JobId × Control)} (hl : ∀ d ∈ l, ¬W.spared d.1) :
    Sound W P loose transit (s.deliverAll meanwhile l) := by
  induction l generalizing s meanwhile with
  | nil => exact h
  | cons d l ih =>
    obtain ⟨id, control⟩ := d
    have hrest : ∀ d ∈ l, ¬W.spared d.1 := fun d hd ↦ hl d (List.mem_cons_of_mem _ hd)
    unfold Loop.deliverAll
    dsimp only
    split
    next a ha =>
      exact ih ((h.asides _).send control ha (hl _ List.mem_cons_self)) _ hrest
    · exact ih (h.asides _) _ hrest

theorem Sound.deliver (h : Sound W P loose transit s) (meanwhile : ℕ → List Aside) :
    Sound W P loose transit (s.deliver meanwhile) := by
  refine Sound.deliverAll ?_ meanwhile h.deferred
  exact { h with books := { h.books with }, staff := { h.staff with }, deferred := nofun }

/-! ### The queue -/

theorem live_cons (e : Entry) : s.live (e :: transit) = e.job.id ::ₘ s.live transit := by
  simp only [live, List.map_cons, ← Multiset.cons_coe, Multiset.cons_add]

/-- **An entry in hand is queued**, or it is done. -/
theorem Sound.take {e : Entry} (h : Sound W P loose (e :: transit) s)
    (hrest : W.spared e.job.id → e.job.id ∈ P.begun → e.job.Unstopped) :
    Sound W P loose transit (s.take e) := by
  have hknows := h.inHand e List.mem_cons_self
  have hinHand : ∀ e' ∈ transit, W.Knows P e'.job := fun e' he' ↦ h.inHand e' (List.mem_cons_of_mem _ he')
  have hnodup := h.nodup
  have hgiven := h.given
  rw [live_cons] at hnodup hgiven
  have hready : e.job.Runnable → Sound W P loose transit { s with ready := s.ready ++ [e] } := by
    intro hrun
    have hlive : { s with ready := s.ready ++ [e] }.live transit = e.job.id ::ₘ s.live transit := by
      simp only [live, List.map_append, List.map_cons, List.map_nil, ← Multiset.coe_add,
        Multiset.coe_singleton, ← Multiset.singleton_add]
      abel
    refine { h with
      books := { h.books with }
      staff := { h.staff with }
      inHand := hinHand
      ready := fun e' he' ↦ ?_
      nodup := by rw [hlive]; exact hnodup
      given := by rw [hlive]; exact hgiven }
    rcases List.mem_append.1 he' with he' | he'
    · exact h.ready e' he'
    · rw [List.mem_singleton.1 he']
      exact ⟨hknows, hrun⟩
  have hdone : e.job.state ≠ .queued → e.job.state ≠ .retryWait →
      Sound W P loose transit { s with done := s.done ++ [.settled e.job] } := by
    intro hqueued hwait
    refine { h with
      books := { h.books with }
      staff := { h.staff with }
      inHand := hinHand
      nodup := (Multiset.nodup_cons.1 hnodup).2
      given := ?_
      answered := fun o ho ↦ ?_
      rested := fun o ho ↦ ?_ }
    · rw [← hgiven]
      simp only [live, List.map_append, List.map_cons, List.map_nil, ← Multiset.coe_add,
        Multiset.coe_singleton, ← Multiset.singleton_add, Outcome.settled]
      abel
    · rcases List.mem_append.1 ho with ho | ho
      · exact h.answered o ho
      · rw [List.mem_singleton.1 ho]
        exact nofun
    · rcases List.mem_append.1 ho with ho | ho
      · exact h.rested o ho
      · rw [List.mem_singleton.1 ho]
        rintro hspared hbegun job hjob
        obtain rfl := Option.some.inj hjob
        exact (hrest hspared hbegun).rests hqueued hwait
  unfold Loop.take
  split
  next hs => exact hready (Or.inl hs)
  next hs => exact hready (Or.inr (Or.inl hs))
  next hs => exact hready (Or.inr (Or.inr hs))
  next hs =>
    have hlive : { s with waiting := s.waiting ++ [e] }.live transit = e.job.id ::ₘ s.live transit := by
      simp only [live, List.map_append, List.map_cons, List.map_nil, ← Multiset.coe_add,
        Multiset.coe_singleton, ← Multiset.singleton_add]
      abel
    refine { h with
      books := { h.books with }
      staff := { h.staff with }
      inHand := hinHand
      waiting := fun e' he' ↦ ?_
      nodup := by rw [hlive]; exact hnodup
      given := by rw [hlive]; exact hgiven }
    rcases List.mem_append.1 he' with he' | he'
    · exact h.waiting e' he'
    · rw [List.mem_singleton.1 he']
      exact ⟨hknows, hs⟩
  next hs₁ _ _ hs₂ => exact hdone hs₁ hs₂

/-- **A job is given up** with an error. -/
theorem Sound.push {id : JobId} {e : RunError} (h : Sound W P (id ::ₘ loose) transit s)
    (he : e.Ordinary) : Sound W P loose transit (s.push (.failed id e)) := by
  refine { h with
    books := { h.books with }
    staff := { h.staff with }
    given := ?_
    answered := fun o ho ↦ ?_
    rested := fun o ho ↦ ?_ }
  · rw [← h.given]
    simp only [Loop.push, live, List.map_append, List.map_cons, List.map_nil, ← Multiset.coe_add,
      Multiset.coe_singleton, ← Multiset.singleton_add, Outcome.failed]
    abel
  · rcases List.mem_append.1 ho with ho | ho
    · exact h.answered o ho
    · rw [List.mem_singleton.1 ho]
      rintro e' he'
      cases he'
      exact he
  · rcases List.mem_append.1 ho with ho | ho
    · exact h.rested o ho
    · rw [List.mem_singleton.1 ho]
      exact fun _ _ job hjob ↦ by cases hjob

/-- An entry in hand loses its job. -/
theorem Sound.letGo {e : Entry} (h : Sound W P loose (e :: transit) s) :
    Sound W P (e.job.id ::ₘ loose) transit s ∧ e.job.id ∉ s.live transit := by
  have hnodup := h.nodup
  have hgiven := h.given
  rw [live_cons] at hnodup hgiven
  refine ⟨{ h with
    inHand := fun e' he' ↦ h.inHand e' (List.mem_cons_of_mem _ he')
    nodup := (Multiset.nodup_cons.1 hnodup).2
    given := ?_ }, (Multiset.nodup_cons.1 hnodup).1⟩
  rw [← hgiven]
  simp only [← Multiset.singleton_add]
  abel

/-- A job is taken in hand. -/
theorem Sound.take_up {e : Entry} (h : Sound W P (e.job.id ::ₘ loose) transit s)
    (hnew : e.job.id ∉ s.live transit) (hknows : W.Knows P e.job) :
    Sound W P loose (e :: transit) s := by
  refine { h with
    inHand := fun e' he' ↦ ?_
    nodup := by rw [live_cons]; exact Multiset.nodup_cons.2 ⟨hnew, h.nodup⟩
    given := ?_ }
  · rcases List.mem_cons.1 he' with rfl | he'
    · exact hknows
    · exact h.inHand e' he'
  · rw [← h.given, live_cons]
    simp only [← Multiset.singleton_add]
    abel

/-- The order of what is in hand does not matter. -/
theorem Sound.perm {transit' : List Entry} (h : Sound W P loose transit s)
    (hperm : transit.Perm transit') : Sound W P loose transit' s := by
  have hlive : s.live transit' = s.live transit := by
    unfold live
    rw [Multiset.coe_eq_coe.2 (hperm.map (·.job.id))]
  exact { h with
    inHand := fun e he ↦ h.inHand e (hperm.mem_iff.2 he)
    nodup := by rw [hlive]; exact h.nodup
    given := by rw [hlive]; exact h.given }

/-- **A command answers for an entry in hand.** -/
theorem Sound.takeBack {e : Entry} {result : Except RunError Job}
    (h : Sound W P loose (e :: transit) s) (hsame : Same e.job result)
    (hknow : ∀ job, result = .ok job → W.spared job.id →
      W.know (P.begun.count job.id) (P.renewed.count job.id) job ∧ job.Unstopped) :
    Sound W P loose transit (s.takeBack e result) := by
  obtain ⟨hgone, hnew⟩ := h.letGo
  cases result with
  | error error => exact hgone.push hsame
  | ok job =>
    have hknows : W.Knows P job :=
      ⟨hsame.2 (h.inHand e List.mem_cons_self).1, fun hspared ↦ (hknow job rfl hspared).1⟩
    rw [← hsame.1] at hgone hnew
    have hup : Sound W P loose (⟨job, e.origin⟩ :: transit) s :=
      Sound.take_up (e := ⟨job, e.origin⟩) hgone hnew hknows
    exact hup.take fun hspared _ ↦ (hknow job rfl hspared).2

/-- A retry that fell due queues its job again. -/
theorem retryDue_eval {job job' : Job} {now : ℕ} {answers : Answers} (hstate : job.state = .retryWait)
    (h : (Coordinator.command job (.retryDue now)).eval answers = .ok job') :
    ∃ version, job' = { job with retryAt := none, state := .queued, version := version } := by
  rcases Coordinator.command_eval job (.retryDue now) answers with
    ⟨⟨next, hexec⟩, -⟩ | ⟨next, version, hexec, hr⟩ | ⟨e, hr, -⟩
  · simp only [Job.execute, hstate, Job.moved] at hexec
    split at hexec <;> cases hexec
  · rw [hr] at h
    refine ⟨version, ?_⟩
    have hnext : next = { job with retryAt := none, state := .queued } := by
      simp only [Job.execute, hstate, Job.moved] at hexec
      split at hexec
      · cases hexec
      · exact ((Prod.mk.inj (Except.ok.inj hexec)).2).symm
    rw [← Except.ok.inj h, hnext]
  · rw [hr] at h
    cases h

theorem Sound.promoteAll (now : ℕ) (answers : ℕ → Answers) {l : List Entry}
    (h : Sound W P loose l s) (hl : ∀ e ∈ l, e.job.state = .retryWait) :
    Sound W P loose [] (s.promoteAll now answers l) := by
  induction l generalizing s answers with
  | nil => exact h
  | cons e l ih =>
    have hstate := hl e List.mem_cons_self
    have hrest : ∀ e ∈ l, e.job.state = .retryWait := fun e he ↦ hl e (List.mem_cons_of_mem _ he)
    unfold Loop.promoteAll
    refine ih _ ?_ hrest
    split
    · have htake := h.take fun _ _ ↦ ⟨by rw [Job.removable, hstate], by simp [hstate], by simp [hstate]⟩
      rwa [Loop.take, hstate] at htake
    · refine h.takeBack (Coordinator.command_same ..) fun job hjob hspared ↦ ?_
      have hknow := (h.inHand e List.mem_cons_self).2
      obtain ⟨version, rfl⟩ := retryDue_eval hstate hjob
      exact ⟨W.due (hknow hspared) hstate, rfl, (by rintro ⟨⟩), (by rintro ⟨⟩)⟩

theorem Sound.promoteDue (h : Sound W P loose [] s) (now : ℕ) (answers : ℕ → Answers) :
    Sound W P loose [] (s.promoteDue now answers) := by
  refine Sound.promoteAll now answers ?_ fun e he ↦ (h.waiting e he).2
  have hlive : { s with waiting := [] }.live s.waiting = s.live [] := by
    simp only [live, List.map_nil, Multiset.coe_nil]
    abel
  exact { h with
    books := { h.books with }
    staff := { h.staff with }
    inHand := fun e he ↦ (h.waiting e he).1
    waiting := fun e he ↦ absurd he List.not_mem_nil
    nodup := by rw [hlive]; exact h.nodup
    given := by rw [hlive]; exact h.given }

end Loop

end Fhd
