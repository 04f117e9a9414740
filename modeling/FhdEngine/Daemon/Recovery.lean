import FhdEngine.Daemon.ServiceRules
import FhdEngine.System.RetryWaits
import Mathlib.Algebra.Order.BigOperators.Group.List
import Mathlib.Algebra.Order.Group.Nat

/-!
# What a restart takes up

A process that starts reads back what the last one left and hands the scheduler the jobs of `restore`.
`TakenUp` is the weakest thing that can be asked for a job then: the scheduler holds it after its intake, or
has answered for it, or starts it in some run in which nobody hands it over anew.

`restore` hands over what is queued or waits for a retry, and `settle` and `Coordinator.recover`, which are
there for a job that a crash interrupted, see none of these: `recovers_iff` says that a restart recovers
every job whose source it can bind exactly when there is none to recover.
-/

namespace Fhd

open Fallible

namespace Loop

variable {S : Scheduler} {s : Loop} {x : JobId}

/-- **A job is taken up** by a scheduler that has just started. -/
def TakenUp (S : Scheduler) (s : Loop) (x : JobId) : Prop :=
  x ∈ s.liveIds ∨ (∃ outcome ∈ s.done, outcome.id = x) ∨
    ∃ turns t, (∀ job ∈ arrivals S s (turns ++ [t]), job.Inv ∧ job.id ≠ x) ∧
      x ∈ (turns.foldl (Loop.turn S) s).turnStarts S t

/-- The identities the scheduler holds or has answered for. -/
def known (s : Loop) : List JobId := s.liveIds ++ s.done.map (·.id)

theorem mem_known_take {e : Entry} (h : x ∈ (s.take e).known) : x = e.job.id ∨ x ∈ s.known := by
  unfold Loop.take at h
  simp only [known, liveIds, List.map_append, List.mem_append] at h ⊢
  split at h <;> simp [Outcome.settled] at h <;> grind

theorem mem_known_push {outcome : Outcome} (h : x ∈ (s.push outcome).known) :
    x = outcome.id ∨ x ∈ s.known := by
  simp only [known, liveIds, push, List.map_append, List.mem_append, List.map_cons, List.map_nil,
    List.mem_singleton] at h ⊢
  grind

/-- The intake takes what it is given. -/
theorem mem_known_intake {seen : List JobId} {given : List (Job × Answers × OriginId)}
    (h : x ∈ (s.intake seen given).known) : x ∈ s.known ∨ ∃ j ∈ given, j.1.id = x := by
  induction given generalizing s seen with
  | nil => exact Or.inl h
  | cons j given ih =>
    obtain ⟨job, answers, origin⟩ := j
    have hpush : ∀ {seen error}, x ∈ ((s.push (.failed job.id error)).intake seen given).known →
        x ∈ s.known ∨ ∃ j ∈ (job, answers, origin) :: given, j.1.id = x := by
      intro seen error h
      rcases ih h with h | ⟨j, hj, hid⟩
      · rcases mem_known_push h with rfl | h
        · exact Or.inr ⟨_, List.mem_cons_self, rfl⟩
        · exact Or.inl h
      · exact Or.inr ⟨j, List.mem_cons_of_mem _ hj, hid⟩
    unfold Loop.intake at h
    split at h
    · exact hpush h
    · have hsame := settle_same job answers
      split at h
      next settled hsettled =>
        rw [hsettled] at hsame
        rcases ih h with h | ⟨j, hj, hid⟩
        · rcases mem_known_take h with rfl | h
          · exact Or.inr ⟨_, List.mem_cons_self, hsame.1.symm⟩
          · exact Or.inl h
        · exact Or.inr ⟨j, List.mem_cons_of_mem _ hj, hid⟩
      · exact hpush h

/-- **What the intake was not given is not taken up.** -/
theorem not_takenUp_intake {governor : OriginGovernor} {given : List (Job × Answers × OriginId)}
    (hinv : ∀ j ∈ given, j.1.Inv) (hx : ∀ j ∈ given, j.1.id ≠ x) :
    ¬TakenUp S ((Loop.start governor).intake [] given) x := by
  have hunknown : x ∉ ((Loop.start governor).intake [] given).known := by
    intro h
    rcases mem_known_intake h with h | ⟨j, hj, hid⟩
    · cases h
    · exact hx j hj hid
  rw [known, List.mem_append, not_or] at hunknown
  rintro (h | ⟨outcome, houtcome, hid⟩ | ⟨turns, t, harrivals, hstarts⟩)
  · exact hunknown.1 h
  · exact hunknown.2 (List.mem_map.2 ⟨outcome, houtcome, hid⟩)
  · -- a moment that no look of this run reaches
    let due := ((turns ++ [t]).map (·.promoteNow)).sum + 1
    have hlate : ∀ u ∈ turns ++ [t], u.promoteNow < due := fun u hu ↦
      Nat.lt_succ_of_le (List.single_le_sum (fun _ _ ↦ Nat.zero_le _) _ (List.mem_map_of_mem hu))
    have hminded : ((Loop.start governor).intake [] given).Minded (holding x due) :=
      (Minded.start governor).intake [] given fun j hj ↦ ⟨hinv j hj, if_neg (hx j hj)⟩
    exact hminded.neverStarted hlate harrivals rfl hstarts

end Loop

namespace Persistence

/-- A stored job has the identity of its row. -/
theorem id_of_loadJob {t : Store} {entry : (_ : ℤ) × JobsRow} {job : Job} (h : loadJob t entry = .ok job) :
    entry.1 = job.id.get ∧ job.Inv := by
  obtain ⟨record, hrecord, hrestore⟩ := bind_eq_ok.1 h
  have hrebuilt : Job.Rebuilt record job := by
    cases hjob : Job.restore record with
    | error e =>
      rw [hjob] at hrestore
      cases hrestore
    | ok restored =>
      rw [hjob] at hrestore
      cases hrestore
      exact Job.restore_eq_ok hjob
  refine ⟨?_, hrebuilt.inv⟩
  obtain ⟨number, hnumber, hrecord⟩ := bind_eq_ok.1 hrecord
  obtain ⟨id, hid, hrecord⟩ := bind_eq_ok.1 hrecord
  have hkey : record.id = id := by
    obtain ⟨spec, -, hrecord⟩ := bind_eq_ok.1 hrecord
    obtain ⟨version, -, hrecord⟩ := bind_eq_ok.1 hrecord
    split at hrecord
    · cases hrecord
      rfl
    · obtain ⟨header, -, hrecord⟩ := bind_eq_ok.1 hrecord
      obtain ⟨durable, -, hrecord⟩ := bind_eq_ok.1 hrecord
      cases hrecord
      rfl
  rw [hrebuilt.eq]
  show entry.1 = record.id.get
  rw [hkey, loaded_eq_ok.1 hnumber, get_of_identifier hid]

/-- **No two stored jobs share an identity.** -/
theorem eq_of_stored {t : Store} {stored : List Job} (h : Persistence.jobs t = .ok stored) {job job' : Job}
    (hjob : job ∈ stored) (hjob' : job' ∈ stored) (hid : job.id = job'.id) : job = job' := by
  obtain ⟨entry, hentry, hload⟩ := (mem_of_mapM_eq_ok h).1 hjob
  obtain ⟨entry', hentry', hload'⟩ := (mem_of_mapM_eq_ok h).1 hjob'
  have hkey : entry.1 = entry'.1 := by
    rw [(id_of_loadJob hload).1, (id_of_loadJob hload').1, hid]
  have hsame : entry = entry' :=
    t.jobs.nodupKeys.eq_of_fst_eq ((List.mem_insertionSort _).1 hentry)
      ((List.mem_insertionSort _).1 hentry') hkey
  rw [hsame, hload'] at hload
  exact (Except.ok.inj hload).symm

end Persistence

namespace Daemon

variable {Url Origin : Type} {U : Urls Url Origin} {config : EngineConfig} {s s' : Engine Url}
  {sources : List (SourceRef × SourceReference)} {stored restored : List Job} {job : Job}

/-- A crash can leave a job in any state; these are the ones it interrupted. -/
def interrupted (state : JobState) : Bool :=
  state ∈ [JobState.probing, .transferring, .stopping, .cancelling, .verifying, .publishing]

/-- Whether the row of a job's source can be bound under this policy. -/
def bindable (U : Urls Url Origin) (config : EngineConfig) (sources : List (SourceRef × SourceReference))
    (job : Job) : Bool :=
  match sources.lookup job.spec.source with
  | none => false
  | some reference =>
    match reference.url with
    | none => false
    | some url =>
      !(reference.allowHttp && !config.allowHttp) &&
        (SourceBinding.new U url none none reference.allowHttp []).isOk

/-- **A restart recovers** every job it can bind: none is left where the crash interrupted it without being
taken up, however the scheduler settles what it is given. -/
def Recovers (U : Urls Url Origin) (config : EngineConfig) (S : Scheduler) (governor : OriginGovernor)
    (s : Engine Url) : Prop :=
  ∀ s' restored, restore U config s = .ok (s', restored) →
    ∀ given : List (Job × Answers × OriginId), given.map (·.1) = restored →
      ∀ sources stored, s.references.storedSources = .ok sources →
        Persistence.jobs s.desk.store = .ok stored →
        ∀ job ∈ stored, bindable U config sources job → interrupted job.state →
          Loop.TakenUp S ((Loop.start governor).intake [] given) job.id

/-- One job more is handed over, or none. -/
theorem restoreJob_jobs (r : Restored Url) (job : Job) : (restoreJob U config sources r job).jobs = r.jobs ∨
    (job.state = .queued ∨ job.state = .retryWait) ∧
      (restoreJob U config sources r job).jobs = r.jobs ++ [job] := by
  unfold restoreJob
  repeat' split
  all_goals first
    | exact Or.inl rfl
    | exact Or.inr ⟨by assumption, rfl⟩

theorem mem_restoreJobs {r : Restored Url} (h : job ∈ (stored.foldl (restoreJob U config sources) r).jobs) :
    job ∈ r.jobs ∨ job ∈ stored ∧ (job.state = .queued ∨ job.state = .retryWait) := by
  induction stored generalizing r with
  | nil => exact Or.inl h
  | cons first stored ih =>
    rcases ih h with h | ⟨hmem, hstate⟩
    · rcases restoreJob_jobs r first with hone | ⟨hstate, hone⟩
      · exact Or.inl (hone ▸ h)
      · rw [hone, List.mem_append, List.mem_singleton] at h
        rcases h with h | rfl
        · exact Or.inl h
        · exact Or.inr ⟨List.mem_cons_self, hstate⟩
    · exact Or.inr ⟨List.mem_cons_of_mem _ hmem, hstate⟩

/-- **What `restore` hands over** was queued, or waits for a retry. -/
theorem mem_restored (h : restore U config s = .ok (s', restored))
    (hstored : Persistence.jobs s.desk.store = .ok stored) (hjob : job ∈ restored) :
    job ∈ stored ∧ (job.state = .queued ∨ job.state = .retryWait) := by
  unfold restore at h
  obtain ⟨sources, -, h⟩ := bind_eq_ok.1 h
  obtain ⟨stored', hstored', h⟩ := bind_eq_ok.1 h
  rw [hstored] at hstored'
  cases hstored'
  cases h
  exact (mem_restoreJobs hjob).resolve_left List.not_mem_nil

theorem restore_isOk (hsources : s.references.storedSources = .ok sources)
    (hstored : Persistence.jobs s.desk.store = .ok stored) :
    ∃ s' restored, restore U config s = .ok (s', restored) := by
  unfold restore
  rw [hsources, hstored]
  exact ⟨_, _, rfl⟩

/-- **A restart recovers every job exactly when there is none to recover**: of those a crash interrupted,
not one is taken up. -/
theorem recovers_iff (U : Urls Url Origin) (config : EngineConfig) (S : Scheduler)
    (governor : OriginGovernor) (s : Engine Url) :
    Recovers U config S governor s ↔
      ∀ sources stored, s.references.storedSources = .ok sources →
        Persistence.jobs s.desk.store = .ok stored →
        ∀ job ∈ stored, bindable U config sources job → ¬interrupted job.state := by
  constructor
  · intro h sources stored hsources hstored job hjob hbind hinterrupted
    obtain ⟨s', restored, hrestore⟩ := restore_isOk hsources hstored
    let given : List (Job × Answers × OriginId) :=
      restored.map fun j ↦ (j, Sample.answers, Sample.origin)
    have hgiven : given.map (·.1) = restored := by
      rw [List.map_map]
      exact List.map_id' restored
    have hmem : ∀ j ∈ given, j.1 ∈ stored ∧ (j.1.state = .queued ∨ j.1.state = .retryWait) :=
      fun j hj ↦ mem_restored hrestore hstored (hgiven ▸ List.mem_map_of_mem hj)
    refine Loop.not_takenUp_intake (fun j hj ↦ ?_) (fun j hj hid ↦ ?_)
      (h s' restored hrestore given hgiven sources stored hsources hstored job hjob hbind hinterrupted)
    · obtain ⟨entry, -, hload⟩ := (mem_of_mapM_eq_ok hstored).1 (hmem j hj).1
      exact (Persistence.id_of_loadJob hload).2
    · -- it would be the job itself, which is in neither of the two states
      have hsame := Persistence.eq_of_stored hstored (hmem j hj).1 hjob hid
      rw [interrupted, ← hsame] at hinterrupted
      rcases (hmem j hj).2 with hs | hs <;> simp [hs] at hinterrupted
  · intro h s' restored hrestore given hgiven sources stored hsources hstored job hjob hbind hinterrupted
    exact absurd hinterrupted (h sources stored hsources hstored job hjob hbind)

/-- The session of the job that was added first has begun to probe. -/
def Sample.probing : JobEvent where
  job := ⟨1, Nat.one_ne_zero⟩
  version := 1
  fromState := .queued
  toState := .probing
  generation := Generation.initial
  command := .start
  outcome := ⟨.probing, Generation.initial, none, none, none, false, 1, 0, none⟩

/-- Whether a job that can be bound was left interrupted. -/
def Sample.leftInterrupted (s : Engine String) : Option Bool := do
  let sources ← s.references.storedSources.toOption
  let stored ← (Persistence.jobs s.desk.store).toOption
  return stored.any fun job ↦
    bindable Sample.urls Sample.service.config sources job && interrupted job.state

theorem Sample.not_recovers_of_left {s : Engine String} (h : Sample.leftInterrupted s = some true)
    (S : Scheduler) (governor : OriginGovernor) :
    ¬Recovers Sample.urls Sample.service.config S governor s := by
  intro hrecovers
  have hnone := (recovers_iff _ _ _ _ _).1 hrecovers
  unfold Sample.leftInterrupted at h
  cases hsources : s.references.storedSources with
  | error e => simp [hsources, Except.toOption] at h
  | ok sources =>
    cases hstored : Persistence.jobs s.desk.store with
    | error e => simp [hsources, hstored, Except.toOption] at h
    | ok stored =>
      simp only [hsources, hstored, Except.toOption, Option.bind_eq_bind, Option.bind_some, Option.pure_def,
        Option.some.injEq, List.any_eq_true, Bool.and_eq_true] at h
      obtain ⟨job, hjob, hbind, hinterrupted⟩ := h
      exact hnone sources stored hsources hstored job hjob hbind hinterrupted

/-- A job that was probing when its process died is not taken up. -/
theorem not_recovers : ¬∀ (lives : List Life) (config : EngineConfig) (S : Scheduler)
    (governor : OriginGovernor), Recovers Sample.urls config S governor
      (after Sample.urls Sample.hashOf Sample.limits lives).shared := by
  intro h
  let lives : List Life := [⟨Sample.service,
    Sample.adding 0 (Sample.request "/d/a" false true) ++ [.disturb (.commitTransition Sample.probing)]⟩]
  have hleft : Sample.leftInterrupted (after Sample.urls Sample.hashOf Sample.limits lives).shared =
      some true := by
    decide +kernel
  exact Sample.not_recovers_of_left hleft Fhd.Sample.scheduler Fhd.Sample.idleGovernor
    (h lives Sample.service.config Fhd.Sample.scheduler Fhd.Sample.idleGovernor)

end Daemon

end Fhd
