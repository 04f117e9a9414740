import FhdEngine.Domain.JobRestore

/-!
# How attempts are counted

A job counts its transfer attempts, and the retry policy stops at a limit. Over every history of calls and
restarts the counter is compared with the number of accepted Starts since the last Resume or the last change of
generation. They agree as long as no replacement is drained while attempts are counted: that is a new generation,
and the counter goes on (`attempts_counted_iff`).
-/

namespace Fhd

namespace Job

variable {j next : Job} {command : JobCommand}

/-! ### What a call does -/

/-- **A command is refused, accepted as a no-op, or accepted with one event.** -/
theorem handle_cases (j : Job) (command : JobCommand) :
    (∃ e, j.handle command = (.error e, j) ∧ (execute j command = .error e ∨ checkedAdd j.version 1 = none)) ∨
    (j.handle command = (.ok [], j) ∧ execute j command = .ok (false, j)) ∨
    ∃ next event, execute j command = .ok (true, next) ∧
      j.handle command = (.ok [event], { next with version := j.version + 1 }) := by
  unfold handle
  cases hdecide : j.decide command with
  | error e =>
    refine Or.inl ⟨e, rfl, ?_⟩
    unfold decide at hdecide
    split at hdecide
    next hexec =>
      cases hdecide
      exact Or.inl hexec
    next => cases hdecide
    next =>
      split at hdecide
      next hversion => exact Or.inr hversion
      next => cases hdecide
  | ok events =>
    unfold decide at hdecide
    split at hdecide
    next => cases hdecide
    next next hexec =>
      cases hdecide
      have hnoop := execute_noop hexec
      subst hnoop
      exact Or.inr (Or.inl ⟨rfl, hexec⟩)
    next next hexec =>
      split at hdecide
      next => cases hdecide
      next version hversion =>
        cases hdecide
        obtain ⟨-, rfl⟩ := checkedAdd_eq_some.1 hversion
        refine Or.inr (Or.inr
          ⟨next, ⟨j.id, j.version + 1, j.state, next.state, j.generation, command, next.projection⟩, hexec, ?_⟩)
        have hscope : ¬(j.id ≠ j.id ∨ j.state ≠ j.state ∨ j.generation ≠ j.generation ∨
            checkedAdd j.version 1 ≠ some (j.version + 1)) := by
          rw [hversion]
          simp
        have hsame : ¬(¬(true : Bool) = true ∨ next.state ≠ next.state ∨ next.projection ≠ next.projection) := by simp
        simp only [applyAll, apply]
        rw [if_neg hscope, hexec]
        dsimp only
        rw [if_neg hsame]

/-- The command a call has had accepted with an event. -/
def effected (j : Job) : Op → Option JobCommand
  | .handle command =>
    match (j.handle command).1 with
    | .ok (_ :: _) => some command
    | _ => none
  | .apply event =>
    match (j.apply event).1 with
    | .ok _ => some event.command
    | .error _ => none
  | _ => none

/-- **A call without an event** changes the segments at most. -/
theorem perform_of_effected_none {op : Op} (h : j.effected op = none) :
    ∃ segments, j.perform op = { j with segments } := by
  cases hop : op.onSegments with
  | some mapOp =>
    rcases j.perform_segments hop with ⟨e, -, he⟩ | ⟨m, -, -, -, he⟩
    · exact ⟨j.segments, he⟩
    · exact ⟨_, he⟩
  | none =>
    cases op with
    | handle command =>
      rcases j.handle_cases command with ⟨e, he, -⟩ | ⟨he, -⟩ | ⟨next, event, -, he⟩
      · exact ⟨j.segments, by rw [perform, he]⟩
      · exact ⟨j.segments, by rw [perform, he]⟩
      · simp [effected, he] at h
    | apply event =>
      rcases j.apply_cases event with ⟨e, he⟩ | ⟨next, -, -, -, -, -, -, -, he⟩
      · exact ⟨j.segments, by rw [perform, he]⟩
      · simp [effected, he] at h
    | _ => cases hop

/-- **A call with an event** executes its command. -/
theorem perform_of_effected {op : Op} (h : j.effected op = some command) :
    ∃ next version, execute j command = .ok (true, next) ∧ j.perform op = { next with version } := by
  cases op with
  | handle command' =>
    rcases j.handle_cases command' with ⟨e, he, -⟩ | ⟨he, -⟩ | ⟨next, event, hexec, he⟩
    · simp [effected, he] at h
    · simp [effected, he] at h
    · simp only [effected, he, Option.some.injEq] at h
      subst h
      exact ⟨next, _, hexec, by rw [perform, he]⟩
  | apply event =>
    rcases j.apply_cases event with ⟨e, he⟩ | ⟨next, -, -, -, -, hexec, -, -, he⟩
    · simp [effected, he] at h
    · simp only [effected, he, Option.some.injEq] at h
      subst h
      exact ⟨next, _, hexec, by rw [perform, he]⟩
  | _ => cases h

/-! ### What a command does to the counter -/

/-- The counter and the generation after an accepted command. -/
inductive Counts (j next : Job) : JobCommand → Prop
  | started (hattempts : next.attempts = saturatingSucc j.attempts) (hgeneration : next.generation = j.generation) :
      Counts j next .start
  | resumed (hattempts : next.attempts = 0) (hgeneration : next.generation = j.generation) : Counts j next .resume
  | replaced (hattempts : next.attempts = 0) (hgeneration : next.generation ≠ j.generation) :
      Counts j next .replaceRepresentation
  | drainedReplaced (hreplace : j.replaceOnDrain = true) (hattempts : next.attempts = j.attempts)
      (hgeneration : next.generation ≠ j.generation) : Counts j next .workersDrained
  | drained (hreplace : j.replaceOnDrain = false) (hattempts : next.attempts = j.attempts)
      (hgeneration : next.generation = j.generation) : Counts j next .workersDrained
  | kept {command : JobCommand} (hcommand : command ≠ .start ∧ command ≠ .resume ∧ command ≠ .workersDrained)
      (hattempts : next.attempts = j.attempts) (hgeneration : next.generation = j.generation) : Counts j next command

/-- A command other than the three that count leaves the counter and the generation alone. -/
theorem counts_raised (h : raised j command = .ok (true, next)) :
    Counts j next command := by
  unfold raised at h
  split at h
  · cases h
  next cause hcause =>
    split at h
    · cases h
    · split at h <;> cases h
      refine .kept ⟨?_, ?_, ?_⟩ rfl rfl <;> rintro rfl <;> cases hcause

/-- Landing keeps the counter and the generation. -/
theorem counts_land {target : StopTarget} :
    (land j target).attempts = j.attempts ∧ (land j target).generation = j.generation := by
  obtain ⟨state, retryAt, reason, heq⟩ := land_eq j target
  rw [heq]
  exact ⟨rfl, rfl⟩

/-- Draining keeps the counter, also where it begins a generation. -/
theorem counts_drained (h : drained j = .ok (true, next)) : Counts j next .workersDrained := by
  unfold drained at h
  split at h
  · cases h
  split at h
  · cases h
  split at h
  next hreplace =>
    split at h <;> cases h
    next hnext =>
      refine .drainedReplaced hreplace (counts_land).1 ?_
      rw [(counts_land).2]
      exact Generation.ne_of_next hnext
  next hreplace =>
    cases h
    exact .drained (by simpa using hreplace) (counts_land).1 (counts_land).2

/-- The end of a probe touches the plan and the state. -/
theorem probed_eq {total maxSegments : ℕ} {validator : Option Digest} {b : Bool}
    (h : probed j total maxSegments validator = .ok (b, next)) :
    ∃ validator segments, next = { j with validator, segments, state := .transferring } := by
  unfold probed at h
  split at h
  · cases h
  split at h <;> split at h <;> cases h <;> exact ⟨_, _, rfl⟩

/-- **Each accepted command counts as listed.** -/
theorem execute_counts (h : execute j command = .ok (true, next)) : Counts j next command := by
  cases command with
  | start =>
    cases hs : j.state <;> simp only [execute, hs] at h <;> cases h
    exact .started rfl rfl
  | resume =>
    cases hs : j.state <;> simp only [execute, hs] at h
    case stopping | needsAction =>
      split at h <;> cases h
      exact .resumed rfl rfl
    all_goals
      cases h
      try exact .resumed rfl rfl
  | workersDrained =>
    cases hs : j.state <;> simp only [execute, hs] at h
    case stopping => exact counts_drained h
    all_goals cases h
  | replaceRepresentation =>
    cases hs : j.state <;> simp only [execute, hs] at h
    case needsAction | paused | failed =>
      split at h <;> cases h
      next hnext => exact .replaced rfl (Generation.ne_of_next hnext)
    all_goals cases h
  | probeSucceeded total maxSegments validator =>
    cases hs : j.state <;> simp only [execute, hs] at h
    case probing =>
      obtain ⟨validator, segments, rfl⟩ := probed_eq h
      exact .kept (by simp) rfl rfl
    all_goals cases h
  | _ =>
    -- none of the other commands counts, in any state
    cases hs : j.state <;> simp only [execute, hs] at h
    all_goals first
      | exact counts_raised h
      | (cases h; exact .kept (by simp) rfl rfl)
      | (split at h <;> cases h <;> exact .kept (by simp) rfl rfl)
      | (split at h <;> first | cases h | (split at h <;> cases h <;> exact .kept (by simp) rfl rfl))
      | cases h

/-- The version plays no part. -/
theorem Counts.setVersion (h : Counts j next command) (version : ℕ) : Counts j { next with version } command := by
  cases h with
  | started hattempts hgeneration => exact .started hattempts hgeneration
  | resumed hattempts hgeneration => exact .resumed hattempts hgeneration
  | replaced hattempts hgeneration => exact .replaced hattempts hgeneration
  | drainedReplaced hreplace hattempts hgeneration => exact .drainedReplaced hreplace hattempts hgeneration
  | drained hreplace hattempts hgeneration => exact .drained hreplace hattempts hgeneration
  | kept hcommand hattempts hgeneration => exact .kept hcommand hattempts hgeneration

/-! ### Histories -/

/-- What happens to a job: a call, or a restart that rebuilds it from its record. -/
inductive Action
  | call (op : Op)
  | restart

/-- A restart whose record is refused would leave the job; a reachable record never is (`restart_eq`). -/
def act (j : Job) : Action → Job
  | .call op => j.perform op
  | .restart =>
    match restore j.record with
    | .ok j' => j'
    | .error _ => j

/-- The command an action has had accepted with an event. -/
def accepted (j : Job) : Action → Option JobCommand
  | .call op => j.effected op
  | .restart => none

def actAll (j : Job) (actions : List Action) : Job := actions.foldl act j

@[simp] theorem actAll_concat (j : Job) (actions : List Action) (action : Action) :
    j.actAll (actions ++ [action]) = (j.actAll actions).act action := by
  simp [actAll]

/-- An action, with the job it met. -/
structure Passage where
  before : Job
  action : Action

/-- An accepted Start. -/
def Passage.starts (p : Passage) : Bool := p.before.accepted p.action = some .start

/-- A Resume that produced an event, or a change of generation. -/
def Passage.resets (p : Passage) : Bool :=
  p.before.accepted p.action = some .resume ∨ (p.before.act p.action).generation ≠ p.before.generation

/-- The history of a job. -/
def passages (j : Job) : List Action → List Passage
  | [] => []
  | action :: actions => ⟨j, action⟩ :: passages (j.act action) actions

theorem passages_concat (j : Job) (actions : List Action) (action : Action) :
    j.passages (actions ++ [action]) = j.passages actions ++ [⟨j.actAll actions, action⟩] := by
  induction actions generalizing j with
  | nil => rfl
  | cons a actions ih =>
    simp only [List.cons_append, passages, ih]
    rfl

/-- The accepted Starts after the last reset of a history. -/
def startsSince (history : List Passage) : ℕ :=
  (history.reverse.takeWhile fun p ↦ !p.resets).countP Passage.starts

theorem startsSince_concat (history : List Passage) (p : Passage) :
    startsSince (history ++ [p]) =
      if p.resets then 0 else startsSince history + if p.starts then 1 else 0 := by
  unfold startsSince
  rw [List.reverse_append, List.reverse_singleton, List.singleton_append, List.takeWhile_cons]
  cases p.resets with
  | true => rfl
  | false => simp [List.countP_cons]

/-- The counter says how many Starts there were since the last reset, up to its limit. -/
def Counted (id : JobId) (spec : JobSpec) (actions : List Action) : Prop :=
  ((new id spec).actAll actions).attempts.toNat = min 255 (startsSince ((new id spec).passages actions))

instance (id : JobId) (spec : JobSpec) (actions : List Action) : Decidable (Counted id spec actions) :=
  inferInstanceAs (Decidable (_ = _))

/-- An accepted drain that replaces the representation. -/
def Renews (j : Job) (action : Action) : Prop :=
  j.accepted action = some .workersDrained ∧ j.replaceOnDrain = true

/-- A restart changes the segments at most. -/
theorem restart_eq (hj : j.Inv) : (∃ j', restore j.record = .ok j') ∧
    ∃ segments, j.act .restart = { j with segments } := by
  obtain ⟨segments, hok, -⟩ := hj.restore_record
  refine ⟨⟨_, hok⟩, segments, ?_⟩
  simp only [act, hok]

theorem Inv.act (hj : j.Inv) (action : Action) : (j.act action).Inv := by
  cases action with
  | call op => exact hj.perform op
  | restart =>
    obtain ⟨⟨j', hok⟩, -⟩ := restart_eq hj
    rw [Job.act, hok]
    exact (restore_eq_ok hok).inv

theorem inv_actAll (id : JobId) (spec : JobSpec) (actions : List Action) :
    ((new id spec).actAll actions).Inv := by
  induction actions using List.reverseRecOn with
  | nil => exact inv_new id spec
  | append_singleton actions action ih =>
    rw [actAll_concat]
    exact ih.act action

theorem toNat_saturatingSucc (n : UInt8) : (saturatingSucc n).toNat = min 255 (n.toNat + 1) := by
  unfold saturatingSucc
  have := n.toNat_lt
  split
  next h =>
    subst h
    rfl
  next h =>
    have hne : n.toNat ≠ 255 := fun hn ↦ h (UInt8.toNat_inj.1 hn)
    rw [UInt8.toNat_add, UInt8.toNat_one, Nat.mod_eq_of_lt (by omega)]
    omega

/-- **What an action does to the counter**: without an event nothing, otherwise what its command does. -/
theorem act_counts (hj : j.Inv) (action : Action) :
    (j.accepted action = none ∧ (j.act action).attempts = j.attempts ∧
      (j.act action).generation = j.generation) ∨
    ∃ command, j.accepted action = some command ∧ Counts j (j.act action) command := by
  cases hcommand : j.accepted action with
  | none =>
    obtain ⟨segments, heq⟩ : ∃ segments, j.act action = { j with segments } := by
      cases action with
      | call op => exact perform_of_effected_none hcommand
      | restart => exact (restart_eq hj).2
    rw [heq]
    exact Or.inl ⟨rfl, rfl, rfl⟩
  | some command =>
    cases action with
    | restart => cases hcommand
    | call op =>
      obtain ⟨next, version, hexec, heq⟩ := perform_of_effected hcommand
      rw [show j.act (.call op) = _ from heq]
      exact Or.inr ⟨command, rfl, (execute_counts hexec).setVersion version⟩

/-- **Step lemma**: an action keeps the counter right, unless it renews while Starts are counted. -/
theorem counted_act (hj : j.Inv) {history : List Passage} (action : Action)
    (hcounted : j.attempts.toNat = min 255 (startsSince history)) :
    (j.act action).attempts.toNat = min 255 (startsSince (history ++ [⟨j, action⟩])) ↔
      (Renews j action → startsSince history = 0) := by
  rw [startsSince_concat]
  have hresets : (Passage.mk j action).resets = true ↔
      j.accepted action = some .resume ∨ (j.act action).generation ≠ j.generation := by
    simp [Passage.resets]
  have hstarts : (Passage.mk j action).starts = true ↔ j.accepted action = some .start := by
    simp [Passage.starts]
  rcases act_counts hj action with ⟨hnone, hattempts, hgeneration⟩ | ⟨command, hcommand, hcounts⟩
  · -- nothing accepted: the counter, the generation and the count stay
    rw [if_neg (by rw [hresets]; simp [hnone, hgeneration]), if_neg (by rw [hstarts]; simp [hnone]), hattempts]
    exact iff_of_true hcounted fun hrenews ↦ by cases hnone.symm.trans hrenews.1
  · have hother : command ≠ .workersDrained → Renews j action → startsSince history = 0 := by
      intro hne hrenews
      exact absurd (Option.some.inj (hcommand.symm.trans hrenews.1)) hne
    cases hcounts with
    | started hattempts hgeneration =>
      rw [if_neg (by rw [hresets]; simp [hcommand, hgeneration]), if_pos (hstarts.2 hcommand), hattempts,
        toNat_saturatingSucc]
      exact iff_of_true (by omega) (hother (by simp))
    | resumed hattempts hgeneration =>
      rw [if_pos (hresets.2 (Or.inl hcommand)), hattempts]
      exact iff_of_true rfl (hother (by simp))
    | replaced hattempts hgeneration =>
      rw [if_pos (hresets.2 (Or.inr hgeneration)), hattempts]
      exact iff_of_true rfl (hother (by simp))
    | drainedReplaced hreplace hattempts hgeneration =>
      -- the count starts again, the counter does not
      rw [if_pos (hresets.2 (Or.inr hgeneration)), hattempts, hcounted]
      constructor
      · intro h _
        omega
      · intro h
        rw [h ⟨hcommand, hreplace⟩]
    | drained hreplace hattempts hgeneration =>
      rw [if_neg (by rw [hresets]; simp [hcommand, hgeneration]), if_neg (by rw [hstarts]; simp [hcommand]),
        hattempts]
      refine iff_of_true hcounted fun hrenews ↦ ?_
      cases hreplace.symm.trans hrenews.2
    | kept hne hattempts hgeneration =>
      rw [if_neg (by rw [hresets]; simp [hcommand, hgeneration, hne]),
        if_neg (by rw [hstarts]; simp [hcommand, hne]), hattempts]
      exact iff_of_true hcounted (hother hne.2.2)

theorem counted_nil (id : JobId) (spec : JobSpec) : Counted id spec [] := rfl

/-- One more action, for a history counted right. -/
theorem counted_concat {id : JobId} {spec : JobSpec} {actions : List Action} (h : Counted id spec actions)
    (action : Action) : Counted id spec (actions ++ [action]) ↔
      (Renews ((new id spec).actAll actions) action → startsSince ((new id spec).passages actions) = 0) := by
  rw [Counted, passages_concat, actAll_concat]
  exact counted_act (inv_actAll id spec actions) action h

/-- **Attempts are counted as documented** throughout a history exactly if no replacement is drained while a Start
has been accepted since the last effective Resume or change of generation. -/
theorem attempts_counted_iff (id : JobId) (spec : JobSpec) (actions : List Action) :
    (∀ past, past <+: actions → Counted id spec past) ↔
      ∀ past action, past ++ [action] <+: actions → Renews ((new id spec).actAll past) action →
        startsSince ((new id spec).passages past) = 0 := by
  constructor
  · intro hcounted past action hpast
    exact (counted_concat (hcounted past ((List.prefix_append _ _).trans hpast)) action).1 (hcounted _ hpast)
  · intro hrenews past
    induction past using List.reverseRecOn with
    | nil => exact fun _ ↦ counted_nil id spec
    | append_singleton past action ih =>
      intro hpast
      exact (counted_concat (ih ((List.prefix_append _ _).trans hpast)) action).2 (hrenews past action hpast)

/-- A representation that changes during the first attempt: the job comes back under generation 2 with that attempt
still counted. -/
theorem not_counted : ¬Counted ⟨1, Nat.one_ne_zero⟩
    ⟨⟨1, Nat.one_ne_zero⟩, ⟨1, Nat.one_ne_zero⟩, none, .normal, 1, Nat.one_ne_zero, by decide⟩
    [.call (.handle .start), .call (.handle .representationChanged), .call (.handle .workersDrained)] := by
  decide +kernel

end Job

end Fhd
