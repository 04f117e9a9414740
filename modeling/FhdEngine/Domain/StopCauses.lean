import FhdEngine.Domain.Attempts
import FhdEngine.Library.Ranked

/-!
# How stop causes combine

Failures of several workers reach a job in any order while it stops. The first cause is stored, later ones are raised
into it, and a changed representation is both a cause and a flag. Whatever came, the target is the combination of
all causes by rank (`Gathers`), and a drain lands in the state of that target (`stop_causes_combine`).
-/

namespace Fhd

namespace StopTarget

/-! ### Raising respects the rank -/

theorem raise_of_rank_lt {a b : StopTarget} (h : a.rank < b.rank) : a.raise b = b := by
  unfold raise
  split
  next => exact absurd h (lt_irrefl 3)
  next => exact if_pos h

theorem raise_of_rank_gt {a b : StopTarget} (h : b.rank < a.rank) : a.raise b = a := by
  unfold raise
  split
  next => exact absurd h (lt_irrefl 3)
  next => exact if_neg h.le.not_gt

theorem raise_ranked : Ranked rank raise where
  rank_merge a b := by
    unfold raise
    split
    next => rfl
    next =>
      split
      next h => exact (max_eq_right h.le).symm
      next h => exact (max_eq_left (not_lt.1 h)).symm
  merge_of_lt := raise_of_rank_lt
  merge_of_gt := raise_of_rank_gt

/-- The tick of a retry. -/
def tick : StopTarget → ℕ
  | retryWait atTick => atTick
  | _ => 0

theorem eq_retryWait {target : StopTarget} (h : target.rank = 3) : target = .retryWait target.tick := by
  cases target <;> first | rfl | cases h

/-- Retries meet in the latest. -/
theorem tick_raise {a b : StopTarget} (ha : a.rank = 3) (hb : b.rank = 3) :
    (a.raise b).tick = max a.tick b.tick := by
  rw [eq_retryWait ha, eq_retryWait hb]
  rfl

/-- Between other causes of one rank the first stays. -/
theorem raise_of_rank_eq {a b : StopTarget} (ha : a.rank ≠ 3) (hrank : a.rank = b.rank) : a.raise b = a := by
  unfold raise
  split
  next => exact absurd rfl ha
  next => exact if_neg hrank.ge.not_gt

theorem raise_queued {a : StopTarget} (h : queued.rank ≤ a.rank) : a.raise queued = a := by
  rcases h.lt_or_eq with hlt | heq
  · exact raise_of_rank_gt hlt
  · exact raise_of_rank_eq (by rw [← heq]; simp [rank]) heq.symm

/-- **A target that combines causes**: of the greatest rank, at the latest retry, for the first reason. -/
structure Combines (causes : List StopTarget) (target : StopTarget) : Prop where
  rank_le : ∀ cause ∈ causes, cause.rank ≤ target.rank
  attained : ∃ cause ∈ causes, cause.rank = target.rank
  latest : ∀ atTick, target = .retryWait atTick →
    .retryWait atTick ∈ causes ∧ ∀ atTick', .retryWait atTick' ∈ causes → atTick' ≤ atTick
  first : ∀ reason, target = .needsAction reason ∨ target = .failed reason →
    causes.find? (fun cause ↦ cause.rank = target.rank) = some target

theorem combines_of_combine {causes : List StopTarget} {target : StopTarget}
    (h : combine raise causes = some target) : Combines causes target where
  rank_le := (raise_ranked.rank_combine h).1
  attained := (raise_ranked.rank_combine h).2
  latest := by
    rintro atTick rfl
    obtain ⟨hle, cause, hmem, hrank, htick⟩ := raise_ranked.measure_combine tick h fun _ _ ↦ tick_raise
    refine ⟨?_, fun atTick' hmem' ↦ hle _ hmem' rfl⟩
    rwa [← show cause = .retryWait atTick from (eq_retryWait hrank).trans (congrArg _ htick)]
  first := by
    intro reason htarget
    refine raise_ranked.find?_combine h fun a b ha hb ↦ raise_of_rank_eq ?_ (ha.trans hb.symm)
    rw [ha]
    rcases htarget with rfl | rfl <;> simp [rank]

/-- Concurrent causes have the same outcome, up to ties, in any order. -/
theorem Combines.rank_eq {causes causes' : List StopTarget} {target target' : StopTarget}
    (h : Combines causes target) (h' : Combines causes' target') (hperm : causes.Perm causes') :
    target.rank = target'.rank := by
  obtain ⟨cause, hmem, hrank⟩ := h.attained
  obtain ⟨cause', hmem', hrank'⟩ := h'.attained
  apply le_antisymm
  · rw [← hrank]
    exact h'.rank_le cause (hperm.mem_iff.1 hmem)
  · rw [← hrank']
    exact h.rank_le cause' (hperm.mem_iff.2 hmem')

end StopTarget

open StopTarget

namespace Job

variable {j next : Job} {command : JobCommand}

/-! ### What one command does to the target -/

/-- The cause a command is, also where it is the first. -/
def causeOf : JobCommand → Option StopTarget
  | .representationChanged => some .queued
  | .allSegmentsDurable => some .verifying
  | command => cause command

/-- The states in which causes are gathered. -/
def gathering : JobState → Bool
  | .probing | .transferring | .stopping => true
  | _ => false

theorem gathering_cases {state : JobState} (h : gathering state = true) :
    state = .probing ∨ state = .transferring ∨ state = .stopping := by
  cases state <;> first | (simp; done) | cases h

/-- The commands that leave the gathering of causes. -/
def leaves : JobCommand → Bool
  | .resume | .cancel | .workersDrained => true
  | _ => false

/-- The target with one more cause. -/
def withCause (stop : Option StopTarget) (cause : StopTarget) : StopTarget :=
  stop.elim cause fun current ↦ current.raise cause

/-- **What a command does while causes are gathered.** -/
inductive Gather (j : Job) (command : JobCommand) (next : Job) : Prop
  | none (hcause : causeOf command = none) (hstate : next.state = .transferring) (hfrom : j.state = .probing)
      (hstop : next.stop = j.stop) (hreplace : next.replaceOnDrain = j.replaceOnDrain)
      (hgeneration : next.generation = j.generation)
  | cause (cause : StopTarget) (hcause : causeOf command = some cause) (hstate : next.state = .stopping)
      (hstop : next.stop = some (withCause j.stop cause))
      (hreplace : next.replaceOnDrain = (j.replaceOnDrain || command = .representationChanged))
      (hgeneration : next.generation = j.generation)

/-- The target of a job to be replaced is at least to be queued. -/
def Raised (j : Job) : Prop := j.replaceOnDrain = true → ∀ target ∈ j.stop, StopTarget.queued.rank ≤ target.rank

theorem causeOf_of_cause {target : StopTarget} (h : cause command = some target) :
    causeOf command = some target ∧ command ≠ .representationChanged := by
  cases command <;> cases h <;> exact ⟨rfl, by simp⟩

theorem gather_raised {b : Bool} (hstate : j.state = .stopping) (h : raised j command = .ok (b, next)) :
    Gather j command next := by
  unfold raised at h
  split at h
  · cases h
  next target hcause =>
    obtain ⟨hcauseOf, hne⟩ := causeOf_of_cause hcause
    split at h
    · cases h
    next current hstop =>
      split at h
      next hsame =>
        cases h
        exact .cause target hcauseOf hstate (by rw [hstop, withCause, Option.elim_some, hsame]) (by simp [hne]) rfl
      next =>
        cases h
        exact .cause target hcauseOf rfl (by rw [hstop]; rfl) (by simp [hne]) rfl

theorem gather_beginStop {b : Bool} {target : StopTarget} {replace : Bool} (hstop : j.stop = none)
    (hcause : causeOf command = some target)
    (hreplace : replace = (j.replaceOnDrain || command = .representationChanged))
    (h : beginStop { j with replaceOnDrain := replace } target = .ok (b, next)) : Gather j command next := by
  cases h
  exact .cause target hcause rfl (by rw [hstop]; rfl) hreplace rfl

/-- **Step lemma.** -/
theorem execute_gather {b : Bool} (hj : j.Inv) (hraised : j.Raised) (hstate : gathering j.state)
    (hcommand : leaves command = false) (h : execute j command = .ok (b, next)) :
    Gather j command next := by
  have hnone : j.state ≠ .stopping → j.stop = none := fun hne ↦ by
    simpa using mt hj.stop_iff.1 hne
  cases command with
  | probeSucceeded total maxSegments validator =>
    rcases gathering_cases hstate with hs | hs | hs <;> simp only [execute, hs] at h
    case inl =>
      obtain ⟨validator', segments, rfl⟩ := probed_eq h
      exact .none rfl rfl hs rfl rfl rfl
    all_goals cases h
  | representationChanged =>
    rcases gathering_cases hstate with hs | hs | hs <;> simp only [execute, hs] at h
    case inr.inr =>
      obtain ⟨target, htarget⟩ := Option.isSome_iff_exists.1 (hj.stop_iff.2 hs)
      split at h
      next hreplace =>
        -- already to be replaced, and so at least to be queued
        cases h
        refine .cause .queued rfl hs ?_ (by simp [hreplace]) rfl
        rw [htarget, withCause, Option.elim_some, raise_queued (hraised hreplace target htarget)]
      next =>
        rw [htarget] at h
        cases h
        exact .cause .queued rfl rfl (by rw [htarget]; rfl) (by simp) rfl
    all_goals exact gather_beginStop (hnone (by simp [hs])) rfl (by simp) h
  | allSegmentsDurable =>
    rcases gathering_cases hstate with hs | hs | hs <;> simp only [execute, hs] at h
    case inr.inl =>
      split at h
      · cases h
      · exact gather_beginStop (hnone (by simp [hs])) rfl (by simp) h
    all_goals cases h
  | resume | cancel | workersDrained => cases hcommand
  | pause | preempt | retry | requireAction | fail =>
    rcases gathering_cases hstate with hs | hs | hs <;> simp only [execute, hs] at h
    case inr.inr => exact gather_raised hs h
    all_goals exact gather_beginStop (hnone (by simp [hs])) rfl (by simp) h
  | _ =>
    rcases gathering_cases hstate with hs | hs | hs <;> simp only [execute, hs] at h <;> cases h

/-! ### Histories -/

/-- The command an action asks for. -/
def Action.asks : Action → Option JobCommand
  | .call (.handle command) => some command
  | .call (.apply event) => some event.command
  | _ => none

/-- The command an action has had accepted, with an event or as a no-op. -/
def taken (j : Job) : Action → Option JobCommand
  | .call (.handle command) =>
    match (j.handle command).1 with
    | .ok _ => some command
    | .error _ => none
  | .call (.apply event) =>
    match (j.apply event).1 with
    | .ok _ => some event.command
    | .error _ => none
  | _ => none

/-- The causes of a history, in the order in which they came. -/
def causes (history : List Passage) : List StopTarget :=
  history.filterMap fun p ↦ (p.before.taken p.action).bind causeOf

/-- The representation changed in a history. -/
def changed (history : List Passage) : Bool :=
  history.any fun p ↦ p.before.taken p.action = some .representationChanged

theorem causes_concat (history : List Passage) (p : Passage) :
    causes (history ++ [p]) = causes history ++ ((p.before.taken p.action).bind causeOf).toList := by
  rw [causes, List.filterMap_append]
  cases h : (p.before.taken p.action).bind causeOf <;> simp [h, causes]

theorem changed_concat (history : List Passage) (p : Passage) :
    changed (history ++ [p]) = (changed history || p.before.taken p.action = some .representationChanged) := by
  simp [changed]

theorem queued_mem_causes {history : List Passage} (h : changed history = true) :
    .queued ∈ causes history := by
  obtain ⟨p, hp, htaken⟩ := List.any_eq_true.1 h
  refine List.mem_filterMap.2 ⟨p, hp, ?_⟩
  rw [of_decide_eq_true htaken]
  rfl

/-- An action that has no command accepted changes the segments at most. -/
theorem act_of_taken_none (hj : j.Inv) {action : Action} (h : j.taken action = none) :
    ∃ segments, j.act action = { j with segments } := by
  cases action with
  | restart => exact (restart_eq hj).2
  | call op =>
    refine perform_of_effected_none ?_
    cases op with
    | handle command =>
      cases hanswer : (j.handle command).1 with
      | ok events => simp [taken, hanswer] at h
      | error e => simp [effected, hanswer]
    | apply event =>
      cases hanswer : (j.apply event).1 with
      | ok _ => simp [taken, hanswer] at h
      | error e => simp [effected, hanswer]
    | _ => rfl

/-- **An accepted command** is executed. -/
theorem act_of_taken {action : Action} (h : j.taken action = some command) :
    action.asks = some command ∧
      ∃ b next version, execute j command = .ok (b, next) ∧ j.act action = { next with version } := by
  cases action with
  | restart => cases h
  | call op =>
    cases op with
    | handle command' =>
      rcases j.handle_cases command' with ⟨e, he, -⟩ | ⟨he, hexec⟩ | ⟨next, event, hexec, he⟩
      · simp [taken, he] at h
      · simp only [taken, he, Option.some.injEq] at h
        subst h
        exact ⟨rfl, false, j, j.version, hexec, congrArg Prod.snd he⟩
      · simp only [taken, he, Option.some.injEq] at h
        subst h
        exact ⟨rfl, true, next, _, hexec, congrArg Prod.snd he⟩
    | apply event =>
      rcases j.apply_cases event with ⟨e, he⟩ | ⟨next, -, -, -, -, hexec, -, -, he⟩
      · simp [taken, he] at h
      · simp only [taken, he, Option.some.injEq] at h
        subst h
        exact ⟨rfl, true, next, _, hexec, congrArg Prod.snd he⟩
    | _ => cases h

/-- **A job that gathers causes** has their combination as its target. -/
structure Gathers (generation : Generation) (history : List Passage) (j : Job) : Prop where
  state : gathering j.state = true
  generation_eq : j.generation = generation
  stop : j.stop = combine raise (causes history)
  replace : j.replaceOnDrain = changed history

variable {generation : Generation} {history : List Passage}

theorem Gathers.raised (h : Gathers generation history j) : j.Raised := by
  intro hreplace target htarget
  rw [h.stop, Option.mem_def] at htarget
  rw [h.replace] at hreplace
  exact (combines_of_combine htarget).rank_le _ (queued_mem_causes hreplace)

/-- A job that has just begun to run has gathered nothing. -/
theorem gathers_nil (hj : j.Inv) (hstate : j.state = .probing ∨ j.state = .transferring) :
    Gathers j.generation [] j where
  state := by rcases hstate with hs | hs <;> rw [hs] <;> rfl
  generation_eq := rfl
  stop := by
    have hne : j.state ≠ .stopping := by rcases hstate with hs | hs <;> simp [hs]
    show j.stop = none
    simpa using mt hj.stop_iff.1 hne
  replace := by
    have hne : j.state ≠ .stopping := by rcases hstate with hs | hs <;> simp [hs]
    show j.replaceOnDrain = false
    simpa using mt hj.replace hne

/-- **Step lemma** for actions. -/
theorem Gathers.act (hj : j.Inv) (h : Gathers generation history j) {action : Action}
    (haction : ∀ command ∈ action.asks, leaves command = false) :
    Gathers generation (history ++ [⟨j, action⟩]) (j.act action) := by
  cases htaken : j.taken action with
  | none =>
    obtain ⟨segments, heq⟩ := act_of_taken_none hj htaken
    rw [heq]
    refine ⟨h.state, h.generation_eq, ?_, ?_⟩
    · rw [causes_concat, htaken]
      simpa using h.stop
    · rw [changed_concat, htaken]
      simpa using h.replace
  | some command =>
    obtain ⟨hcommand, b, next, version, hexec, heq⟩ := act_of_taken htaken
    rw [heq]
    cases execute_gather hj h.raised h.state (haction command hcommand) hexec with
    | none hcause hstate _ hstop hreplace hgeneration =>
      refine ⟨by rw [hstate]; rfl, hgeneration.trans h.generation_eq, ?_, ?_⟩
      · rw [causes_concat, htaken]
        simpa [hcause, hstop] using h.stop
      · have hne : command ≠ .representationChanged := by
          rintro rfl
          cases hcause
        rw [changed_concat, htaken]
        simpa [hne, hreplace] using h.replace
    | cause cause hcause hstate hstop hreplace hgeneration =>
      refine ⟨by rw [hstate]; rfl, hgeneration.trans h.generation_eq, ?_, ?_⟩
      · rw [causes_concat, htaken, Option.bind_some, hcause, Option.toList_some, combine_concat, ← h.stop]
        exact hstop
      · rw [changed_concat, htaken, ← h.replace]
        simpa using hreplace

/-- **Run lemma.** -/
theorem gathers_actAll (hj : j.Inv) (hstate : j.state = .probing ∨ j.state = .transferring) {actions : List Action}
    (hactions : ∀ action ∈ actions, ∀ command ∈ action.asks, leaves command = false) :
    Gathers j.generation (j.passages actions) (j.actAll actions) ∧ (j.actAll actions).Inv := by
  induction actions using List.reverseRecOn with
  | nil => exact ⟨gathers_nil hj hstate, hj⟩
  | append_singleton actions action ih =>
    obtain ⟨hgathers, hinv⟩ := ih fun a ha ↦ hactions a (List.mem_append_left _ ha)
    rw [passages_concat, actAll_concat]
    exact ⟨hgathers.act hinv (hactions action (by simp)), hinv.act action⟩

/-! ### The drain -/

/-- The state of a target; only a whole file goes on to be verified. -/
def landing (durable : Bool) : StopTarget → JobState
  | .verifying => if durable then .verifying else .paused
  | .queued => .queued
  | .paused => .paused
  | .retryWait _ => .retryWait
  | .needsAction _ => .needsAction
  | .failed _ => .failed

/-- **A job that lands** in the state of a target. -/
structure Lands (j : Job) (target : StopTarget) (after : Job) : Prop where
  state : after.state = landing j.allDurable target
  retryAt : ∀ atTick, target = .retryWait atTick → after.retryAt = some atTick
  reason : ∀ reason, target = .needsAction reason ∨ target = .failed reason → after.reason = some reason
  generation : after.generation.get = j.generation.get + if j.replaceOnDrain then 1 else 0

theorem land_state (j : Job) (target : StopTarget) : (land j target).state = landing j.allDurable target := by
  cases target with
  | verifying =>
    rw [land, landing]
    split <;> rfl
  | _ => rfl

theorem lands_of_drained {target : StopTarget} {b : Bool} (hstop : j.stop = some target) (hraised : j.Raised)
    (h : drained j = .ok (b, next)) : Lands j target next := by
  unfold drained at h
  split at h
  · cases h
  rw [hstop] at h
  dsimp only at h
  split at h
  next hreplace =>
    split at h
    · cases h
    next hnext =>
      cases h
      refine ⟨?_, ?_, ?_, ?_⟩
      · -- a job to be replaced does not go on to be verified
        have hle := hraised hreplace target hstop
        rw [land_state]
        cases target with
        | verifying => exact absurd hle (by decide)
        | _ => rfl
      · rintro atTick rfl
        rfl
      · rintro reason (rfl | rfl) <;> rfl
      · rw [counts_land.2, if_pos hreplace]
        exact Generation.get_of_next hnext
  next hreplace =>
    cases h
    refine ⟨land_state _ _, ?_, ?_, ?_⟩
    · rintro atTick rfl
      rfl
    · rintro reason (rfl | rfl) <;> rfl
    · rw [counts_land.2, if_neg hreplace]
      rfl

/-- **An accepted drain** lands in the state of the target. -/
theorem lands_of_accepted (hj : j.Inv) (hstate : gathering j.state = true) (hraised : j.Raised) {drain : Action}
    (hdrain : j.accepted drain = some .workersDrained) :
    ∃ target, j.stop = some target ∧ Lands j target (j.act drain) := by
  cases drain with
  | restart => cases hdrain
  | call op =>
    obtain ⟨next, version, hexec, heq⟩ := perform_of_effected hdrain
    rw [show j.act (.call op) = _ from heq]
    rcases gathering_cases hstate with hs | hs | hs <;> simp only [execute, hs] at hexec
    case inr.inr =>
      obtain ⟨target, htarget⟩ := Option.isSome_iff_exists.1 (hj.stop_iff.2 hs)
      have hlands := lands_of_drained htarget hraised hexec
      exact ⟨target, htarget, hlands.state, hlands.retryAt, hlands.reason, hlands.generation⟩
    all_goals cases hexec

/-! ### Nothing is refused -/

/-- A cause other than the end of the transfer is accepted wherever causes are gathered. -/
theorem execute_cause (hj : j.Inv) (hstate : gathering j.state = true) (hcause : (causeOf command).isSome)
    (hdurable : command ≠ .allSegmentsDurable) : ∃ b next, execute j command = .ok (b, next) := by
  have hraised : ∀ {target}, cause command = some target → j.state = .stopping →
      ∃ b next, raised j command = .ok (b, next) := by
    intro target htarget hs
    obtain ⟨current, hcurrent⟩ := Option.isSome_iff_exists.1 (hj.stop_iff.2 hs)
    unfold raised
    rw [htarget, hcurrent]
    dsimp only
    split
    · exact ⟨_, _, rfl⟩
    · exact ⟨_, _, rfl⟩
  cases command with
  | representationChanged =>
    rcases gathering_cases hstate with hs | hs | hs <;> simp only [execute, hs]
    case inr.inr =>
      obtain ⟨current, hcurrent⟩ := Option.isSome_iff_exists.1 (hj.stop_iff.2 hs)
      rw [hcurrent]
      split
      · exact ⟨_, _, rfl⟩
      · exact ⟨_, _, rfl⟩
    all_goals exact ⟨_, _, rfl⟩
  | pause | preempt | retry | requireAction | fail =>
    rcases gathering_cases hstate with hs | hs | hs <;> simp only [execute, hs]
    case inr.inr => exact hraised rfl hs
    all_goals exact ⟨_, _, rfl⟩
  | allSegmentsDurable => exact absurd rfl hdurable
  | _ => cases hcause

/-- As long as the version can grow, no cause is lost. -/
theorem taken_handle (hj : j.Inv) (hstate : gathering j.state = true) (hcause : (causeOf command).isSome)
    (hdurable : command ≠ .allSegmentsDurable) (hversion : j.version < u64Max) :
    j.taken (.call (.handle command)) = some command := by
  obtain ⟨b, next, hexec⟩ := execute_cause hj hstate hcause hdurable
  rcases j.handle_cases command with ⟨e, -, hrefused⟩ | ⟨he, -⟩ | ⟨next, event, -, he⟩
  · rcases hrefused with herror | hversion'
    · cases hexec.symm.trans herror
    · exact absurd hversion' (by simp [checkedAdd]; omega)
  · simp [taken, he]
  · simp [taken, he]

/-- **Stop causes combine in any order.** A reachable job that probes or transfers is taken through any actions but
those that ask for Resume, Cancel or WorkersDrained. Its target combines all causes it has taken, it is to be
replaced exactly if the representation changed, and WorkersDrained, once accepted, lands in the state of the target. -/
theorem stop_causes_combine (id : JobId) (spec : JobSpec) (past actions : List Action)
    (hstate : ((new id spec).actAll past).state = .probing ∨ ((new id spec).actAll past).state = .transferring)
    (hactions : ∀ action ∈ actions, ∀ command ∈ action.asks, leaves command = false) :
    let start := (new id spec).actAll past
    let j := start.actAll actions
    let history := start.passages actions
    (j.stop = none ↔ causes history = []) ∧
    (∀ target, j.stop = some target → Combines (causes history) target) ∧
    j.generation = start.generation ∧ j.replaceOnDrain = changed history ∧
    (∀ command, (causeOf command).isSome → command ≠ .allSegmentsDurable → j.version < u64Max →
      j.taken (.call (.handle command)) = some command) ∧
    ∀ drain, j.accepted drain = some .workersDrained → ∃ target, j.stop = some target ∧
      Lands j target (j.act drain) := by
  intro start j history
  obtain ⟨hgathers, hinv⟩ := gathers_actAll (inv_actAll id spec past) hstate hactions
  refine ⟨?_, ?_, hgathers.generation_eq, hgathers.replace, ?_, ?_⟩
  · rw [hgathers.stop]
    exact combine_eq_none
  · intro target htarget
    exact combines_of_combine (hgathers.stop.symm.trans htarget)
  · intro command hcause hdurable hversion
    exact taken_handle hinv hgathers.state hcause hdurable hversion
  · intro drain hdrain
    exact lands_of_accepted hinv hgathers.state hgathers.raised hdrain

/-- Two retries, a changed representation and two failures. -/
theorem stop_causes_combine_failures :
    Combines [.retryWait 70, .retryWait 50, .queued, .failed .network, .failed .policy] (.failed .network) := by
  let start := (new ⟨1, Nat.one_ne_zero⟩
    ⟨⟨1, Nat.one_ne_zero⟩, ⟨1, Nat.one_ne_zero⟩, none, .normal, 1, Nat.one_ne_zero, by decide⟩)
  let actions : List Action := [.call (.handle (.retry 70)), .call (.handle (.retry 50)),
    .call (.handle .representationChanged), .call (.handle (.fail .network)), .call (.handle (.fail .policy))]
  have hcauses : causes ((start.actAll [.call (.handle .start)]).passages actions) =
      [.retryWait 70, .retryWait 50, .queued, .failed .network, .failed .policy] := by
    decide +kernel
  rw [← hcauses]
  exact (stop_causes_combine _ _ [.call (.handle .start)] actions (by decide +kernel) (by decide +kernel)).2.1 _
    (by decide +kernel)

end Job

end Fhd
