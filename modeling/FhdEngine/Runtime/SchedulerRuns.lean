import FhdEngine.Runtime.SchedulerSteps

/-!
# Whole runs of the scheduler

A turn keeps `Sound` until the run returns, and the run returns from a sound loop without sessions.
`Past.turn` adds up what the turns of a run did, so that every fact about a run, however long, is a fact
about its last loop and its past.
-/

namespace Fhd

namespace Loop

variable {S : Scheduler} {W : Watch S} {P : Past} {s : Loop}

/-! ### One turn -/

/-- The loop at the select, in a turn that comes to it. -/
def atSelect (S : Scheduler) (s : Loop) (t : Turn) : Option Loop :=
  if s.outcomes.isSome then none
  else
    let s := s.prepare S t
    if s.finished S then none
    else
      let s := s.asides t.checking
      if s.stranded S (s.nextDeadline t.deadlineNow) then none else some (s.asides t.selecting)

/-- The job a turn is handed. -/
def turnArrival (S : Scheduler) (s : Loop) (t : Turn) : Option Job :=
  (s.atSelect S t).bind (·.arrival t.event)

/-- The sessions a turn starts. -/
def turnStarts (S : Scheduler) (s : Loop) (t : Turn) : Multiset JobId :=
  if s.outcomes.isSome then 0 else s.started S t

/-- The job that comes back queued anew in a turn. -/
def turnRenewal (S : Scheduler) (s : Loop) (t : Turn) : Multiset JobId :=
  ((s.atSelect S t).map (·.renewal t.event)).getD 0

/-- The past after a turn. -/
def turnPast (S : Scheduler) (s : Loop) (P : Past) (t : Turn) : Past where
  given := ↑((s.turnArrival S t).map (·.id)).toList + P.given
  begun := s.turnStarts S t + P.begun
  renewed := s.turnRenewal S t + P.renewed

/-- **Where a run stands**: the loop is sound, or it was when the run returned. -/
def Standing (W : Watch S) (P : Past) (s : Loop) : Prop :=
  ∃ s₀, Sound W P 0 [] s₀ ∧ (s = s₀ ∨ s₀.sessions = [] ∧ s = s₀.conclude)

theorem Standing.turn (h : Standing W P s) (t : Turn)
    (hallowed : ∀ s', s.atSelect S t = some s' →
      s'.Allowed W { P with begun := s.turnStarts S t + P.begun } t.event) :
    Standing W (s.turnPast S P t) (s.turn S t) := by
  by_cases hover : s.outcomes.isSome = true
  · have hsame : s.turnPast S P t = P := by
      simp [turnPast, turnArrival, turnStarts, turnRenewal, atSelect, hover]
    rw [hsame, Loop.turn, if_pos hover]
    exact h
  obtain ⟨s₀, hs₀, rfl | ⟨-, rfl⟩⟩ := h
  swap
  · exact absurd rfl hover
  have hs := hs₀.prepare t
  have hstarts : s.turnStarts S t = s.started S t := if_neg hover
  rw [← hstarts] at hs
  -- a turn that ends the run leaves the past with what it started
  have hend : s.atSelect S t = none → s.turnPast S P t =
      { P with begun := s.turnStarts S t + P.begun } := by
    intro hnone
    simp [turnPast, turnArrival, turnRenewal, hnone]
  have hlast : ∀ {s' : Loop}, s.atSelect S t = none →
      Sound W { P with begun := s.turnStarts S t + P.begun } 0 [] s' → s'.sessions.isEmpty = true →
      Standing W (s.turnPast S P t) s'.conclude := by
    intro s' hnone hs' hempty
    rw [hend hnone]
    exact ⟨s', hs', Or.inr ⟨List.isEmpty_iff.1 hempty, rfl⟩⟩
  rw [Loop.turn, if_neg hover]
  dsimp only
  split
  next hfinished =>
    refine hlast ?_ hs ?_
    · simp [atSelect, hover, hfinished]
    · rw [finished, Bool.and_eq_true] at hfinished
      exact hfinished.1
  next hfinished =>
    have hcheck := hs.asides t.checking
    split
    next hstranded =>
      refine hlast ?_ hcheck ?_
      · simp [atSelect, hover, hfinished, hstranded]
      · rw [stranded, Bool.and_eq_true, Bool.and_eq_true] at hstranded
        exact hstranded.1.1
    next hstranded =>
      have hat : s.atSelect S t = some (((s.prepare S t).asides t.checking).asides t.selecting) := by
        simp [atSelect, hover, hfinished, hstranded]
      have hselect := (hcheck.asides t.selecting).select (hallowed _ hat)
      refine ⟨_, ?_, Or.inl rfl⟩
      have hpast : s.turnPast S P t = (((s.prepare S t).asides t.checking).asides t.selecting).after
          { P with begun := s.turnStarts S t + P.begun } t.event := by
        simp [turnPast, turnArrival, turnRenewal, hat, after]
      rw [hpast]
      exact hselect

/-! ### The intake -/

theorem Sound.start {governor : OriginGovernor} (hlimits : governor.limits = W.limits)
    (hgovernor : ∀ origin, governor.inFlight origin = 0) :
    Sound W ⟨0, 0, 0⟩ 0 [] (Loop.start governor) where
  books := ⟨rfl, Nat.zero_le _, Nat.zero_le _, fun _ h ↦ absurd h List.not_mem_nil, hgovernor⟩
  limits := hlimits
  staff := ⟨List.nodup_nil, fun _ h ↦ absurd h List.not_mem_nil, List.Perm.nil,
    fun _ h ↦ absurd h List.not_mem_nil⟩
  task := fun _ h ↦ absurd h List.not_mem_nil
  deferred := fun _ h ↦ absurd h List.not_mem_nil
  inHand := fun _ h ↦ absurd h List.not_mem_nil
  ready := fun _ h ↦ absurd h List.not_mem_nil
  waiting := fun _ h ↦ absurd h List.not_mem_nil
  nodup := Multiset.nodup_zero
  given := rfl
  begun := fun _ h ↦ absurd h (Multiset.notMem_zero _)
  once := fun _ _ ↦ Nat.zero_le _
  bound := fun _ _ ↦ Nat.zero_le _
  answered := fun _ h ↦ absurd h List.not_mem_nil
  rested := fun _ h ↦ absurd h List.not_mem_nil
  running := rfl

theorem mem_live_take {e : Entry} {id : JobId} (h : id ∈ (s.take e).live []) :
    id = e.job.id ∨ id ∈ s.live [] := by
  rw [mem_live] at h ⊢
  unfold Loop.take at h
  split at h <;> simp only [List.mem_append, List.mem_singleton] at h <;> grind

/-- **The intake** takes every identity once, and answers for the rest. -/
theorem Sound.intake {seen : List JobId} {jobs : List (Job × Answers × OriginId)}
    (h : Sound W P 0 [] s) (hseen : ∀ id ∈ s.live [], id ∈ seen) (hinv : ∀ j ∈ jobs, j.1.Inv)
    (honce : ∀ id, W.spared id → P.given.count id + (jobs.map (·.1.id)).count id ≤ 1)
    (hknow : ∀ j ∈ jobs, W.spared j.1.id → ∀ job, settle j.2.1 j.1 = .ok job →
      W.know 0 (P.renewed.count j.1.id) job) :
    Sound W { P with given := ↑(jobs.map (·.1.id)) + P.given } 0 [] (s.intake seen jobs) := by
  induction jobs generalizing s P seen with
  | nil => simpa [Loop.intake] using h
  | cons j jobs ih =>
    obtain ⟨job, answers, origin⟩ := j
    have hgiven : (↑(((job, answers, origin) :: jobs).map (·.1.id)) + P.given : Multiset JobId) =
        ↑(jobs.map (·.1.id)) + (job.id ::ₘ P.given) := by
      simp only [List.map_cons, ← Multiset.cons_coe, ← Multiset.singleton_add]
      abel
    rw [hgiven]
    have hfresh : W.spared job.id → job.id ∉ P.given := fun hspared hmem ↦ by
      have := honce job.id hspared
      have := Multiset.one_le_count_iff_mem.2 hmem
      simp only [List.map_cons, List.count_cons_self] at *
      omega
    have hrest : ∀ id, W.spared id →
        (job.id ::ₘ P.given).count id + (jobs.map (·.1.id)).count id ≤ 1 := by
      intro id hspared
      have hcount := honce id hspared
      rw [List.map_cons] at hcount
      by_cases heq : id = job.id
      · subst heq
        rw [List.count_cons_self] at hcount
        rw [Multiset.count_cons_self]
        omega
      · rw [List.count_cons_of_ne (Ne.symm heq)] at hcount
        rwa [Multiset.count_cons_of_ne heq]
    have hg := h.give hfresh
    have hinv' : ∀ j ∈ jobs, j.1.Inv := fun j hj ↦ hinv j (List.mem_cons_of_mem _ hj)
    have hknow' : ∀ j ∈ jobs, W.spared j.1.id → ∀ job, settle j.2.1 j.1 = .ok job →
        W.know 0 (P.renewed.count j.1.id) job := fun j hj ↦ hknow j (List.mem_cons_of_mem _ hj)
    have hmore : ∀ {id}, id ∈ s.live [] → id ∈ job.id :: seen :=
      fun hid ↦ List.mem_cons_of_mem _ (hseen _ hid)
    unfold Loop.intake
    split
    · exact ih (P := { P with given := job.id ::ₘ P.given }) (hg.push ⟨nofun, nofun⟩) hseen hinv' hrest
        hknow'
    next hnew =>
      have hsame := settle_same job answers
      split
      next settled hsettled =>
        rw [hsettled] at hsame
        have hup : Sound W { P with given := job.id ::ₘ P.given } 0 [⟨settled, origin⟩] s := by
          rw [← hsame.1] at hg hnew hfresh ⊢
          refine Sound.take_up (e := ⟨settled, origin⟩) hg (fun hlive ↦ hnew (hseen _ hlive))
            ⟨hsame.2 (hinv _ List.mem_cons_self), fun hspared ↦ ?_⟩
          rw [show Multiset.count settled.id P.begun = 0 from h.count_begun (hfresh hspared)]
          have := hknow _ List.mem_cons_self (by rwa [hsame.1] at hspared) settled hsettled
          rwa [← hsame.1] at this
        refine ih (P := { P with given := job.id ::ₘ P.given }) (hup.take fun hspared hbegun ↦ ?_)
          (fun id hid ↦ ?_) hinv' hrest hknow'
        · rw [hsame.1] at hspared hbegun
          exact absurd (h.begun _ hbegun) (hfresh hspared)
        · rcases mem_live_take hid with rfl | hid
          · rw [hsame.1]
            exact List.mem_cons_self
          · exact hmore hid
      next error herror =>
        rw [herror] at hsame
        exact ih (P := { P with given := job.id ::ₘ P.given }) (hg.push hsame) (fun _ ↦ hmore) hinv'
          hrest hknow'

/-! ### Runs -/

/-- The past after some turns. -/
def runPast (S : Scheduler) : Loop → Past → List Turn → Past
  | _, P, [] => P
  | s, P, t :: turns => runPast S (s.turn S t) (s.turnPast S P t) turns

/-- Every event of these turns is allowed. -/
def AllAllowed (W : Watch S) : Loop → Past → List Turn → Prop
  | _, _, [] => True
  | s, P, t :: turns =>
    (∀ s', s.atSelect S t = some s' →
      s'.Allowed W { P with begun := s.turnStarts S t + P.begun } t.event) ∧
    AllAllowed W (s.turn S t) (s.turnPast S P t) turns

/-- **Run lemma**: the scheduler stands well after any number of turns. -/
theorem Standing.run {turns : List Turn} (h : Standing W P s) (hallowed : AllAllowed W s P turns) :
    Standing W (runPast S s P turns) (turns.foldl (Loop.turn S) s) := by
  induction turns generalizing s P with
  | nil => exact h
  | cons t turns ih => exact ih (h.turn t hallowed.1) hallowed.2

/-- **What can be read off the scheduler at any point of an iteration.** -/
structure InOrder (S : Scheduler) (s : Loop) : Prop where
  books : s.Accounted S
  sessions_le : s.sessions.length ≤ S.config.maxActive
  tasks : (s.sessions.map (·.id)).Perm s.active.keys
  ids : (s.sessions.map (·.id)).Nodup
  live : s.liveIds.Nodup
  sessionErrors : ∀ t ∈ s.sessions, ∀ job e, t.session = some (.done (job, .error e)) → e.Ordinary
  outcomeErrors : ∀ o ∈ s.done, ∀ e, o.result = some (.error e) → e.Ordinary

theorem live_nil (s : Loop) : s.live [] = ↑s.liveIds := by
  simp [live, liveIds]

theorem Sound.inOrder (h : Sound W P 0 [] s) : InOrder S s := by
  have htasks : (s.sessions.map (·.id)).Perm s.active.keys := by
    have hperm := h.staff.tasks.map Prod.snd
    simpa [roster, AList.keys, List.keys, Function.comp_def] using hperm
  have hlength := htasks.length_eq
  rw [List.length_map, AList.keys, List.keys, List.length_map] at hlength
  exact {
    books := h.books
    sessions_le := by
      rw [hlength]
      exact h.books.active_le
    tasks := htasks
    ids := htasks.nodup_iff.2 s.active.keys_nodup
    live := by
      have hnodup := h.nodup
      rwa [live_nil, Multiset.coe_nodup] at hnodup
    sessionErrors := fun t ht job e hsession ↦ ((h.task t ht).session _ hsession).2
    outcomeErrors := h.answered }

theorem InOrder.conclude (h : InOrder S s) : InOrder S s.conclude :=
  { h with books := { h.books with } }

theorem Standing.inOrder (h : Standing W P s) : InOrder S s := by
  obtain ⟨s₀, hs₀, rfl | ⟨-, rfl⟩⟩ := h
  · exact hs₀.inOrder
  · exact hs₀.inOrder.conclude

/-- A run that has not returned stands on a sound loop. -/
theorem Standing.sound (h : Standing W P s) (hrunning : s.outcomes = none) : Sound W P 0 [] s := by
  obtain ⟨s₀, hs₀, rfl | ⟨-, rfl⟩⟩ := h
  · exact hs₀
  · cases hrunning

/-- The loop at the select is sound too. -/
theorem Sound.atSelect {s' : Loop} {t : Turn} (h : Sound W P 0 [] s) (hat : s.atSelect S t = some s') :
    Sound W { P with begun := s.started S t + P.begun } 0 [] s' := by
  unfold Loop.atSelect at hat
  split at hat
  · cases hat
  · dsimp only at hat
    split at hat
    · cases hat
    · split at hat
      · cases hat
      · cases hat
        exact ((h.prepare t).asides _).asides _

/-! ### What a run returns -/

theorem map_id_fill (last : AList fun _ : JobId ↦ SessionEnd) (l : List Outcome) :
    (fill last l).map (·.id) = l.map (·.id) := by
  induction l generalizing last with
  | nil => rfl
  | cons o l ih =>
    unfold fill
    split <;> simp [ih]

/-- Without sessions nothing is active. -/
theorem Sound.active_of_nil (h : Sound W P 0 [] s) (hnil : s.sessions = []) : s.active.entries = [] := by
  have hperm := h.staff.tasks
  rw [roster, hnil, List.map_nil] at hperm
  exact List.map_eq_nil_iff.1 hperm.symm.eq_nil

/-- **Every job a run was given comes back exactly once**, and nothing is outstanding. -/
theorem Standing.returned {l : List Outcome} (h : Standing W P s) (hl : s.outcomes = some l) :
    (↑(l.map (·.id)) : Multiset JobId) = P.given ∧ s.used = 0 ∧ s.active.entries = [] ∧
      ∀ origin, s.governor.inFlight origin = 0 := by
  obtain ⟨s₀, hs₀, rfl | ⟨hnil, rfl⟩⟩ := h
  · rw [hs₀.running] at hl
    cases hl
  have hactive := hs₀.active_of_nil hnil
  refine ⟨?_, ?_, hactive, fun origin ↦ ?_⟩
  · cases hl
    have hperm := (List.mergeSort_perm
      (fill s₀.last (s₀.done ++ (s₀.ready ++ s₀.waiting).map fun entry ↦ .settled entry.job))
      fun a b ↦ a.id.get ≤ b.id.get).map (·.id)
    rw [Multiset.coe_eq_coe.2 hperm, map_id_fill, ← hs₀.given, live_nil, liveIds, AList.keys, hactive]
    simp [Outcome.settled, Function.comp_def]
  · show s₀.used = 0
    rw [hs₀.books.used_eq, granted, total, hactive]
    rfl
  · show s₀.governor.inFlight origin = 0
    rw [hs₀.books.inFlight, grantedTo, total, hactive]
    rfl

/-! ### What an iteration leaves queued -/

/-- A job that is still waiting after a promotion has its deadline ahead. -/
theorem mem_waiting_promoteAll {now : ℕ} {answers : ℕ → Answers} {l : List Entry} {e : Entry}
    (hl : ∀ e ∈ l, e.job.state = .retryWait) (he : e ∈ (s.promoteAll now answers l).waiting) :
    e ∈ s.waiting ∨ ahead now e = true := by
  induction l generalizing s answers with
  | nil => exact Or.inl he
  | cons d l ih =>
    have hrest : ∀ e ∈ l, e.job.state = .retryWait := fun e he ↦ hl e (List.mem_cons_of_mem _ he)
    unfold Loop.promoteAll at he
    refine (ih hrest he).elim (fun hmem ↦ ?_) Or.inr
    split at hmem
    next hahead =>
      rcases List.mem_append.1 hmem with hmem | hmem
      · exact Or.inl hmem
      · rw [List.mem_singleton.1 hmem]
        exact Or.inr hahead
    · left
      cases heval : (Coordinator.command d.job (.retryDue now)).eval (answers 0) with
      | error e => rwa [heval] at hmem
      | ok job =>
        obtain ⟨version, rfl⟩ := retryDue_eval (hl d List.mem_cons_self) heval
        rwa [heval] at hmem

/-- Without sessions nothing happens by itself. -/
theorem asides_of_nil (h : s.sessions = []) (l : List Aside) : s.asides l = s := by
  induction l with
  | nil => rfl
  | cons a l ih =>
    have hsame : s.aside a = s := by
      cases a with
      | answer task give => simp [Loop.aside, h]
      | panic task => simp [Loop.aside, h]
    rwa [asides, List.foldl_cons, hsame]

/-- Admission removes no session. -/
theorem sessions_admitAll {now : ℕ} {meanwhile : ℕ → List Aside} {skipped l : List Entry}
    (h : (Loop.admitAll S now s meanwhile skipped l).sessions = []) : s.sessions = [] := by
  have hsetTask : ∀ {s : Loop} {t : Task}, (s.setTask t).sessions = [] → s.sessions = [] :=
    fun hnil ↦ List.map_eq_nil_iff.1 hnil
  have haside : ∀ {s : Loop} {a : Aside}, (s.aside a).sessions = [] → s.sessions = [] := by
    intro s a hnil
    cases a with
    | answer task give =>
      rw [Loop.aside] at hnil
      split at hnil
      · split at hnil
        · split at hnil
          · exact hnil
          · split at hnil
            · exact hnil
            · exact hsetTask hnil
        · exact hnil
      · exact hnil
    | panic task =>
      rw [Loop.aside] at hnil
      split at hnil
      · split at hnil
        · exact hsetTask hnil
        · exact hnil
      · exact hnil
  have hasides : ∀ {l : List Aside} {s : Loop}, (s.asides l).sessions = [] → s.sessions = [] := by
    intro l
    induction l with
    | nil => exact id
    | cons a l ih => exact fun hnil ↦ haside (ih hnil)
  induction l generalizing s meanwhile skipped with
  | nil => exact h
  | cons e l ih =>
    unfold Loop.admitAll at h
    split at h
    · exact h
    · dsimp only at h
      split at h
      · have hrest := ih h
        exact hasides hrest
      · exact absurd (ih h) (by simp [Loop.spawn])

/-- **What is left ready when nothing was started** stands down. -/
theorem admitAll_of_nil {now : ℕ} {meanwhile : ℕ → List Aside} {skipped l : List Entry}
    (hlimits : 1 ≤ s.governor.limits.connections) (hfree : ∀ o, s.governor.inFlight o = 0)
    (hactive : s.active.entries = []) (hused : s.used = 0)
    (h : (Loop.admitAll S now s meanwhile skipped l).sessions = []) :
    (Loop.admitAll S now s meanwhile skipped l).waiting = s.waiting ∧
      (Loop.admitAll S now s meanwhile skipped l).ready = skipped ++ l ∧
      (∀ o, (Loop.admitAll S now s meanwhile skipped l).governor.account o = s.governor.account o) ∧
      ∀ e ∈ l, now < (s.governor.account e.origin).readyAt := by
  have hconfig := S.config_valid
  simp only [SchedulerConfig.valid, decide_eq_true_eq] at hconfig
  induction l generalizing s meanwhile skipped with
  | nil => exact ⟨rfl, (List.append_nil _).symm, fun _ ↦ rfl, fun _ he ↦ absurd he List.not_mem_nil⟩
  | cons e l ih =>
    have hnil := sessions_admitAll h
    have hroom : ¬(s.active.entries.length ≥ S.config.maxActive ∨ S.config.connections - s.used = 0) := by
      rw [hactive, hused, List.length_nil]
      omega
    unfold Loop.admitAll at h ⊢
    rw [if_neg hroom] at h ⊢
    dsimp only at h ⊢
    rw [asides_of_nil hnil] at h ⊢
    split
    next hzero =>
      rw [if_pos hzero] at h
      have hdown : now < (s.governor.account e.origin).readyAt := by
        rcases OriginGovernor.admit_eq_zero.1 hzero with hlt | hwant | hcap
        · exact hlt
        · omega
        · rw [hfree] at hcap
          omega
      obtain ⟨hwaiting, hready, haccount, hall⟩ := ih (s := { s with
          governor := (s.governor.admitConnections e.origin
            (min S.config.perJob (S.config.connections - s.used)) now).2 })
        (by rw [OriginGovernor.limits_admit]; exact hlimits)
        (fun o ↦ by rw [OriginGovernor.inFlight_admit, hzero, hfree]; simp) hactive hused h
      refine ⟨hwaiting, by rw [hready]; simp, fun o ↦ (haccount o).trans
        (OriginGovernor.account_admit hzero), fun d hd ↦ ?_⟩
      rcases List.mem_cons.1 hd with rfl | hd
      · exact hdown
      · have := hall d hd
        rwa [OriginGovernor.account_admit hzero] at this
    next hgrant =>
      rw [if_neg hgrant] at h
      exact absurd (sessions_admitAll h) (by simp [Loop.spawn])

/-- **What an iteration leaves queued without a session**: retries that were ahead when promotion looked,
and origins that stood down when admission looked. -/
theorem Sound.left_of_nil {t : Turn} (h : Sound W P 0 [] s) (hlimits : 1 ≤ W.limits.connections)
    (hnil : (s.prepare S t).sessions = []) (hstopping : (s.prepare S t).stopping = false) :
    (∀ e ∈ (s.prepare S t).waiting, ∃ due, e.job.retryAt = some due ∧ t.promoteNow < due) ∧
      ∀ e ∈ (s.prepare S t).ready,
        t.admitNow < ((s.prepare S t).governor.account e.origin).readyAt := by
  have hs := h.deliver t.delivering
  have hpromoted := hs.promoteDue t.promoteNow t.promoted
  have hrun : (s.deliver t.delivering).stopping = false := by
    cases hd : (s.deliver t.delivering).stopping with
    | false => rfl
    | true =>
      unfold Loop.prepare at hstopping
      dsimp only at hstopping
      rw [if_pos hd] at hstopping
      rw [hd] at hstopping
      cases hstopping
  have hprepare : s.prepare S t =
      Loop.admitReady S ((s.deliver t.delivering).promoteDue t.promoteNow t.promoted) t.admitNow t.admitting := by
    unfold Loop.prepare
    dsimp only
    rw [if_neg (by simp [hrun])]
  rw [hprepare] at hnil ⊢
  have hempty := sessions_admitAll hnil
  have hactive := hpromoted.active_of_nil hempty
  obtain ⟨hwaiting, hready, haccount, hdown⟩ := admitAll_of_nil
    (s := { (s.deliver t.delivering).promoteDue t.promoteNow t.promoted with ready := [] })
    (by rw [hpromoted.limits]; exact hlimits)
    (fun o ↦ by
      show (Loop.promoteDue _ _ _).governor.inFlight o = 0
      rw [hpromoted.books.inFlight, grantedTo, total, hactive]
      rfl) hactive
    (by
      show (Loop.promoteDue _ _ _).used = 0
      rw [hpromoted.books.used_eq, granted, total, hactive]
      rfl) hnil
  refine ⟨fun e he ↦ ?_, fun e he ↦ ?_⟩
  · have hmem : e ∈ ((s.deliver t.delivering).promoteDue t.promoteNow t.promoted).waiting := by
      rw [← hwaiting]
      exact he
    have hahead := (mem_waiting_promoteAll (fun e he ↦ (hs.waiting e he).2) hmem).resolve_left
      (by simp)
    unfold ahead at hahead
    obtain ⟨due, hdue, hlt⟩ := (Option.any_eq_true _ _).1 hahead
    exact ⟨due, hdue, by simpa using hlt⟩
  · have hmem : e ∈ ((s.deliver t.delivering).promoteDue t.promoteNow t.promoted).ready := by
      have := hready
      rw [List.nil_append] at this
      rw [← this]
      exact he
    have hlt := hdown e hmem
    rw [← haccount] at hlt
    exact hlt

end Loop

end Fhd
