import FhdEngine.Runtime.SchedulerInvariant

/-!
# The steps of the scheduler

Admission, sessions that end, commands, and with them a whole turn. Each keeps `Sound`, and what it adds
to the past is read off the loop: the tasks numbered since the turn began (`startedSince`), the job of
a joined session that came back queued (`renewal`), and the job an event hands over (`arrival`).
-/

namespace Fhd

namespace Loop

variable {S : Scheduler} {W : Watch S} {P : Past} {loose : Multiset JobId} {transit : List Entry}
  {s : Loop}

/-! ### Admission -/

theorem active_keys_insert {id : JobId} {a : Active} (h : id ∉ s.active) :
    (s.active.insert id a).keys = id :: s.active.keys := by
  show (s.active.insert id a).entries.keys = _
  rw [AList.entries_insert_of_notMem h]
  rfl

theorem Accounted.spawn {e : Entry} {want now : ℕ} (h : s.Accounted S) (hnew : e.job.id ∉ s.active)
    (hwant : want ≤ S.config.perJob) (hspare : want ≤ S.config.connections - s.used)
    (hactive : s.active.entries.length < S.config.maxActive)
    (hgrant : (s.governor.admitConnections e.origin want now).1 ≠ 0) :
    Accounted S ({ s with governor := (s.governor.admitConnections e.origin want now).2 }.spawn S e
      (s.governor.admitConnections e.origin want now).1) := by
  have hle : (s.governor.admitConnections e.origin want now).1 ≤ want := OriginGovernor.admit_le
  have hinFlight : ∀ o, (s.governor.admitConnections e.origin want now).2.inFlight o = s.governor.inFlight o +
      if o = e.origin then (s.governor.admitConnections e.origin want now).1 else 0 :=
    fun o ↦ OriginGovernor.inFlight_admit
  generalize (s.governor.admitConnections e.origin want now).1 = grant at hle hgrant hinFlight ⊢
  generalize (s.governor.admitConnections e.origin want now).2 = governor at hinFlight ⊢
  have hentries : (s.active.insert e.job.id ⟨s.nextTask, e.origin, grant⟩).entries =
      ⟨e.job.id, ⟨s.nextTask, e.origin, grant⟩⟩ :: s.active.entries :=
    AList.entries_insert_of_notMem hnew
  refine ⟨?_, ?_, ?_, fun a ha ↦ ?_, fun o ↦ ?_⟩
  · simp only [Loop.spawn, granted, total, hentries, List.map_cons, List.sum_cons]
    rw [h.used_eq, granted, total, add_comm]
  · show s.used + grant ≤ _
    have := h.used_le
    omega
  · simp only [Loop.spawn, hentries, List.length_cons]
    omega
  · simp only [Loop.spawn, hentries] at ha
    rcases List.mem_cons.1 ha with rfl | ha
    · exact ⟨Nat.one_le_iff_ne_zero.2 hgrant, hle.trans hwant⟩
    · exact h.grant a ha
  · simp only [Loop.spawn, grantedTo, total, hentries, List.map_cons, List.sum_cons]
    rw [hinFlight o, h.inFlight o, grantedTo, total, add_comm]
    simp only [eq_comm]

theorem Staffed.spawn {e : Entry} (h : s.Staffed) (hnew : e.job.id ∉ s.active) (grant : ℕ) :
    (s.spawn S e grant).Staffed where
  numbers := by
    simp only [Loop.spawn, List.map_append, List.map_cons, List.map_nil]
    refine List.Nodup.append h.numbers (List.nodup_singleton _) fun n hn hn' ↦ ?_
    obtain ⟨t, ht, rfl⟩ := List.mem_map.1 hn
    exact absurd (List.mem_singleton.1 hn') (h.fresh t ht).ne
  fresh := fun t ht ↦ by
    show t.number < s.nextTask + 1
    rcases List.mem_append.1 ht with ht | ht
    · exact (h.fresh t ht).trans (Nat.lt_succ_self _)
    · rw [List.mem_singleton.1 ht]
      exact Nat.lt_succ_self _
  tasks := by
    simp only [Loop.spawn, roster, AList.entries_insert_of_notMem hnew, List.map_append, List.map_cons,
      List.map_nil]
    exact (List.perm_append_singleton _ _).trans (h.tasks.cons _)
  owners := fun t ht ↦ by
    simp only [Loop.spawn]
    rcases List.mem_append.1 ht with ht | ht
    · rw [AList.lookup_insert_ne (h.fresh t ht).ne]
      exact h.owners t ht
    · rw [List.mem_singleton.1 ht]
      exact AList.lookup_insert _

/-- What is queued, in hand or a task is live. -/
theorem mem_live {id : JobId} : id ∈ s.live transit ↔ (∃ e ∈ transit, e.job.id = id) ∨
    (∃ e ∈ s.ready, e.job.id = id) ∨ (∃ e ∈ s.waiting, e.job.id = id) ∨ id ∈ s.active := by
  simp only [live, Multiset.mem_add, Multiset.mem_coe, List.mem_map, or_assoc, AList.mem_keys]

theorem Staffed.active_of_task {t : Task} (h : s.Staffed) (ht : t ∈ s.sessions) : t.id ∈ s.active := by
  have hmem : (t.number, t.id) ∈ s.roster := List.mem_map_of_mem ht
  obtain ⟨e, he, heq⟩ := List.mem_map.1 (h.tasks.mem_iff.1 hmem)
  rw [← (Prod.mk.inj heq).2]
  exact AList.mem_keys.2 (List.mem_map_of_mem he)

/-- **A session is started** for an entry in hand, with what the governor grants. -/
theorem Sound.spawn {e : Entry} {want now : ℕ} (h : Sound W P loose (e :: transit) s)
    (hrun : e.job.Runnable) (hwant : want ≤ S.config.perJob)
    (hspare : want ≤ S.config.connections - s.used)
    (hactive : s.active.entries.length < S.config.maxActive)
    (hgrant : (s.governor.admitConnections e.origin want now).1 ≠ 0) :
    Sound W { P with begun := e.job.id ::ₘ P.begun } loose transit
      ({ s with governor := (s.governor.admitConnections e.origin want now).2 }.spawn S e
        (s.governor.admitConnections e.origin want now).1) := by
  have hle : (s.governor.admitConnections e.origin want now).1 ≤ want := OriginGovernor.admit_le
  obtain ⟨hgone, hnew⟩ := h.letGo
  have hnotActive : e.job.id ∉ s.active := fun hmem ↦
    hnew (mem_live.2 (Or.inr (Or.inr (Or.inr hmem))))
  have hbooks := h.books.spawn (e := e) hnotActive hwant hspare hactive hgrant
  have hlimits : (s.governor.admitConnections e.origin want now).2.limits = W.limits :=
    OriginGovernor.limits_admit.trans h.limits
  have hstaff := Staffed.spawn (S := S) (s := { s with governor := (s.governor.admitConnections e.origin want now).2 })
    (e := e) { h.staff with } hnotActive (s.governor.admitConnections e.origin want now).1
  generalize (s.governor.admitConnections e.origin want now).1 = grant at hle hgrant hbooks hstaff ⊢
  generalize (s.governor.admitConnections e.origin want now).2 = governor at hbooks hlimits hstaff ⊢
  have hknowing := h.inHand e List.mem_cons_self
  have hother : ∀ {id : JobId}, id ∈ s.live transit →
      (e.job.id ::ₘ P.begun).count id = P.begun.count id := fun {id} hid ↦
    Multiset.count_cons_of_ne (fun heq : id = e.job.id ↦ hnew (heq ▸ hid)) _
  have hlive : ({ s with governor := governor }.spawn S e grant).live transit =
      e.job.id ::ₘ s.live transit := by
    simp only [live, Loop.spawn, active_keys_insert hnotActive, ← Multiset.cons_coe,
      ← Multiset.singleton_add]
    abel
  have hgiven := h.given
  rw [live_cons] at hgiven
  have hmem : e.job.id ∈ P.given := by
    rw [← hgiven]
    simp
  refine {
    books := hbooks
    limits := hlimits
    staff := hstaff
    task := fun t ht ↦ ?_
    deferred := h.deferred
    inHand := fun e' he' ↦ (hgone.inHand e' he').congr (hother (mem_live.2 (Or.inl ⟨e', he', rfl⟩))) rfl
    ready := fun e' he' ↦ ⟨(h.ready e' he').1.congr
      (hother (mem_live.2 (Or.inr (Or.inl ⟨e', he', rfl⟩)))) rfl, (h.ready e' he').2⟩
    waiting := fun e' he' ↦ ⟨(h.waiting e' he').1.congr
      (hother (mem_live.2 (Or.inr (Or.inr (Or.inl ⟨e', he', rfl⟩))))) rfl, (h.waiting e' he').2⟩
    nodup := by
      rw [hlive, ← live_cons]
      exact h.nodup
    given := by
      rw [hlive]
      exact hgiven
    begun := fun id hid ↦ ?_
    once := h.once
    bound := fun id hspared ↦ ?_
    answered := h.answered
    rested := fun o ho hspared hbegun ↦ ?_
    running := h.running }
  · rcases List.mem_append.1 ht with ht | ht
    · refine (h.task t ht).congr (hother (mem_live.2 ?_)) rfl
      exact Or.inr (Or.inr (Or.inr (h.staff.active_of_task ht)))
    · rw [List.mem_singleton.1 ht]
      exact Watch.Fits.of_spawn hknowing hrun ⟨hgrant, hle.trans (hwant.trans S.perJob_le)⟩
  · rcases Multiset.mem_cons.1 hid with rfl | hid
    · exact hmem
    · exact h.begun id hid
  · by_cases hid : id = e.job.id
    · subst hid
      show (e.job.id ::ₘ P.begun).count e.job.id ≤ _
      rw [Multiset.count_cons_self]
      exact W.next (hknowing.2 hspared) hrun
    · show (e.job.id ::ₘ P.begun).count id ≤ _
      rw [Multiset.count_cons_of_ne hid]
      exact h.bound id hspared
  · rcases Multiset.mem_cons.1 hbegun with heq | hbegun
    · -- a spared job comes once: it is not both done and in hand
      have hcount := h.once o.id hspared
      have hdone : o.id ∈ (↑(s.done.map (·.id)) : Multiset JobId) :=
        Multiset.mem_coe.2 (List.mem_map_of_mem ho)
      rw [← hgiven, Multiset.count_add, Multiset.count_add, heq, Multiset.count_cons_self] at hcount
      have := Multiset.one_le_count_iff_mem.2 (heq ▸ hdone)
      omega
    · exact h.rested o ho hspared hbegun

/-- The jobs of the tasks that were spawned from this number on. -/
def startedSince (n : ℕ) (s : Loop) : Multiset JobId := ↑((s.roster.filter (n ≤ ·.1)).map (·.2))

theorem Still.startedSince {s' : Loop} (h : Still s s') (n : ℕ) :
    s'.startedSince n = s.startedSince n := by
  unfold Loop.startedSince
  rw [h.roster]

theorem startedSince_spawn {n : ℕ} (hn : n ≤ s.nextTask) (e : Entry) (grant : ℕ) :
    (s.spawn S e grant).startedSince n = e.job.id ::ₘ s.startedSince n := by
  have hroster : (s.spawn S e grant).roster = s.roster ++ [(s.nextTask, e.job.id)] := by
    simp [roster, Loop.spawn]
  unfold startedSince
  rw [hroster, List.filter_append, List.map_append]
  simp only [List.filter_cons, hn, decide_true, if_true, List.filter_nil, List.map_cons, List.map_nil]
  rw [← Multiset.coe_add, Multiset.coe_singleton, add_comm, Multiset.singleton_add]

/-- **Admission** starts sessions for what it has in hand, and leaves the rest ready. -/
theorem Sound.admitAll {B : Multiset JobId} {n : ℕ} (now : ℕ) (meanwhile : ℕ → List Aside)
    {skipped l : List Entry}
    (h : Sound W { P with begun := s.startedSince n + B } loose (skipped ++ l) s)
    (hn : n ≤ s.nextTask) (hready : s.ready = [])
    (hrun : ∀ e ∈ skipped ++ l, e.job.Runnable) :
    Sound W { P with begun := (Loop.admitAll S now s meanwhile skipped l).startedSince n + B } loose []
      (Loop.admitAll S now s meanwhile skipped l) := by
  have hback : ∀ {rest : List Entry} {s : Loop},
      Sound W { P with begun := s.startedSince n + B } loose rest s → s.ready = [] →
      (∀ e ∈ rest, e.job.Runnable) →
      Sound W { P with begun := { s with ready := rest }.startedSince n + B } loose []
        { s with ready := rest } := by
    intro rest s h hready hrun
    have hlive : { s with ready := rest }.live [] = s.live rest := by
      simp only [live, hready, List.map_nil, Multiset.coe_nil]
      abel
    exact { h with
      books := { h.books with }
      staff := { h.staff with }
      inHand := fun e he ↦ absurd he List.not_mem_nil
      ready := fun e he ↦ ⟨h.inHand e he, hrun e he⟩
      nodup := by rw [hlive]; exact h.nodup
      given := by rw [hlive]; exact h.given }
  induction l generalizing s meanwhile skipped with
  | nil =>
    rw [List.append_nil] at h hrun
    exact hback h hready hrun
  | cons e l ih =>
    unfold Loop.admitAll
    split
    · exact hback h hready hrun
    next hroom =>
      have hstill := h.still_asides (meanwhile 0)
      have hs := h.asides (meanwhile 0)
      rw [← hstill.startedSince n] at hs
      rw [← hstill.nextTask] at hn
      rw [← hstill.ready] at hready
      rw [← hstill.active, ← hstill.used] at hroom
      dsimp only
      generalize s.asides (meanwhile 0) = s' at hs hn hready hroom ⊢
      split
      next hzero =>
        have hsame : ∀ o, (s'.governor.admitConnections e.origin _ now).2.inFlight o = s'.governor.inFlight o :=
          fun o ↦ by rw [OriginGovernor.inFlight_admit, hzero]; simp
        have hperm : (skipped ++ e :: l).Perm ((skipped ++ [e]) ++ l) := by simp
        have hskip := (hs.setGovernor OriginGovernor.limits_admit hsame).perm hperm
        exact ih (meanwhile ∘ (· + 1)) hskip hn hready (by simpa using hrun)
      next hgrant =>
        have hperm : (skipped ++ e :: l).Perm (e :: (skipped ++ l)) := List.perm_middle
        have hspawn := (hs.perm hperm).spawn (hrun e (by simp)) (Nat.min_le_left _ _)
          (Nat.min_le_right _ _) (by omega) hgrant
        refine ih (meanwhile ∘ (· + 1)) ?_ (Nat.le_succ_of_le hn) hready fun e' he' ↦ hrun e' ?_
        · have hcount : ∀ g grant, ({ s' with governor := g }.spawn S e grant).startedSince n =
              e.job.id ::ₘ s'.startedSince n := fun g grant ↦ startedSince_spawn hn e grant
          rw [hcount, Multiset.cons_add]
          exact hspawn
        · simp only [List.mem_append, List.mem_cons] at he' ⊢
          tauto

theorem Sound.admitReady {n : ℕ} {B : Multiset JobId}
    (h : Sound W { P with begun := s.startedSince n + B } loose [] s) (hn : n ≤ s.nextTask) (now : ℕ)
    (meanwhile : ℕ → List Aside) :
    Sound W { P with begun := (Loop.admitReady S s now meanwhile).startedSince n + B } loose []
      (Loop.admitReady S s now meanwhile) := by
  refine Sound.admitAll (s := { s with ready := [] }) now meanwhile ?_ hn rfl fun e he ↦ (h.ready e he).2
  have hlive : { s with ready := [] }.live s.ready = s.live [] := by
    simp only [live, List.map_nil, Multiset.coe_nil]
    abel
  exact { h with
    books := { h.books with }
    staff := { h.staff with }
    inHand := fun e he ↦ (h.ready e he).1
    ready := fun e he ↦ absurd he List.not_mem_nil
    nodup := by rw [List.nil_append, hlive]; exact h.nodup
    given := by rw [List.nil_append, hlive]; exact h.given }

/-! ### Sessions that end -/

/-- The active entry of a task. -/
theorem Staffed.lookup_of_task {t : Task} (h : s.Staffed) (ht : t ∈ s.sessions) :
    ∃ a, s.active.lookup t.id = some a ∧ a.control = t.number := by
  have hmem : (t.number, t.id) ∈ s.roster := List.mem_map_of_mem ht
  obtain ⟨⟨id, a⟩, he, heq⟩ := List.mem_map.1 (h.tasks.mem_iff.1 hmem)
  obtain ⟨hcontrol, rfl⟩ := Prod.mk.inj heq
  exact ⟨a, AList.mem_lookup_iff.2 he, hcontrol⟩

/-- One task of a list in which each has its own number, and the others. -/
theorem perm_cons_filter {l : List Task} {t : Task} (hl : (l.map (·.number)).Nodup) (ht : t ∈ l) :
    l.Perm (t :: l.filter (·.number ≠ t.number)) := by
  induction l with
  | nil => exact absurd ht List.not_mem_nil
  | cons u l ih =>
    obtain ⟨hu, hl⟩ := List.nodup_cons.1 hl
    have hother : ∀ v ∈ l, v.number ≠ u.number :=
      fun v hv heq ↦ hu (List.mem_map.2 ⟨v, hv, heq⟩)
    rcases List.mem_cons.1 ht with rfl | ht
    · have hkept : l.filter (·.number ≠ t.number) = l :=
        List.filter_eq_self.2 fun v hv ↦ decide_eq_true (hother v hv)
      rw [List.filter_cons_of_neg (by simp), hkept]
    · have hkept : (u :: l).filter (·.number ≠ t.number) = u :: l.filter (·.number ≠ t.number) :=
        List.filter_cons_of_pos (decide_eq_true (hother t ht).symm)
      rw [hkept]
      exact ((ih hl ht).cons u).trans (List.Perm.swap ..)

theorem Accounted.finish {id : JobId} {a : Active} (h : s.Accounted S)
    (ha : s.active.lookup id = some a) (published : Bool) (now : ℕ) :
    (s.finish id published now).Accounted S := by
  have hperm := AList.perm_of_lookup ha
  have hsum : ∀ f : Active → ℕ, s.total f = f a + ((s.active.erase id).entries.map fun e ↦ f e.2).sum := by
    intro f
    unfold total
    rw [(hperm.map fun e : (_ : JobId) × Active ↦ f e.2).sum_eq]
    rfl
  have hused := h.used_eq
  rw [granted, hsum Active.grant] at hused
  have hlength := hperm.length_eq
  rw [List.length_cons] at hlength
  have hrest : Accounted S { s with
      active := s.active.erase id
      used := s.used - a.grant
      governor := s.governor.release a.origin a.grant now } := by
    refine ⟨?_, ?_, ?_, fun e he ↦ ?_, fun o ↦ ?_⟩
    · show s.used - a.grant = ((s.active.erase id).entries.map fun e ↦ e.2.grant).sum
      omega
    · exact (Nat.sub_le _ _).trans h.used_le
    · show (s.active.erase id).entries.length ≤ _
      have := h.active_le
      omega
    · exact h.grant e (hperm.mem_iff.2 (List.mem_cons_of_mem _ he))
    · show (s.governor.release a.origin a.grant now).inFlight o =
        ((s.active.erase id).entries.map fun e ↦ if e.2.origin = o then e.2.grant else 0).sum
      rw [OriginGovernor.inFlight_release, h.inFlight, grantedTo, hsum]
      by_cases ho : a.origin = o
      · rw [if_pos ho.symm, if_pos ho, Nat.add_sub_cancel_left]
      · rw [if_neg (Ne.symm ho), if_neg ho, Nat.zero_add]
  unfold Loop.finish
  rw [ha]
  cases published with
  | false => exact hrest
  | true => exact { hrest with inFlight := fun o ↦
      OriginGovernor.inFlight_succeeded.trans (hrest.inFlight o) }

theorem finish_eq {id : JobId} {a : Active} (ha : s.active.lookup id = some a) (published : Bool)
    (now : ℕ) : ∃ governor, governor.limits = s.governor.limits ∧ s.finish id published now =
      { s with active := s.active.erase id, used := s.used - a.grant, governor } := by
  unfold Loop.finish
  rw [ha]
  refine ⟨_, ?_, rfl⟩
  split
  · rw [OriginGovernor.limits_succeeded, OriginGovernor.limits_release]
  · exact OriginGovernor.limits_release

/-- **A task is joined**: it leaves the set, and its grant is released. -/
theorem Sound.finish {t : Task} (h : Sound W P loose transit s) (ht : t ∈ s.sessions)
    (owners : AList fun _ : ℕ ↦ JobId)
    (howners : ∀ u ∈ s.sessions.filter (·.number ≠ t.number), owners.lookup u.number = some u.id)
    (published : Bool) (now : ℕ) :
    Sound W P (t.id ::ₘ loose) transit
      ({ s with sessions := s.sessions.filter (·.number ≠ t.number), owners }.finish t.id published now) ∧
    t.id ∉ ({ s with sessions := s.sessions.filter (·.number ≠ t.number), owners }.finish t.id published
      now).live transit := by
  obtain ⟨a, ha, hcontrol⟩ := h.staff.lookup_of_task ht
  have hbooks := Accounted.finish
    (s := { s with sessions := s.sessions.filter (·.number ≠ t.number), owners })
    { h.books with } ha published now
  obtain ⟨governor, hlimits, heq⟩ := finish_eq
    (s := { s with sessions := s.sessions.filter (·.number ≠ t.number), owners }) ha published now
  rw [heq] at hbooks ⊢
  have hperm := AList.perm_of_lookup ha
  have hkeys : (s.active.keys : Multiset JobId) = t.id ::ₘ ↑(s.active.erase t.id).keys :=
    Multiset.coe_eq_coe.2 (hperm.map Sigma.fst)
  have hlive : s.live transit = t.id ::ₘ { s with active := s.active.erase t.id }.live transit := by
    simp only [live, hkeys, ← Multiset.singleton_add]
    abel
  have hnodup := h.nodup
  have hgiven := h.given
  rw [hlive] at hnodup hgiven
  obtain ⟨hnew, hnodup⟩ := Multiset.nodup_cons.1 hnodup
  have hmem : ∀ u ∈ s.sessions.filter (·.number ≠ t.number), u ∈ s.sessions :=
    fun u hu ↦ List.mem_of_mem_filter hu
  refine ⟨{ h with
    books := hbooks
    limits := hlimits.trans h.limits
    staff := ⟨?_, fun u hu ↦ h.staff.fresh u (hmem u hu), ?_, howners⟩
    task := fun u hu ↦ h.task u (hmem u hu)
    nodup := hnodup
    given := ?_ }, hnew⟩
  · exact h.staff.numbers.sublist (List.filter_sublist.map _)
  · have hroster := (perm_cons_filter h.staff.numbers ht).map fun t ↦ (t.number, t.id)
    have htable := hperm.map fun e : (_ : JobId) × Active ↦ (e.2.control, e.1)
    simp only [List.map_cons, hcontrol] at hroster htable
    exact (List.perm_cons _).1 ((hroster.symm.trans h.staff.tasks).trans htable)
  · rw [← hgiven]
    simp only [live, ← Multiset.singleton_add]
    abel

/-- The job that comes back queued anew. -/
def renewal (s : Loop) : Event → Multiset JobId
  | .joined task _ _ =>
    match s.sessions.find? (·.number = task) with
    | some t =>
      match t.session with
      | some (.done (job, .ok _)) => if job.state = .queued then {t.id} else 0
      | _ => 0
    | none => 0
  | _ => 0

/-- A job that is nowhere is queued anew. -/
theorem Sound.renew {r : Multiset JobId} (h : Sound W P loose transit s) (id : JobId)
    (hr : ∀ i ∈ r, i = id) (hnew : id ∉ s.live transit) :
    Sound W { P with renewed := r + P.renewed } loose transit s := by
  have hother : ∀ {i : JobId}, i ∈ s.live transit → (r + P.renewed).count i = P.renewed.count i := by
    intro i hi
    have hzero : r.count i = 0 := Multiset.count_eq_zero.2 fun hmem ↦ hnew (hr i hmem ▸ hi)
    rw [Multiset.count_add, hzero, zero_add]
  exact { h with
    task := fun t ht ↦ (h.task t ht).congr rfl
      (hother (mem_live.2 (Or.inr (Or.inr (Or.inr (h.staff.active_of_task ht))))))
    inHand := fun e he ↦ (h.inHand e he).congr rfl (hother (mem_live.2 (Or.inl ⟨e, he, rfl⟩)))
    ready := fun e he ↦ ⟨(h.ready e he).1.congr rfl
      (hother (mem_live.2 (Or.inr (Or.inl ⟨e, he, rfl⟩)))), (h.ready e he).2⟩
    waiting := fun e he ↦ ⟨(h.waiting e he).1.congr rfl
      (hother (mem_live.2 (Or.inr (Or.inr (Or.inl ⟨e, he, rfl⟩))))), (h.waiting e he).2⟩
    bound := fun i hspared ↦ by
      have := h.bound i hspared
      show P.begun.count i ≤ W.limit + (r + P.renewed).count i
      rw [Multiset.count_add]
      omega }

theorem Sound.onJoined (h : Sound W P loose [] s) (task now : ℕ) (origin : OriginId) :
    Sound W { P with renewed := s.renewal (.joined task now origin) + P.renewed } loose []
      (s.onJoined task now origin) := by
  cases hfind : s.sessions.find? (·.number = task) with
  | none =>
    simp only [Loop.onJoined, renewal, hfind, zero_add]
    exact h
  | some t =>
    have ht := List.mem_of_find?_eq_some hfind
    have hnumber : t.number = task := by simpa using List.find?_some hfind
    subst hnumber
    cases hsession : t.session with
    | none =>
      simp only [Loop.onJoined, renewal, hfind, hsession, h.staff.owners t ht, zero_add]
      have howners : ∀ u ∈ s.sessions.filter (·.number ≠ t.number),
          (s.owners.erase t.number).lookup u.number = some u.id := by
        intro u hu
        have hne : u.number ≠ t.number := by simpa using List.of_mem_filter hu
        rw [AList.lookup_erase_ne hne]
        exact h.staff.owners u (List.mem_of_mem_filter hu)
      exact (h.finish ht _ howners false now).1.push ⟨nofun, nofun⟩
    | some p =>
      cases p with
      | call op next =>
        simp only [Loop.onJoined, renewal, hfind, hsession, zero_add]
        exact h
      | done r =>
        obtain ⟨job, result⟩ := r
        obtain ⟨hid, hresult⟩ := (h.task t ht).session _ hsession
        obtain ⟨hdone, hnew⟩ := h.finish ht s.owners
          (fun u hu ↦ h.staff.owners u (List.mem_of_mem_filter hu)) (isPublished result) now
        cases result with
        | error e =>
          simp only [Loop.onJoined, renewal, hfind, hsession, zero_add]
          exact hdone.push hresult
        | ok ended =>
          simp only [Loop.onJoined, renewal, hfind, hsession]
          have hback : W.Returned P job := hresult
          have hrenewed := hdone.renew (r := if job.state = .queued then {job.id} else 0) t.id
            (fun i hi ↦ ?_) hnew
          · rw [← hid] at hrenewed hnew ⊢
            have hup : Sound W _ loose [⟨job, origin⟩] _ :=
              Sound.take_up (e := ⟨job, origin⟩) hrenewed hnew hback.knows
            refine Sound.take (e := ⟨job, origin⟩) ?_ fun hspared _ ↦ (hback.2 hspared).2
            exact { hup with books := { hup.books with }, staff := { hup.staff with } }
          · split at hi
            · rw [Multiset.mem_singleton.1 hi, hid]
            · exact absurd hi (Multiset.notMem_zero _)

/-! ### Commands -/

theorem perm_cons_eraseP {α : Type} {l : List α} {p : α → Bool} {a : α} (h : l.find? p = some a) :
    l.Perm (a :: l.eraseP p) := by
  obtain ⟨hp, pre, post, rfl, hpre⟩ := List.find?_eq_some_iff_append.1 h
  have hne : ∀ b ∈ pre, ¬p b = true := fun b hb ↦ by simpa using hpre b hb
  rw [List.eraseP_append_right _ hne, List.eraseP_cons_of_pos hp]
  exact List.perm_middle

/-- **An entry is taken out of the queue**, with its identity. -/
theorem Sound.remove {id : JobId} {e : Entry} {s' : Loop} (h : Sound W P loose transit s)
    (hremove : s.remove id = some (e, s')) : Sound W P loose (e :: transit) s' ∧ e.job.id = id := by
  unfold Loop.remove at hremove
  split at hremove
  next e' hfind =>
    cases hremove
    have hperm := perm_cons_eraseP hfind
    have hlive : { s with ready := s.ready.eraseP (·.job.id = id) }.live (e :: transit) =
        s.live transit := by
      have hready := Multiset.coe_eq_coe.2 (hperm.map (·.job.id))
      simp only [List.map_cons, ← Multiset.cons_coe] at hready
      simp only [live, hready, List.map_cons, ← Multiset.cons_coe, ← Multiset.singleton_add]
      abel
    refine ⟨{ h with
      books := { h.books with }
      staff := { h.staff with }
      inHand := fun e' he' ↦ ?_
      ready := fun e' he' ↦ h.ready e' (List.mem_of_mem_eraseP he')
      nodup := by rw [hlive]; exact h.nodup
      given := by rw [hlive]; exact h.given }, by simpa using List.find?_some hfind⟩
    rcases List.mem_cons.1 he' with rfl | he'
    · exact (h.ready e' (List.mem_of_find?_eq_some hfind)).1
    · exact h.inHand e' he'
  · split at hremove
    next e' hfind =>
      cases hremove
      have hperm := perm_cons_eraseP hfind
      have hlive : { s with waiting := s.waiting.eraseP (·.job.id = id) }.live (e :: transit) =
          s.live transit := by
        have hwaiting := Multiset.coe_eq_coe.2 (hperm.map (·.job.id))
        simp only [List.map_cons, ← Multiset.cons_coe] at hwaiting
        simp only [live, hwaiting, List.map_cons, ← Multiset.cons_coe, ← Multiset.singleton_add]
        abel
      refine ⟨{ h with
        books := { h.books with }
        staff := { h.staff with }
        inHand := fun e' he' ↦ ?_
        waiting := fun e' he' ↦ h.waiting e' (List.mem_of_mem_eraseP he')
        nodup := by rw [hlive]; exact h.nodup
        given := by rw [hlive]; exact h.given }, by simpa using List.find?_some hfind⟩
      rcases List.mem_cons.1 he' with rfl | he'
      · exact (h.waiting e' (List.mem_of_find?_eq_some hfind)).1
      · exact h.inHand e' he'
    · cases hremove

theorem Sound.onControl (h : Sound W P loose transit s) {id : JobId} (hspared : ¬W.spared id)
    (control : Control) (moved settled : Answers) :
    Sound W P loose transit (s.onControl id control moved settled) := by
  unfold Loop.onControl
  split
  next a ha => exact h.send control ha hspared
  · split
    · exact h
    next e s' hremove =>
      obtain ⟨hs', rfl⟩ := h.remove hremove
      have hcommand := Coordinator.command_same e.job (commandOf control) moved
      split
      next job hjob =>
        rw [hjob] at hcommand
        refine hs'.takeBack (Same.trans hcommand (settle_same job settled)) fun job' hjob' hs ↦ ?_
        have hid : Same e.job (.ok job') := hjob' ▸ Same.trans hcommand (settle_same job settled)
        rw [hid.1] at hs
        exact absurd hs hspared
      next error herror =>
        rw [herror] at hcommand
        exact hs'.letGo.1.push hcommand

theorem send_active (s : Loop) (id : JobId) (task : ℕ) (control : Control) :
    (s.send id task control).active = s.active := by
  unfold Loop.send trySend
  split
  · rfl
  · split <;> rfl

/-- Every running session is told. -/
theorem Sound.sendAll (h : Sound W P loose transit s) (control : Control)
    (hspared : ∀ id, ¬W.spared id) {l : List ((_ : JobId) × Active)}
    (hl : ∀ e ∈ l, e ∈ s.active.entries) :
    Sound W P loose transit (l.foldl (fun s e ↦ s.send e.1 e.2.control control) s) := by
  induction l generalizing s with
  | nil => exact h
  | cons e l ih =>
    have hactive : s.active.lookup e.1 = some e.2 := AList.mem_lookup_iff.2 (hl e List.mem_cons_self)
    refine ih (h.send control hactive (hspared e.1)) fun e' he' ↦ ?_
    rw [send_active]
    exact hl e' (List.mem_cons_of_mem _ he')

/-- The job an event hands over. -/
def arrival (s : Loop) : Event → Option Job
  | .command (.admitJob job) _ _ _ => if s.isOpen then some job else none
  | _ => none

/-- What an event leaves of the past. -/
def after (P : Past) (s : Loop) (event : Event) : Past where
  given := ↑((s.arrival event).map (·.id)).toList + P.given
  begun := P.begun
  renewed := s.renewal event + P.renewed

/-- **Events that keep the invariant**: a job that arrives is nowhere yet, and no command reaches a job
that is spared. -/
def Allowed (W : Watch S) (P : Past) (s : Loop) : Event → Prop
  | .command (.admitJob job) _ _ _ => s.isOpen = true → job.Inv ∧ job.id ∉ s.live [] ∧
    (W.spared job.id → job.id ∉ P.given ∧ W.know 0 (P.renewed.count job.id) job)
  | .command (.pause id) _ _ _ | .command (.cancel id) _ _ _ => s.isOpen = true → ¬W.spared id
  | .command .shutdown _ _ _ => s.isOpen = true → ∀ id, ¬W.spared id
  | _ => True

/-- A job that was never given has had no session. -/
theorem Sound.count_begun (h : Sound W P loose transit s) {id : JobId} (hid : id ∉ P.given) :
    P.begun.count id = 0 :=
  Multiset.count_eq_zero.2 fun hmem ↦ hid (h.begun id hmem)

/-- **A job is handed over.** -/
theorem Sound.give (h : Sound W P loose transit s) {id : JobId} (hspared : W.spared id → id ∉ P.given) :
    Sound W { P with given := id ::ₘ P.given } (id ::ₘ loose) transit s where
  books := h.books
  limits := h.limits
  staff := h.staff
  task := fun t ht ↦ (h.task t ht).congr rfl rfl
  deferred := h.deferred
  inHand := fun e he ↦ (h.inHand e he).congr rfl rfl
  ready := fun e he ↦ ⟨(h.ready e he).1.congr rfl rfl, (h.ready e he).2⟩
  waiting := fun e he ↦ ⟨(h.waiting e he).1.congr rfl rfl, (h.waiting e he).2⟩
  nodup := h.nodup
  given := by
    show _ = id ::ₘ P.given
    rw [← h.given]
    simp only [← Multiset.singleton_add]
    abel
  begun := fun i hi ↦ Multiset.mem_cons_of_mem (h.begun i hi)
  once := fun i hi ↦ by
    show (id ::ₘ P.given).count i ≤ 1
    by_cases heq : i = id
    · subst heq
      rw [Multiset.count_cons_self, Multiset.count_eq_zero.2 (hspared hi)]
    · rw [Multiset.count_cons_of_ne heq]
      exact h.once i hi
  bound := h.bound
  answered := h.answered
  rested := h.rested
  running := h.running

/-- **The select** keeps the invariant. -/
theorem Sound.select (h : Sound W P 0 [] s) {event : Event} (hallowed : s.Allowed W P event) :
    Sound W (s.after P event) 0 [] (s.select event) := by
  have hsame : ∀ {s'}, s.arrival event = none → s.renewal event = 0 → Sound W P 0 [] s' →
      Sound W (s.after P event) 0 [] s' := by
    intro s' harrival hrenewal hs'
    have heq : s.after P event = P := by simp [after, harrival, hrenewal]
    rwa [heq]
  cases event with
  | joined task now origin =>
    have heq : s.after P (.joined task now origin) =
        { P with renewed := s.renewal (.joined task now origin) + P.renewed } := by
      simp [after, arrival]
    rw [heq]
    exact h.onJoined task now origin
  | closed =>
    exact hsame rfl rfl { h with books := { h.books with }, staff := { h.staff with } }
  | woke => exact hsame rfl rfl h
  | command command origin moved settled =>
    rw [Loop.select]
    split
    swap
    next hclosed =>
      refine hsame ?_ rfl h
      cases command <;> simp [arrival, hclosed]
    next hopen =>
      cases command with
      | pause id => exact hsame rfl rfl (h.onControl (hallowed hopen) .pause moved settled)
      | cancel id => exact hsame rfl rfl (h.onControl (hallowed hopen) .cancel moved settled)
      | shutdown =>
        have hall := h.sendAll .pause (hallowed hopen) (l := s.active.entries) fun _ he ↦ he
        exact hsame rfl rfl { hall with books := { hall.books with }, staff := { hall.staff with } }
      | admitJob job =>
        obtain ⟨hinv, hnew, hknow⟩ := hallowed hopen
        have heq : s.after P (.command (.admitJob job) origin moved settled) =
            { P with given := job.id ::ₘ P.given } := by
          simp [after, arrival, hopen, renewal]
        rw [heq]
        have hgiven := h.give fun hspared ↦ (hknow hspared).1
        have hup : Sound W { P with given := job.id ::ₘ P.given } 0 [⟨job, origin⟩] s := by
          refine Sound.take_up (e := ⟨job, origin⟩) hgiven hnew ⟨hinv, fun hspared ↦ ?_⟩
          obtain ⟨hnot, hk⟩ := hknow hspared
          rwa [← h.count_begun hnot] at hk
        refine hup.take fun hspared hbegun ↦ ?_
        exact absurd (h.begun _ hbegun) (hknow hspared).1

/-! ### A whole turn -/

theorem Sound.still_send (h : Sound W P loose transit s) (id : JobId) (task : ℕ) (control : Control) :
    Still s (s.send id task control) := by
  unfold Loop.send trySend
  split
  · exact { Still.refl s with }
  next t hfind =>
    split
    · exact h.staff.still_setTask (List.mem_of_find?_eq_some hfind) rfl rfl
    · exact { Still.refl s with }

theorem Sound.still_deliver (h : Sound W P loose transit s) (meanwhile : ℕ → List Aside) :
    Still s (s.deliver meanwhile) := by
  have hall : ∀ {l : List (JobId × Control)} {s : Loop} (meanwhile : ℕ → List Aside),
      Sound W P loose transit s → (∀ d ∈ l, ¬W.spared d.1) → Still s (s.deliverAll meanwhile l) := by
    intro l
    induction l with
    | nil => exact fun _ _ _ ↦ Still.refl _
    | cons d l ih =>
      intro s meanwhile h hl
      obtain ⟨id, control⟩ := d
      have hrest : ∀ d ∈ l, ¬W.spared d.1 := fun d hd ↦ hl d (List.mem_cons_of_mem _ hd)
      have hs := h.asides (meanwhile 0)
      have hstill := h.still_asides (meanwhile 0)
      unfold Loop.deliverAll
      dsimp only
      split
      next a ha =>
        have hsend := hs.send control ha (hl _ List.mem_cons_self)
        exact (hstill.trans (hs.still_send ..)).trans (ih _ hsend hrest)
      · exact hstill.trans (ih _ hs hrest)
  have hclear : Sound W P loose transit { s with deferred := [] } :=
    { h with books := { h.books with }, staff := { h.staff with }, deferred := nofun }
  exact { hall meanwhile hclear h.deferred with }

/-- What moves entries about the queue leaves the tasks alone. -/
theorem tasks_take (s : Loop) (e : Entry) :
    (s.take e).sessions = s.sessions ∧ (s.take e).nextTask = s.nextTask := by
  unfold Loop.take
  split <;> exact ⟨rfl, rfl⟩

theorem tasks_promoteAll (now : ℕ) (answers : ℕ → Answers) (l : List Entry) (s : Loop) :
    (s.promoteAll now answers l).sessions = s.sessions ∧
      (s.promoteAll now answers l).nextTask = s.nextTask := by
  induction l generalizing s answers with
  | nil => exact ⟨rfl, rfl⟩
  | cons e l ih =>
    unfold Loop.promoteAll
    dsimp only
    refine ⟨(ih _ _).1.trans ?_, (ih _ _).2.trans ?_⟩ <;>
    · split
      · rfl
      · unfold Loop.takeBack
        split
        · first | exact (tasks_take _ _).1 | exact (tasks_take _ _).2
        · rfl

theorem startedSince_nextTask (h : s.Staffed) : s.startedSince s.nextTask = 0 := by
  have hnone : s.roster.filter (s.nextTask ≤ ·.1) = [] := List.filter_eq_nil_iff.2 fun r hr ↦ by
    obtain ⟨t, ht, rfl⟩ := List.mem_map.1 hr
    simpa using h.fresh t ht
  rw [startedSince, hnone]
  rfl

/-- The sessions a turn starts. -/
def started (S : Scheduler) (s : Loop) (t : Turn) : Multiset JobId :=
  (s.prepare S t).startedSince s.nextTask

/-- **Everything before the select** keeps the invariant, and adds what it starts to the past. -/
theorem Sound.prepare (h : Sound W P 0 [] s) (t : Turn) :
    Sound W { P with begun := s.started S t + P.begun } 0 [] (s.prepare S t) := by
  have hs := h.deliver t.delivering
  have hstill := h.still_deliver t.delivering
  have hnone : (s.deliver t.delivering).startedSince s.nextTask = 0 := by
    rw [hstill.startedSince, startedSince_nextTask h.staff]
  unfold started
  unfold Loop.prepare
  dsimp only
  split
  · rwa [hnone, zero_add]
  · have hpromoted := hs.promoteDue t.promoteNow t.promoted
    obtain ⟨hsessions, hnext⟩ := tasks_promoteAll t.promoteNow t.promoted
      (s.deliver t.delivering).waiting { s.deliver t.delivering with waiting := [] }
    have hzero : ((s.deliver t.delivering).promoteDue t.promoteNow t.promoted).startedSince s.nextTask = 0 := by
      rw [← hnone, startedSince, startedSince, roster, roster]
      exact congrArg _ (by rw [show (Loop.promoteDue _ _ _).sessions = _ from hsessions])
    refine Sound.admitReady ?_ ?_ t.admitNow t.admitting
    · rwa [hzero, zero_add]
    · exact (hstill.nextTask.symm.trans hnext.symm).le

end Loop

end Fhd
