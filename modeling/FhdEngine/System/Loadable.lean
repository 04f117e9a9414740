import FhdEngine.System.Owners

/-!
# Owners that apply what was committed

An owner applies an event only after its commit was answered with success. Under that discipline every
copy stays current at its version, however stale it is, and the repository stays loadable, whatever
extents and intents it is offered.

The invariant relates the world to a chronicle that only grows: a copy is found in it at its own
version, an event was decided on such a copy, and a committed event has its outcome recorded there.
-/

namespace Fhd

open Fallible
open Persistence

namespace Job

variable {j j' k k' : Job} {command : JobCommand}

/-- The plan after a command is determined by the plan before it and by whether the generation was
replaced. -/
theorem Step.plan_congr (h : Step j command k) (h' : Step j' command k') (hplan : j.plan = j'.plan)
    (hgen : j.generation = j'.generation) (hgen' : k.generation = k'.generation) :
    k.plan = k'.plan := by
  have hplan' : ∀ {j k : Job}, k.segments = j.segments → k.plan = j.plan := fun h ↦ by
    rw [plan, plan, h]
  rcases command.probes_cases with hprobes | ⟨total, maxSegments, validator, rfl⟩
  · -- nothing but the end of a probe gives a job a plan
    have hkeep : ∀ {j k : Job}, Step j command k →
        k.plan = if k.generation = j.generation then j.plan else none := by
      intro j k h
      rcases h.representation with ⟨hg, hsome, hnone⟩ | ⟨hg, hbare, -⟩
      · rw [if_pos hg]
        rcases hm : j.segments with - | m
        · rw [hplan' (j := j) (by rw [hnone hm hprobes, hm])]
        · exact hplan' (hsome (by rw [hm]; rfl)).1
      · rw [if_neg (Generation.ne_of_next hg), plan, hbare]
        rfl
    rw [hkeep h, hkeep h', hplan, hgen, hgen']
  · obtain ⟨-, hcase⟩ := h.probed
    obtain ⟨-, hcase'⟩ := h'.probed
    have hmapped : ∀ {j : Job} {m : SegmentMap}, j.segments = some m → j.plan ≠ none := by
      intro j m hm hnone
      rw [plan, hm] at hnone
      cases hnone
    rcases hcase with ⟨hnone, hnew, -⟩ | ⟨⟨m, hm, -⟩, -, -, hseg, -⟩ <;>
      rcases hcase' with ⟨hnone', hnew', -⟩ | ⟨⟨m', hm', -⟩, -, -, hseg', -⟩
    · rw [hnew, hnew']
    · exact absurd (hplan.symm.trans hnone) (hmapped hm')
    · exact absurd (hplan.trans hnone') (hmapped hm)
    · rw [hplan' hseg, hplan' hseg', hplan]

/-- A call on the segments leaves everything but the segments, and their plan. -/
theorem header_segments (hj : j.Inv) {op : Op} {mapOp : SegmentMap.Op}
    (h : op.onSegments = some mapOp) : Header.of (j.perform op) = Header.of j ∧
      (j.perform op).id = j.id ∧ (j.perform op).spec = j.spec ∧
      (j.perform op).version = j.version := by
  rcases j.perform_segments h with ⟨e, -, he⟩ | ⟨m, -, hm, -, he⟩
  · rw [he]
    exact ⟨rfl, rfl, rfl, rfl⟩
  · rw [he]
    obtain ⟨-, -, htotal, hmaximum⟩ := sameScope_perform (hj.map m hm) (Op.onSegments_ne h)
    refine ⟨?_, rfl, rfl, rfl⟩
    simp only [Header.of, plan, hm, Option.map_some, htotal, hmaximum]

end Job

namespace Persistence

variable {H : Chronicle} {s : Store} {j : Job}

/-- A committed event: it was decided on a current copy, and its outcome is recorded. -/
def Committed (H : Chronicle) (s : Store) (event : JobEvent) : Prop :=
  ∃ k next, Decided H s event k next ∧ (H k.id.get)[event.version]? = some (Header.of next)

/-- **A copy that applies a committed event stays current at its version.** -/
theorem Owner.apply (hj : Owner H s j) {event : JobEvent} (he : Committed H s event) :
    Owner H s (j.apply event).2 := by
  rcases j.apply_cases event with ⟨e, herr⟩ | ⟨next, hid, -, hgen, hversion, hexec, -, hout, hok⟩
  · rw [herr]
    exact hj
  obtain ⟨k, next', hd, hrec⟩ := he
  have hstep := Job.execute_step hexec
  obtain ⟨hid', hspec, -⟩ := hstep.identity
  have hk : k.id = j.id := by rw [← hd.job, hid]
  have hkv : k.version = j.version := by
    have h₁ := (checkedAdd_eq_some.1 hversion).2
    have h₂ : event.version = k.version + 1 := by rw [hd.eq]
    omega
  have hheader : Header.of k = Header.of j := by
    have h₁ := hd.owner.header
    rw [hk, hkv, hj.header] at h₁
    exact (Option.some.inj h₁).symm
  have hproj : next.projection = next'.projection := by rw [hout, hd.outcome]
  have hnext : Header.of next = Header.of next' := by
    have hplan : next.plan = next'.plan := by
      refine hstep.plan_congr hd.step ?_ ?_ (congrArg JobProjection.generation hproj)
      · exact (congrArg Header.plan hheader).symm
      · exact (congrArg Header.generation hheader).symm
    simp only [Job.projection, JobProjection.mk.injEq] at hproj
    simp only [Header.of, Header.mk.injEq, hplan, and_true]
    tauto
  rw [hok]
  refine ⟨(hstep.inv hj.inv).setVersion _, ?_, ?_⟩
  · show (H next.id.get)[event.version]? = some (Header.of next)
    rw [hid', ← hk, hnext]
    exact hrec
  · show Known s next.id next.spec
    rw [hid', hspec]
    exact hj.known

theorem Owner.segments (hj : Owner H s j) {op : Job.Op} {mapOp : SegmentMap.Op}
    (h : op.onSegments = some mapOp) : Owner H s (j.perform op) := by
  obtain ⟨hheader, hid, hspec, hversion⟩ := Job.header_segments hj.inv h
  refine ⟨hj.inv.segments h, ?_, ?_⟩
  · rw [hid, hversion, hheader]
    exact hj.header
  · rw [hid, hspec]
    exact hj.known

theorem Owner.new (hs : s.Inv H) {job : JobId} {spec : JobSpec} (h : Known s job spec) :
    Owner H s (Job.new job spec) :=
  ⟨Job.inv_new job spec, hs.lawful.initial job.get, h⟩

/-- The event a current copy decides. -/
theorem Owner.decide (hj : Owner H s j) {command : JobCommand} {events : List JobEvent}
    (h : j.decide command = .ok events) {event : JobEvent} (he : event ∈ events) :
    ∃ next, Decided H s event j next := by
  obtain ⟨next, hexec, -, rfl⟩ := Job.decide_eq_ok h he
  exact ⟨next, hj, hexec, rfl⟩

end Persistence

namespace World

variable {H : Chronicle} {w : World}

/-- The discipline of the owners: events come from `decide`, and only a committed one is applied. -/
def Allows (w : World) : Action → Prop
  | .commitTransition event => event ∈ w.decided
  | .apply _ event => event ∈ w.committed
  | _ => True

/-- The worlds that can be reached under a discipline. -/
inductive Reachable (allows : World → Action → Prop) (limits : Limits) : World → Prop
  | init : Reachable allows limits (init limits)
  | step {w : World} {a : Action} (hw : Reachable allows limits w) (ha : allows w a) :
      Reachable allows limits (w.perform a).2

instance (w : World) (a : Action) : Decidable (w.Allows a) :=
  match a with
  | .commitTransition event => inferInstanceAs (Decidable (event ∈ w.decided))
  | .apply _ event => inferInstanceAs (Decidable (event ∈ w.committed))
  | .reserveId | .commitAdd _ | .remove _ _ | .commitExtents _ _ _ | .recordPublishIntent _
  | .adopt _ _ | .loadJobs | .decide _ _ | .onSegments _ _ => inferInstanceAs (Decidable True)

/-- Every step of a run is allowed when its turn comes. -/
def Permits (allows : World → Action → Prop) : World → List Action → Prop
  | _, [] => True
  | w, a :: actions => allows w a ∧ Permits allows (w.perform a).2 actions

instance decidablePermits (allows : World → Action → Prop) [h : ∀ w a, Decidable (allows w a)] :
    (w : World) → (actions : List Action) → Decidable (Permits allows w actions)
  | _, [] => inferInstanceAs (Decidable True)
  | w, a :: actions =>
    let _ := decidablePermits allows (w.perform a).2 actions
    inferInstanceAs (Decidable (allows w a ∧ Permits allows (w.perform a).2 actions))

theorem Reachable.run {allows : World → Action → Prop} {limits : Limits} {actions : List Action}
    (hw : Reachable allows limits w) (h : Permits allows w actions) :
    Reachable allows limits (w.run actions) := by
  induction actions generalizing w with
  | nil => exact hw
  | cons a actions ih => exact ih (hw.step h.1) h.2

/-- **The invariant of the disciplined world.** -/
structure Inv (H : Chronicle) (w : World) : Prop where
  store : w.store.Inv H
  owners : ∀ j ∈ w.owners, Owner H w.store j
  decided : ∀ event ∈ w.decided, ∃ j next, Decided H w.store event j next
  committed : ∀ event ∈ w.committed, Committed H w.store event
  admitted : ∀ p ∈ w.admitted, Known w.store p.1 p.2

/-- Whatever the repository does, what was said about copies and events stays true. -/
theorem Inv.store_step (hw : w.Inv H) {H' : Chronicle} {s : Store} (hs : s.Inv H')
    (hH : H.Extends H') (hr : Remembers w.store s) : Inv H' { w with store := s } :=
  { store := hs
    owners := fun j hj ↦ (hw.owners j hj).mono hH hr
    decided := fun event he ↦ by
      obtain ⟨j, next, hd⟩ := hw.decided event he
      exact ⟨j, next, hd.mono hH hr⟩
    committed := fun event he ↦ by
      obtain ⟨j, next, hd, hrec⟩ := hw.committed event he
      exact ⟨j, next, hd.mono hH hr, hH _ _ _ hrec⟩
    admitted := fun p hp ↦ hr _ _ (hw.admitted p hp) }

/-- **Step lemma**: the invariant survives, under a chronicle that has only grown. -/
theorem Inv.perform (hw : w.Inv H) {a : Action} (ha : w.Allows a) :
    ∃ H', H.Extends H' ∧ Inv H' (w.perform a).2 := by
  have hmove := w.moves_perform a
  generalize (w.perform a).2 = w' at hmove
  cases hmove with
  | refused => exact ⟨H, .refl H, hw⟩
  | reserved h =>
    obtain ⟨hs, hr⟩ := hw.store.reserveId h
    exact ⟨H, .refl H, hw.store_step hs (.refl H) hr⟩
  | added h =>
    obtain ⟨hs, hr, hknown⟩ := hw.store.commitAdd h
    refine ⟨H, .refl H, { hw.store_step hs (.refl H) hr with admitted := fun p hp ↦ ?_ }⟩
    rcases List.mem_append.1 hp with hp | hp
    · exact hr _ _ (hw.admitted p hp)
    · rw [List.mem_singleton.1 hp]
      exact hknown
  | removed h =>
    obtain ⟨hs, hr⟩ := hw.store.remove h
    exact ⟨H, .refl H, hw.store_step hs (.refl H) hr⟩
  | hardened h =>
    obtain ⟨row, now, total, maximum, existing, fresh, hh⟩ := durable_eq_ok h
    refine ⟨H, .refl H, hw.store_step (hw.store.durable h) (.refl H) ?_⟩
    rw [hh.eq]
    exact fun _ _ hk ↦ hk
  | intended h =>
    obtain ⟨now, maximum, -, -, -, -, heq⟩ := intendPublish_eq_ok h
    refine ⟨H, .refl H, hw.store_step (hw.store.intendPublish h) (.refl H) ?_⟩
    rw [heq]
    exact fun _ _ hk ↦ hk
  | @committed event s h =>
    obtain ⟨j, next, hd⟩ := hw.decided event ha
    obtain ⟨hs, hrec⟩ := hw.store.transition hd h
    obtain ⟨row, now, p, ds, st, ht⟩ := transition_eq_ok h
    have hext := H.extends_record j.id.get (Header.of next)
    have hr : Remembers w.store s := by
      rw [ht.eq]
      exact fun _ _ hk ↦ hk
    refine ⟨_, hext, { hw.store_step hs hext hr with committed := fun event' he ↦ ?_ }⟩
    rcases List.mem_append.1 he with he | he
    · exact (hw.store_step hs hext hr).committed event' he
    · rw [List.mem_singleton.1 he]
      exact ⟨j, next, hd.mono hext hr, hrec⟩
  | adopted h =>
    refine ⟨H, .refl H, { hw with owners := fun j hj ↦ ?_ }⟩
    rcases List.mem_append.1 hj with hj | hj
    · exact hw.owners j hj
    · rw [List.mem_singleton.1 hj]
      exact Owner.new hw.store (hw.admitted _ h)
  | loaded h =>
    obtain ⟨js, hjs, -, hload⟩ := hw.store.jobs
    obtain rfl := Except.ok.inj (hjs.symm.trans h)
    refine ⟨H, .refl H, { hw with owners := fun j hj ↦ ?_ }⟩
    rcases List.mem_append.1 hj with hj | hj
    · exact hw.owners j hj
    · obtain ⟨id, row, job, spec, h', ds, -, -, hl⟩ := hload j hj
      exact hl.owner
  | @decided i command j events hj h =>
    refine ⟨H, .refl H, { hw with decided := fun event he ↦ ?_ }⟩
    rcases List.mem_append.1 he with he | he
    · exact hw.decided event he
    · obtain ⟨next, hd⟩ := (hw.owners j (List.mem_of_getElem? hj)).decide h he
      exact ⟨j, next, hd⟩
  | applied hj =>
    refine ⟨H, .refl H, { hw with owners := fun k hk ↦ ?_ }⟩
    rcases List.mem_or_eq_of_mem_set hk with hk | rfl
    · exact hw.owners k hk
    · exact (hw.owners _ (List.mem_of_getElem? hj)).apply (hw.committed _ ha)
  | segments hj hop hrec =>
    refine ⟨H, .refl H, { hw with owners := fun k hk ↦ ?_ }⟩
    rcases List.mem_or_eq_of_mem_set hk with hk | rfl
    · exact hw.owners k hk
    · exact (hw.owners _ (List.mem_of_getElem? hj)).segments hop

/-- **Run lemma.** -/
theorem Reachable.inv {limits : Limits} (h : Reachable Allows limits w) : ∃ H, Inv H w := by
  induction h with
  | init => exact ⟨_, inv_empty limits, by simp [World.init], by simp [World.init],
      by simp [World.init], by simp [World.init]⟩
  | step _ ha ih =>
    obtain ⟨H, hw⟩ := ih
    obtain ⟨H', -, hw'⟩ := hw.perform ha
    exact ⟨H', hw'⟩

/-- **The repository never writes a state it cannot load.** However owners interleave, and whatever
extents and intents are offered to it: loading succeeds, every row restores, the extents of a job are
of its current generation, share no byte and lie within its plan, a publish intent is of its current
generation and has the size of its plan, and no extent or intent is left without its job. -/
theorem loads_of_reachable {limits : Limits} (h : Reachable Allows limits w) :
    (∃ js, jobs w.store = .ok js) ∧
    (∀ id row, w.store.jobs.lookup id = some row → ∃ record j now ds,
      loadRecord w.store id row = .ok record ∧ Job.restore record = .ok j ∧
      current w.store id = .ok now ∧ extents w.store.extents id now.generation = .ok ds ∧
      (∀ e ∈ w.store.extents, e.job = id → e.generation = now.generation) ∧
      ds.Pairwise (fun a b ↦ ∀ p, p ∈ a.range → p ∉ b.range) ∧
      (∀ e ∈ ds, ∃ total maximum, now.plan = some (total, maximum) ∧ e.range.stop ≤ total) ∧
      ∀ intent ∈ w.store.intents.lookup id, intent.generation = now.generation ∧
        ∃ maximum, now.plan = some (intent.size, maximum)) ∧
    ∀ id, w.store.jobs.lookup id = none →
      w.store.extents.filter (·.job = id) = [] ∧ w.store.intents.lookup id = none := by
  obtain ⟨H, hw⟩ := h.inv
  obtain ⟨js, hjs, -⟩ := hw.store.jobs
  refine ⟨⟨js, hjs⟩, fun id row hrow ↦ ?_, fun id hnone ↦ (hw.store.absent id hnone).2⟩
  obtain ⟨job, spec, h', ds, he⟩ := hw.store.entry id row hrow
  obtain ⟨j, hload, -⟩ := he.loadJob
  unfold Persistence.loadJob at hload
  obtain ⟨record, hrecord, hrestore⟩ := bind_eq_ok.1 hload
  have hrestore' : Job.restore record = .ok j := by
    rcases hr : Job.restore record with e | j' <;> rw [hr] at hrestore <;> cases hrestore
    rfl
  refine ⟨record, j, _, sorted ds, hrecord, hrestore', he.reads.current, extents_eq he.extents,
    fun e hmem hid ↦ ?_, ?_, fun e hmem ↦ ?_, fun intent hintent ↦ ?_⟩
  · have hfilter : e ∈ w.store.extents.filter (·.job = id) :=
      List.mem_filter.2 ⟨hmem, decide_eq_true hid⟩
    rw [he.extents] at hfilter
    obtain ⟨x, -, rfl⟩ := List.mem_map.1 hfilter
    rfl
  · have hapart := he.holds.apart.perm (ranges_sorted_perm ds).symm
    refine (List.pairwise_map.1 hapart).imp fun hover p hp hp' ↦ ?_
    rw [overlaps_iff.2 ⟨p, hp, hp'⟩] at hover
    cases hover
  · have hmem' := (sorted_perm ds).mem_iff.1 hmem
    obtain ⟨⟨total, maximum⟩, hplan⟩ :=
      Option.isSome_iff_exists.1 (he.holds.planned (List.ne_nil_of_mem hmem'))
    refine ⟨total, maximum, by rw [hplan]; rfl, ?_⟩
    exact Int.ofNat_le.2 (he.holds.within _ hplan e hmem')
  · obtain ⟨hgen, plan, hplan, hsize⟩ := he.intent intent hintent
    refine ⟨hgen, plan.2, ?_⟩
    rw [Option.mem_def.1 hplan, hsize]
    rfl

/-! ### A job of ten bytes -/

namespace TenBytes

theorem one_le_four : 1 ≤ 4 := by decide
theorem four_le_maxJobs : 4 ≤ 10000 := by decide
theorem four_le_eight : 4 ≤ 8 := by decide
theorem eight_le_maxReceipts : 8 ≤ 100000 := by decide
theorem zero_lt_four : 0 < 4 := by decide
theorem two_lt_six : 2 < 6 := by decide

def limits : Limits := ⟨4, 8, one_le_four, four_le_maxJobs, four_le_eight, eight_le_maxReceipts⟩

def job : JobId := ⟨1, Nat.one_ne_zero⟩

def spec : JobSpec :=
  ⟨⟨1, Nat.one_ne_zero⟩, ⟨1, Nat.one_ne_zero⟩, none, .normal, 100, by decide, by decide⟩

def unit : AddUnitOfWork :=
  ⟨Job.new job spec, Receipt.new ⟨⟨1, Nat.one_ne_zero⟩, Vector.replicate 32 0⟩ spec job⟩

def started : JobEvent :=
  ⟨job, 1, .queued, .probing, Generation.initial, .start,
    ⟨.probing, Generation.initial, none, none, none, false, 1, 0, none⟩⟩

def probed : JobEvent :=
  ⟨job, 2, .probing, .transferring, Generation.initial,
    .probeSucceeded 10 8 (some (Vector.replicate 32 3)),
    ⟨.transferring, Generation.initial, none, none, none, false, 1, 0,
      some (Vector.replicate 32 3)⟩⟩

/-- The first four bytes. -/
def head : DurableExtent := ⟨⟨0, 4, zero_lt_four, four_le_i64Max⟩, Vector.replicate 32 7⟩

/-- Four bytes that overlap the first ones. -/
def across : DurableExtent := ⟨⟨2, 6, two_lt_six, six_le_i64Max⟩, Vector.replicate 32 8⟩

/-- An owner brings the job to `transferring`. -/
def opening : List Action :=
  [.reserveId, .commitAdd unit, .adopt job spec, .decide 0 .start, .commitTransition started,
    .apply 0 started, .decide 0 (.probeSucceeded 10 8 (some (Vector.replicate 32 3))),
    .commitTransition probed, .apply 0 probed]

end TenBytes

/-- The job is opened, four bytes are committed and an overlapping batch is refused. -/
theorem loads_of_reachable_ten :
    ∃ w : World, Reachable Allows TenBytes.limits w ∧ w.committed.length = 2 ∧
      w.store.extents.length = 1 ∧ ∃ js, jobs w.store = .ok js := by
  have hreach : Reachable Allows TenBytes.limits ((init TenBytes.limits).run (TenBytes.opening ++
      [.commitExtents TenBytes.job Generation.initial [TenBytes.head],
        .commitExtents TenBytes.job Generation.initial [TenBytes.across]])) :=
    Reachable.init.run (by decide +kernel)
  exact ⟨_, hreach, by decide +kernel, by decide +kernel, (loads_of_reachable hreach).1⟩

end World

end Fhd
