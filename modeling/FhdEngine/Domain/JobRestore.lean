import FhdEngine.Domain.JobInvariant

/-!
# Restore undoes record

A repository keeps of a job its projection, version, plan, validator and durable ranges, and drops
everything else: segment boundaries and identifiers, counters, leases, the pending checkpoint.
`restore` must accept every record of a reachable job although it re-checks the rules between the
fields, and what was dropped must not matter afterwards.

The first part is a count: the original map is a partition that respects its durable bytes, so it has
at least as many segments as the canonical one that `restore` builds, and the latter fits the maximum.
The second part is a bisimulation (`Alike`): of an idle map a command can observe only the plan, the
generation and the set of durable bytes.
-/

namespace Fhd

open Tiling

namespace SegmentMap

variable {m m' : SegmentMap}

/-- The durable ranges of a map, in ascending order. -/
def durableRanges (m : SegmentMap) : List ByteRange :=
  (m.segments.filter (·.state = .durable)).map (·.range)

theorem covered_durableRanges {p : ℕ} : Covered m.durableRanges p ↔ m.DurableAt p := by
  simp only [Covered, durableRanges, DurableAt, List.mem_map, List.mem_filter, decide_eq_true_eq]
  constructor
  · rintro ⟨r, ⟨s, ⟨hs, hdur⟩, rfl⟩, hp⟩
    exact ⟨s, hs, hdur, hp⟩
  · rintro ⟨s, hs, hdur, hp⟩
    exact ⟨s.range, ⟨s, ⟨hs, hdur⟩, rfl⟩, hp⟩

namespace Inv

theorem ascending_durableRanges (h : m.Inv) : Ascending m.durableRanges :=
  List.pairwise_map.2 (h.tiles.pairwise.sublist List.filter_sublist)

theorem stop_le_of_mem_durableRanges (h : m.Inv) {r : ByteRange} (hr : r ∈ m.durableRanges) :
    r.stop ≤ m.total := by
  obtain ⟨s, hs, rfl⟩ := List.mem_map.1 hr
  exact (h.tiles.bounds (List.mem_filter.1 hs).1).2.2

/-- A byte is durable exactly when the segment it lies in is. -/
theorem durableAt_iff (h : m.Inv) {s : Segment} (hs : s ∈ m.segments) {p : ℕ} (hp : p ∈ s.range) :
    m.DurableAt p ↔ s.state = .durable := by
  constructor
  · rintro ⟨t, ht, hdur, hpt⟩
    rwa [h.tiles.eq_of_mem hs ht hp hpt]
  · exact fun hdur ↦ ⟨s, hs, hdur, hp⟩

/-- **The canonical partition is the coarsest**: a map has a segment for every run of its durable
bytes, so their number fits the maximum. -/
theorem runs_le (h : m.Inv) : (runStarts m.total (Covered m.durableRanges)).card ≤ m.maximum := by
  refine le_trans (card_runStarts_le h.tiles fun s hs p q hp hp' hq hq' ↦ ?_) h.length_le
  rw [covered_durableRanges, covered_durableRanges, h.durableAt_iff hs ⟨hp, hp'⟩,
    h.durableAt_iff hs ⟨hq, hq'⟩]

open Classical in
/-- The number of durable bytes depends only on their set. -/
theorem durableBytes_eq (h : m.Inv) :
    m.durableBytes = ((Finset.Ico 0 m.total).filter m.DurableAt).card := by
  have hsum := h.tiles.sum_filter fun s ↦ decide (s.state = .durable)
  rw [durableBytes]
  refine hsum.trans (congrArg Finset.card (Finset.filter_congr fun p _ ↦ ?_))
  simp [DurableAt, ByteRange.mem_def]

theorem durableBytes_congr (h : m.Inv) (h' : m'.Inv) (htotal : m'.total = m.total)
    (hdur : ∀ p, m'.DurableAt p ↔ m.DurableAt p) : m'.durableBytes = m.durableBytes := by
  classical
  rw [h.durableBytes_eq, h'.durableBytes_eq, htotal]
  exact congrArg Finset.card (Finset.filter_congr fun p _ ↦ hdur p)

theorem allDurable_congr (h : m.Inv) (h' : m'.Inv) (htotal : m'.total = m.total)
    (hdur : ∀ p, m'.DurableAt p ↔ m.DurableAt p) : m'.allDurable = m.allDurable := by
  rw [Bool.eq_iff_iff, h.allDurable_iff, h'.allDurable_iff, htotal]
  exact forall₂_congr fun p _ ↦ hdur p

end Inv

/-- Nothing is in flight, written or being committed. -/
def Idle (m : SegmentMap) : Prop :=
  (∀ s ∈ m.segments, s.state = .pending ∨ s.state = .durable) ∧ m.checkpoint = none

/-- Two maps a command cannot tell apart. -/
structure Alike (m m' : SegmentMap) : Prop where
  total : m'.total = m.total
  maximum : m'.maximum = m.maximum
  generation : m'.generation = m.generation
  durable : ∀ p, m'.DurableAt p ↔ m.DurableAt p
  inv : m.Inv
  inv' : m'.Inv
  idle : m.Idle
  idle' : m'.Idle

namespace Idle

theorem inFlight (h : m.Idle) : m.segments.any (·.state.isInFlight) = false := by
  rw [List.any_eq_false]
  intro s hs
  rcases h.1 s hs with hst | hst <;> simp [hst]

theorem unsynced (h : m.Idle) : m.hasUnsynced = false := by
  rw [hasUnsynced, List.any_eq_false]
  intro s hs
  rcases h.1 s hs with hst | hst <;> simp [hst]

theorem pendingCheckpoint (h : m.Idle) : m.hasPendingCheckpoint = false := by
  rw [hasPendingCheckpoint, h.2]
  rfl

end Idle

end SegmentMap

namespace Job

variable {j j' k k' : Job} {command : JobCommand}

/-- The record a repository keeps of a job. -/
def record (j : Job) : JobRecord :=
  let p := j.projection
  ⟨j.id, j.spec, j.version, p.state, p.generation, p.reason, p.retryAt, p.stop, p.replaceOnDrain,
    p.attempts, j.plan, j.validator, j.segments.elim [] SegmentMap.durableRanges⟩

/-! ### What `restore` accepts -/

/-- **What `restore` returns** when it accepts. -/
structure Rebuilt (r : JobRecord) (j : Job) : Prop where
  eq : j = ⟨r.id, r.spec, r.state, r.generation, r.version, r.reason, r.retryAt, r.stop,
    r.replaceOnDrain, r.attempts, r.validator, j.segments⟩
  inv : j.Inv
  plan : j.plan = r.plan
  idle : ∀ m ∈ j.segments, m.Idle
  durable : ∀ m ∈ j.segments, ∀ p, m.DurableAt p ↔ Covered r.durable p

theorem restoreSegments_eq_ok {r : JobRecord} {segments : Option SegmentMap}
    (h : restoreSegments r = .ok segments) : segments.map (fun m ↦ (m.total, m.maximum)) = r.plan ∧
      ∀ m ∈ segments,
        SegmentMap.restore r.id r.generation m.total m.maximum r.durable = .ok m := by
  unfold restoreSegments at h
  split at h
  next hplan =>
    cases h
    exact ⟨hplan.symm, by simp⟩
  next total maximum hplan =>
    split at h
    · cases h
    next m hm =>
      cases h
      have hres := SegmentMap.restore_eq_ok hm
      have htotal : m.total = total := by rw [hres.eq]
      have hmaximum : m.maximum = maximum := by rw [hres.eq]
      refine ⟨by rw [Option.map_some, htotal, hmaximum, hplan], fun m' hm' ↦ ?_⟩
      obtain rfl := Option.mem_some_iff.1 hm'
      rw [htotal, hmaximum]
      exact hm

/-- **A restored job satisfies the invariant** and is what its record says. -/
theorem restore_eq_ok {r : JobRecord} (h : restore r = .ok j) : Rebuilt r j := by
  unfold restore at h
  split at h
  · cases h
  next hcons =>
    obtain ⟨hstop, hreplace, hretry, hreason, hplanned, hbare, hle⟩ :=
      of_decide_eq_true (not_not.1 hcons)
    split at h
    · cases h
    next segments hseg =>
      obtain ⟨hplan, hbuilt⟩ := restoreSegments_eq_ok hseg
      have hres := fun m hm ↦ SegmentMap.restore_eq_ok (hbuilt m hm)
      have hinv := fun m hm ↦ SegmentMap.Inv.of_restore (hbuilt m hm)
      have hsome : r.plan.isSome = segments.isSome := by rw [← hplan, Option.isSome_map]
      have hidle : ∀ m ∈ segments, m.Idle := fun m hm ↦
        ⟨(hres m hm).states, by rw [(hres m hm).eq]⟩
      split at h
      · cases h
      next hcomplete =>
        cases h
        refine ⟨rfl, ?_, hplan, hidle, fun m hm ↦ (hres m hm).durable_iff⟩
        exact {
          stop_iff := hstop
          replace := fun h ↦ hreplace.resolve_left (not_not.2 h)
          retryAt_iff := hretry
          reason := fun h ↦ hreason.resolve_right (not_not.2 h)
          planned := fun h ↦ by
            rw [← hsome]
            exact hplanned.resolve_right (not_not.2 (h.imp_right isComplete_iff.1))
          complete := fun h m hm ↦ by
            rw [not_and, not_not] at hcomplete
            have hall := hcomplete (isComplete_iff.1 h)
            rw [show segments = some m from hm] at hall
            exact (hinv m hm).allDurable_iff.1 hall
          inFlight := fun m hm s hs h ↦ by
            rcases (hidle m hm).1 s hs with hst | hst <;> simp [hst] at h
          checkpoint := fun m hm h ↦ by
            rw [(hidle m hm).2] at h
            cases h
          written := fun m hm s hs h ↦ by
            rcases (hidle m hm).1 s hs with hst | hst <;> simp [hst] at h
          total_le := fun m hm ↦ by
            rw [← hplan, show segments = some m from hm] at hle
            simpa using hle
          validator := fun h ↦ by
            have hnone : ¬r.plan.isSome := by
              rw [hsome]
              simpa using h
            simpa using (hbare.resolve_left hnone).2
          generation := fun m hm ↦ by rw [(hres m hm).eq]
          job := fun m hm ↦ by rw [(hres m hm).eq]
          map := hinv }

/-- **`restore` accepts** every consistent record whose durable ranges fit its plan. -/
theorem restore_isOk {r : JobRecord} (hcons : consistent r = true)
    (hcomplete : isComplete r.state → r.plan.isSome)
    (hplan : ∀ total maximum, r.plan = some (total, maximum) → total ≤ i64Max ∧ 1 ≤ maximum ∧
      maximum ≤ maxSegments ∧ Ascending r.durable ∧ (∀ x ∈ r.durable, x.stop ≤ total) ∧
      (runStarts total (Covered r.durable)).card ≤ maximum ∧
      (isComplete r.state → ∀ p < total, Covered r.durable p)) :
    ∃ j, restore r = .ok j := by
  unfold restore
  rw [if_neg (by simp [hcons])]
  rcases hp : r.plan with - | ⟨total, maximum⟩
  · have hseg : restoreSegments r = .ok none := by
      unfold restoreSegments
      rw [hp]
    rw [hseg]
    dsimp only
    rw [if_neg]
    · exact ⟨_, rfl⟩
    · rintro ⟨hstate, -⟩
      have := hcomplete (isComplete_iff.2 hstate)
      rw [hp] at this
      cases this
  · obtain ⟨htotal, hpos, hmax, hasc, hle, hfit, hall⟩ := hplan total maximum hp
    obtain ⟨m, hm⟩ := SegmentMap.restore_isOk r.id r.generation htotal hpos hmax hasc hle hfit
    have hres := SegmentMap.restore_eq_ok hm
    have hseg : restoreSegments r = .ok (some m) := by
      unfold restoreSegments
      rw [hp]
      dsimp only
      rw [hm]
    rw [hseg]
    dsimp only
    rw [if_neg]
    · exact ⟨_, rfl⟩
    · rintro ⟨hstate, hno⟩
      refine hno ((SegmentMap.Inv.of_restore hm).allDurable_iff.2 fun p hp ↦ ?_)
      rw [hres.durable_iff]
      refine hall (isComplete_iff.2 hstate) p ?_
      rwa [hres.eq] at hp

/-! ### The record is accepted -/

/-- Any record with the fields of a reachable job is consistent, whatever its durable ranges are, as
long as there are none without a plan. -/
theorem Inv.consistent_record (hj : j.Inv) (id : JobId) (version : ℕ) {durable : List ByteRange}
    (hbare : j.segments = none → durable = []) :
    consistent { j.record with id := id, version := version, durable := durable } = true := by
  have hplan : j.plan.isSome = j.segments.isSome := Option.isSome_map
  refine decide_eq_true ⟨hj.stop_iff, ?_, hj.retryAt_iff, ?_, ?_, ?_, ?_⟩
  · by_cases h : j.replaceOnDrain = true
    · exact Or.inr (hj.replace h)
    · exact Or.inl h
  · by_cases h : j.state = .needsAction ∨ j.state = .failed
    · exact Or.inl (hj.reason h)
    · exact Or.inr h
  · show j.plan.isSome ∨ _
    rw [hplan]
    by_cases h : j.state = .transferring ∨ isComplete j.state
    · exact Or.inl (hj.planned h)
    · exact Or.inr fun h' ↦ h (h'.imp_right isComplete_iff.2)
  · show j.plan.isSome ∨ _
    rw [hplan]
    rcases hm : j.segments with - | m
    · exact Or.inr ⟨by simp [hbare hm], by simp [record, hj.validator hm]⟩
    · exact Or.inl rfl
  · rcases hm : j.segments with - | m
    · simp [record, plan, hm]
    · simpa [record, plan, hm] using hj.total_le m hm

/-- **The record of a reachable job is accepted**, and the job comes back with the same fields and a
map that has the same plan, generation and durable bytes. -/
theorem Inv.restore_record (hj : j.Inv) :
    ∃ s', restore j.record = .ok { j with segments := s' } ∧
      (j.segments = none ∧ s' = none ∨ ∃ m m', j.segments = some m ∧ s' = some m' ∧ m'.Inv ∧
        m'.Idle ∧ m'.total = m.total ∧ m'.maximum = m.maximum ∧ m'.generation = m.generation ∧
        ∀ p, m'.DurableAt p ↔ m.DurableAt p) := by
  have hplan : j.record.plan = j.plan := rfl
  have hok : ∃ j', restore j.record = .ok j' := by
    have hbare : j.segments = none → j.record.durable = [] := fun hm ↦ by rw [record, hm]; rfl
    refine restore_isOk (hj.consistent_record j.id j.version hbare) (fun hc ↦ ?_) fun total maximum h ↦ ?_
    · rw [hplan, plan, Option.isSome_map]
      exact hj.planned (Or.inr hc)
    · obtain ⟨m, hm, hm'⟩ := Option.map_eq_some_iff.1 (hplan.symm.trans h)
      cases hm'
      have hinv := hj.map m hm
      have hdur : j.record.durable = m.durableRanges := by rw [record, hm]; rfl
      rw [hdur]
      refine ⟨hinv.total_le, hinv.maximum_pos, hinv.maximum_le, hinv.ascending_durableRanges,
        fun r hr ↦ hinv.stop_le_of_mem_durableRanges hr, hinv.runs_le, fun hc p hp ↦ ?_⟩
      rw [SegmentMap.covered_durableRanges]
      exact hj.complete hc m hm p hp
  obtain ⟨j', hj'⟩ := hok
  have hreb := restore_eq_ok hj'
  refine ⟨j'.segments, by rw [hj', hreb.eq]; rfl, ?_⟩
  have hsome : j'.segments.map (fun m ↦ (m.total, m.maximum)) =
      j.segments.map fun m ↦ (m.total, m.maximum) := hreb.plan
  rcases hm : j.segments with - | m
  · rw [hm] at hsome
    exact Or.inl ⟨rfl, by simpa using hsome⟩
  · rw [hm] at hsome
    obtain ⟨m', hm', hsame⟩ := Option.map_eq_some_iff.1 hsome
    rw [Prod.mk.injEq] at hsame
    refine Or.inr ⟨m, m', rfl, hm', hreb.inv.map m' hm', hreb.idle m' hm', hsame.1, hsame.2,
      ?_, fun p ↦ (hreb.durable m' hm' p).trans ?_⟩
    · rw [hreb.inv.generation m' hm', hj.generation m hm, hreb.eq]
      rfl
    · rw [← SegmentMap.covered_durableRanges, record, hm]
      rfl

/-! ### What was dropped does not matter -/

/-- Two jobs that differ at most in idle maps a command cannot tell apart. -/
inductive Alike (j : Job) : Job → Prop
  | bare (hm : j.segments = none) : Alike j j
  | mapped {m m' : SegmentMap} (hm : j.segments = some m) (h : m.Alike m') :
      Alike j { j with segments := some m' }

/-- The same answer, and jobs that are alike if it is an acceptance. -/
inductive Matches : Except DomainError (Bool × Job) → Except DomainError (Bool × Job) → Prop
  | error (e : DomainError) : Matches (.error e) (.error e)
  | ok (b : Bool) {k k' : Job} (h : Alike k k') : Matches (.ok (b, k)) (.ok (b, k'))

/-- A fresh map is idle, and alike to itself. -/
theorem alike_fresh {m : SegmentMap} {job : JobId} {generation : Generation} {total maximum : ℕ}
    (h : SegmentMap.new job generation total maximum = .ok m) : m.Alike m := by
  have hinv := SegmentMap.Inv.of_new h
  have hidle : m.Idle := SegmentMap.Built.idle (Or.inl ⟨job, generation, total, maximum, h⟩)
  exact ⟨rfl, rfl, rfl, fun _ ↦ Iff.rfl, hinv, hinv, hidle, hidle⟩

namespace Alike

theorem projection (h : Alike j j') : j'.projection = j.projection := by
  cases h with
  | bare hm => rfl
  | mapped hm h =>
    simp only [Job.projection, hm, Option.elim_some]
    rw [h.inv.durableBytes_congr h.inv' h.total h.durable]

section Mapped

variable {m m' : SegmentMap} (hm : j.segments = some m) (h : m.Alike m')
include hm h

theorem allDurable : Job.allDurable { j with segments := some m' } = j.allDurable := by
  simp only [Job.allDurable, hm, Option.any_some]
  exact h.inv.allDurable_congr h.inv' h.total h.durable

theorem quiescent : Job.quiescent { j with segments := some m' } = j.quiescent := by
  simp [Job.quiescent, hasActiveLeases, hm, h.idle.inFlight, h.idle'.inFlight,
    h.idle.pendingCheckpoint, h.idle'.pendingCheckpoint]

theorem settled : Job.settled { j with segments := some m' } = j.settled := by
  have hq := quiescent hm h
  simp only [Job.settled, hq, hm, Option.any_some, h.idle.unsynced, h.idle'.unsynced]

theorem resumed : Job.resumed { j with segments := some m' } = j.resumed := by
  rw [Job.resumed, Job.resumed, allDurable hm h]

theorem land (target : StopTarget) :
    Alike (Job.land j target) (Job.land { j with segments := some m' } target) := by
  cases target with
  | verifying =>
    have hdur := allDurable hm h
    simp only [Job.land, hdur]
    split <;> exact .mapped hm h
  | _ => exact .mapped hm h

theorem probed (total maxSegments : ℕ) (validator : Option Digest) :
    Matches (Job.probed j total maxSegments validator)
      (Job.probed { j with segments := some m' } total maxSegments validator) := by
  unfold Job.probed
  dsimp only
  split
  · exact .error _
  · rw [hm]
    dsimp only
    rw [h.total, h.generation]
    split
    · exact .error _
    · exact .ok _ (.mapped hm h)

theorem raised (command : JobCommand) :
    Matches (Job.raised j command) (Job.raised { j with segments := some m' } command) := by
  unfold Job.raised
  split
  · exact .error _
  dsimp only
  split
  · exact .error _
  split
  · exact .ok _ (.mapped hm h)
  · exact .ok _ (.mapped hm h)

theorem drained :
    Matches (Job.drained j) (Job.drained { j with segments := some m' }) := by
  unfold Job.drained
  rw [settled hm h]
  dsimp only
  split
  · exact .error _
  split
  · exact .error _
  split
  · split
    · exact .error _
    · exact .ok _ (.bare (land_segments _ _))
  · refine .ok _ ?_
    exact land (j := { j with stop := none }) hm h _

end Mapped

end Alike

/-- A job without a map is left without one, or with a fresh one. -/
theorem alike_self_of_step (h : Step j command k) (hm : j.segments = none) : Alike k k := by
  cases h with
  | probeKept hstate hle hm' htotal hgen hvalidator => rw [hm] at hm'; cases hm'
  | probeFresh hstate hle hnone hnew => exact .mapped rfl (alike_fresh hnew)
  | drained hstate hstop hsettled hreplace => exact .bare ((land_segments _ _).trans hm)
  | replacedOnDrain hstate hstop hreplace hnext => exact .bare (land_segments _ _)
  | replaced hfrom hnext => exact .bare rfl
  | _ => exact .bare hm

/-- **Commands cannot tell alike jobs apart.** -/
theorem Alike.execute (h : Alike j j') (command : JobCommand) :
    Matches (Job.execute j command) (Job.execute j' command) := by
  cases h with
  | bare hm =>
    rcases hexec : Job.execute j command with e | ⟨b, k⟩
    · exact .error e
    refine .ok b ?_
    cases b with
    | false =>
      obtain rfl := execute_noop hexec
      exact .bare hm
    | true => exact alike_self_of_step (execute_step hexec) hm
  | mapped hm h =>
    have hdur := Alike.allDurable hm h
    have hquiet := Alike.quiescent hm h
    have hresumed := Alike.resumed hm h
    have hprobed := Alike.probed hm h
    have hraised := Alike.raised hm h command
    have hdrained := Alike.drained hm h
    obtain ⟨id, spec, state, generation, version, reason, retryAt, stop, replaceOnDrain, attempts,
      validator, segments⟩ := j
    cases state <;> cases command
    case transferring.allSegmentsDurable =>
      simp only [Job.execute, hdur]
      split
      · exact .error _
      · exact .ok _ (.mapped hm h)
    case stopping.resume =>
      simp only [Job.execute, hdur]
      split
      · exact .ok _ (.mapped hm h)
      · exact .ok _ (.mapped hm h)
    case stopping.representationChanged =>
      simp only [Job.execute]
      split
      · exact .ok _ (.mapped hm h)
      split
      · exact .error _
      · exact .ok _ (.mapped hm h)
    case paused.resume | failed.resume =>
      simp only [Job.execute, hresumed]
      exact .ok _ (.mapped hm h)
    case needsAction.resume =>
      simp only [Job.execute, hresumed]
      split
      · exact .error _
      · exact .ok _ (.mapped hm h)
    case retryWait.retryDue nowTick =>
      simp only [Job.execute]
      split
      · exact .error _
      · exact .ok _ (.mapped hm h)
    case cancelling.cleanupFinished =>
      simp only [Job.execute, hquiet]
      split
      · exact .error _
      · exact .ok _ (.mapped hm h)
    case needsAction.replaceRepresentation | paused.replaceRepresentation |
        failed.replaceRepresentation =>
      simp only [Job.execute]
      split
      · exact .error _
      · exact .ok _ (.bare rfl)
    all_goals first
      | exact .error _
      | exact .ok _ (.mapped hm h)
      | exact hprobed _ _ _
      | exact hraised
      | exact hdrained

/-- The answers to a sequence of commands, with the projection after each. -/
def answers (j : Job) : List JobCommand → List (Except DomainError (List JobEvent) × JobProjection)
  | [] => []
  | command :: commands =>
    ((j.handle command).1, (j.handle command).2.projection) ::
      answers (j.handle command).2 commands

namespace Alike

/-- The fields every guard reads besides the map. -/
theorem fields (h : Alike j j') : j'.id = j.id ∧ j'.state = j.state ∧ j'.generation = j.generation ∧
    j'.version = j.version := by
  cases h <;> exact ⟨rfl, rfl, rfl, rfl⟩

theorem setVersion (h : Alike j j') (version : ℕ) :
    Alike { j with version := version } { j' with version := version } := by
  cases h with
  | bare hm => exact .bare hm
  | mapped hm h => exact .mapped hm h

theorem decide (h : Alike j j') (command : JobCommand) : j'.decide command = j.decide command := by
  obtain ⟨hid, hstate, hgen, hversion⟩ := h.fields
  unfold Job.decide
  rw [hid, hstate, hgen, hversion]
  have hmatch := h.execute command
  generalize Job.execute j command = x at hmatch ⊢
  generalize Job.execute j' command = x' at hmatch ⊢
  cases hmatch with
  | error e => rfl
  | ok b hk =>
    cases b with
    | false => rfl
    | true =>
      dsimp only
      rw [hk.fields.2.1, hk.projection]

theorem apply (h : Alike j j') (event : JobEvent) :
    (j'.apply event).1 = (j.apply event).1 ∧ Alike (j.apply event).2 (j'.apply event).2 := by
  obtain ⟨hid, hstate, hgen, hversion⟩ := h.fields
  unfold Job.apply
  rw [hid, hstate, hgen, hversion]
  split
  · exact ⟨rfl, h⟩
  have hmatch := h.execute event.command
  generalize Job.execute j event.command = x at hmatch ⊢
  generalize Job.execute j' event.command = x' at hmatch ⊢
  cases hmatch with
  | error e => exact ⟨rfl, h⟩
  | ok b hk =>
    dsimp only
    rw [hk.projection]
    split
    next hrefused =>
      rw [if_pos (by rwa [← hk.fields.2.1])]
      exact ⟨rfl, h⟩
    next haccepted =>
      rw [if_neg (by rwa [← hk.fields.2.1])]
      exact ⟨rfl, hk.setVersion _⟩

theorem applyAll (h : Alike j j') (events : List JobEvent) :
    (j'.applyAll events).1 = (j.applyAll events).1 ∧
      Alike (j.applyAll events).2 (j'.applyAll events).2 := by
  induction events generalizing j j' with
  | nil => exact ⟨rfl, h⟩
  | cons event events ih =>
    obtain ⟨hanswer, halike⟩ := h.apply event
    unfold Job.applyAll
    rcases hj : j.apply event with ⟨r, k⟩
    rcases hj' : j'.apply event with ⟨r', k'⟩
    rw [hj, hj'] at hanswer halike
    obtain rfl : r' = r := hanswer
    cases r' with
    | error e => exact ⟨rfl, halike⟩
    | ok _ => exact ih halike

theorem handle (h : Alike j j') (command : JobCommand) :
    (j'.handle command).1 = (j.handle command).1 ∧
      Alike (j.handle command).2 (j'.handle command).2 := by
  unfold Job.handle
  rw [h.decide command]
  split
  · exact ⟨rfl, h⟩
  next events _ =>
    obtain ⟨hanswer, halike⟩ := h.applyAll events
    rcases hj : j.applyAll events with ⟨r, k⟩
    rcases hj' : j'.applyAll events with ⟨r', k'⟩
    rw [hj, hj'] at hanswer halike
    obtain rfl : r' = r := hanswer
    cases r' <;> exact ⟨rfl, halike⟩

/-- **Alike jobs give the same answers for ever.** -/
theorem answers (h : Alike j j') (commands : List JobCommand) :
    j'.answers commands = j.answers commands := by
  induction commands generalizing j j' with
  | nil => rfl
  | cons command commands ih =>
    obtain ⟨hanswer, halike⟩ := h.handle command
    rw [Job.answers, Job.answers, hanswer, halike.projection, ih halike]

end Alike

/-! ### Restore undoes record -/

/-- A byte is still to be fetched. -/
def PendingAt (m : SegmentMap) (p : ℕ) : Prop := ∃ s ∈ m.segments, s.state = .pending ∧ p ∈ s.range

/-- Nothing is in flight, written or being committed. -/
def Idle (j : Job) : Prop :=
  ∀ m ∈ j.segments, m.checkpoint = none ∧
    ∀ s ∈ m.segments, s.state.isInFlight = false ∧ s.state.isWritten = false

theorem Idle.map (h : j.Idle) {m : SegmentMap} (hm : j.segments = some m) : m.Idle := by
  obtain ⟨hc, hs⟩ := h m hm
  refine ⟨fun s hmem ↦ ?_, hc⟩
  obtain ⟨hin, hw⟩ := hs s hmem
  cases hst : s.state <;> rw [hst] at hin hw <;> first | exact Or.inl rfl | exact Or.inr rfl | skip
  · cases hin
  · cases hw

/-- In an idle map what is not durable is pending. -/
theorem pendingAt_of_not_durableAt {m : SegmentMap} (hinv : m.Inv) (hidle : m.Idle) {p : ℕ}
    (hp : p < m.total) (hnot : ¬m.DurableAt p) : PendingAt m p := by
  obtain ⟨s, hs, hmem⟩ := hinv.tiles.exists_mem (Nat.zero_le p) hp
  rcases hidle.1 s hs with hst | hst
  · exact ⟨s, hs, hst, hmem⟩
  · exact absurd ⟨s, hs, hst, hmem⟩ hnot

/-- **Restore undoes record.** The record of a reachable job is accepted and yields the same
projection, version, plan, validator and durable bytes, everything else pending; and if the original
was idle, the restored job answers every sequence of commands as the original would. -/
theorem restore_record_run (id : JobId) (spec : JobSpec) (ops : List Op) :
    ∃ j', restore ((new id spec).run ops).record = .ok j' ∧
      j'.projection = ((new id spec).run ops).projection ∧
      j'.version = ((new id spec).run ops).version ∧ j'.plan = ((new id spec).run ops).plan ∧
      j'.validator = ((new id spec).run ops).validator ∧
      (∀ p, (∃ m ∈ j'.segments, m.DurableAt p) ↔
        ∃ m ∈ ((new id spec).run ops).segments, m.DurableAt p) ∧
      (∀ m ∈ j'.segments, ∀ p < m.total, ¬m.DurableAt p → PendingAt m p) ∧
      (((new id spec).run ops).Idle → ∀ commands,
        j'.answers commands = ((new id spec).run ops).answers commands) := by
  have hj := inv_run_new id spec ops
  obtain ⟨s', hrestore, hcase⟩ := hj.restore_record
  refine ⟨_, hrestore, ?_⟩
  rcases hcase with ⟨hm, rfl⟩ | ⟨m, m', hm, rfl, hinv', hidle', htotal, hmax, hgen, hdur⟩
  · have hsame : { (new id spec).run ops with segments := none } = (new id spec).run ops := by
      rw [← hm]
    rw [hsame]
    refine ⟨rfl, rfl, rfl, rfl, fun _ ↦ Iff.rfl, ?_, fun _ _ ↦ rfl⟩
    rw [hm]
    simp
  · have hinv := hj.map m hm
    refine ⟨?_, rfl, ?_, rfl, fun p ↦ ?_, ?_, fun hidle commands ↦ ?_⟩
    · simp only [projection, hm, Option.elim_some]
      rw [hinv.durableBytes_congr hinv' htotal hdur]
    · simp [plan, hm, htotal, hmax]
    · simp only [hm, Option.mem_some_iff, exists_eq_left']
      exact hdur p
    · intro m'' hm'' p hp hnot
      obtain rfl := Option.mem_some_iff.1 hm''
      exact pendingAt_of_not_durableAt hinv' hidle' hp hnot
    · exact (Alike.mapped hm ⟨htotal, hmax, hgen, hdur, hinv, hinv', hidle.map hm, hidle'⟩).answers
        commands

end Job

end Fhd
