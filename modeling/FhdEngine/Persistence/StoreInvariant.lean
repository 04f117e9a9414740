import FhdEngine.Persistence.Chronicle
import FhdEngine.Persistence.Transfer
import FhdEngine.Persistence.Admission

/-!
# The repository never writes a state it cannot load

Five transactions write to the same tables, each with checks of its own, and one reader checks
everything at once. `Store.Inv` says what the tables hold together, job by job: the newest header of
the chronicle is what the state row says, some reachable job has that header, the extents are of its
generation and hold within its plan (`Holds`), and an intent is of its generation and size.

Every transaction keeps it (`Inv.transition`, `Inv.durable`, `Inv.intendPublish`, `Inv.commitAdd`,
`Inv.remove`), whatever its arguments; only a transition has to come from a copy that was current at
its version (`Owner`). Reading never fails on a store that satisfies it, and what is read back is again
such a copy (`Inv.jobs`).
-/

namespace Fhd

open Fallible

namespace Persistence

variable {H : Chronicle} {s s' : Store} {id : ℤ} {h : Header}

/-! ### What the rows of a job say -/

/-- What a row of `job_state`, or its absence, says of a job. -/
def Reads (row : Option StateRow) (h : Header) : Prop :=
  match row with
  | none => h = Header.initial
  | some row => decodeState row = .ok h

theorem Reads.current (hs : Reads (s.states.lookup id) h) :
    current s id = .ok ⟨h.state, h.generation.get, columns h.plan, h.validator⟩ := by
  unfold Persistence.current
  split
  next hrow =>
    rw [hrow] at hs
    obtain rfl : h = Header.initial := hs
    rfl
  next row hrow =>
    rw [hrow] at hs
    obtain ⟨hstate, hgen, hplan, hval⟩ := decodeState_eq_ok hs
    rw [hstate, hplan, hgen, hval]
    rfl

/-- A receipt names this job and its specification. Receipts are never deleted. -/
def Known (s : Store) (job : JobId) (spec : JobSpec) : Prop :=
  ∃ key row, s.receipts.lookup key = some row ∧ row.jobId = job.get ∧ row.spec = encodeSpec spec

/-- A copy of a job that is current at its version. -/
structure Owner (H : Chronicle) (s : Store) (j : Job) : Prop where
  inv : j.Inv
  header : (H j.id.get)[j.version]? = some (Header.of j)
  known : Known s j.id j.spec

/-- The extents that may be stored under a header. -/
structure Holds (h : Header) (extents : List DurableExtent) : Prop where
  planned : extents ≠ [] → h.plan.isSome
  apart : Apart (ranges extents)
  within : ∀ plan ∈ h.plan, ∀ e ∈ extents, e.range.stop ≤ plan.1
  fits : ∀ plan ∈ h.plan, restoredSegments (ranges extents) plan.1 ≤ plan.2
  complete : Job.isComplete h.state → ∀ plan ∈ h.plan, ∀ p < plan.1, Covered (ranges extents) p

/-- An intent that may be stored under a header. -/
def Intended (h : Header) (intent : IntentRow) : Prop :=
  intent.generation = h.generation.get ∧ ∃ plan ∈ h.plan, intent.size = plan.1

/-- **The rows of one job.** -/
structure StoredJob (H : Chronicle) (s : Store) (id : ℤ) (row : JobsRow) (job : JobId) (spec : JobSpec)
    (h : Header) (ds : List DurableExtent) : Prop where
  id_eq : id = job.get
  id_le : job.get ≤ i64Max
  spec_eq : row.spec = encodeSpec spec
  known : Known s job spec
  version : row.version + 1 = (H id).length
  newest : (H id).getLast? = some h
  reads : Reads (s.states.lookup id) h
  backed : ∃ j : Job, j.Inv ∧ j.spec = spec ∧ Header.of j = h
  extents : s.extents.filter (·.job = id) = ds.map (ExtentRow.of id h.generation.get)
  holds : Holds h ds
  intent : ∀ i ∈ s.intents.lookup id, Intended h i

/-- **The invariant of the repository.** -/
structure Store.Inv (H : Chronicle) (s : Store) : Prop where
  lawful : H.Lawful
  entry : ∀ id row, s.jobs.lookup id = some row → ∃ job spec h ds, StoredJob H s id row job spec h ds
  absent : ∀ id, s.jobs.lookup id = none → s.states.lookup id = none ∧
    s.extents.filter (·.job = id) = [] ∧ s.intents.lookup id = none
  unique : ∀ key key' row row', s.receipts.lookup key = some row →
    s.receipts.lookup key' = some row' → row.jobId = row'.jobId → key = key'
  fresh : ∀ id, (∀ key row, s.receipts.lookup key = some row → row.jobId ≠ id) →
    H id = [Header.initial]

/-- Nothing that a receipt said is lost. -/
def Remembers (s s' : Store) : Prop := ∀ job spec, Known s job spec → Known s' job spec

theorem Owner.mono {H' : Chronicle} {j : Job} (hj : Owner H s j) (hH : H.Extends H')
    (hs : Remembers s s') : Owner H' s' j :=
  ⟨hj.inv, hH _ _ _ hj.header, hs _ _ hj.known⟩

/-- **Frame**: an entry depends on the rows of its own job only. -/
theorem StoredJob.frame {H' : Chronicle} {row : JobsRow} {job : JobId} {spec : JobSpec}
    {ds : List DurableExtent} (he : StoredJob H s id row job spec h ds) (hH : H' id = H id)
    (hs : Remembers s s') (hstates : s'.states.lookup id = s.states.lookup id)
    (hextents : s'.extents.filter (·.job = id) = s.extents.filter (·.job = id))
    (hintents : s'.intents.lookup id = s.intents.lookup id) :
    StoredJob H' s' id row job spec h ds :=
  { he with
    known := hs _ _ he.known
    version := by rw [hH]; exact he.version
    newest := by rw [hH]; exact he.newest
    reads := by rw [hstates]; exact he.reads
    extents := by rw [hextents]; exact he.extents
    intent := by rw [hintents]; exact he.intent }

/-- Two receipts for one job are one, so its specification is determined. -/
theorem Store.Inv.spec_unique (hs : s.Inv H) {job : JobId} {spec spec' : JobSpec}
    (hk : Known s job spec) (hk' : Known s job spec') : spec = spec' := by
  obtain ⟨key, row, hrow, hid, hspec⟩ := hk
  obtain ⟨key', row', hrow', hid', hspec'⟩ := hk'
  obtain rfl := hs.unique key key' row row' hrow hrow' (hid.trans hid'.symm)
  obtain rfl : row = row' := Option.some.inj (hrow.symm.trans hrow')
  have hdecode := decodeSpec_encodeSpec spec
  rw [← hspec, hspec', decodeSpec_encodeSpec] at hdecode
  exact (Except.ok.inj hdecode).symm

/-- The empty repository. -/
theorem inv_empty (limits : Limits) : (Store.empty limits).Inv Chronicle.start := by
  refine ⟨Chronicle.lawful_start, ?_, ?_, ?_, fun _ _ ↦ rfl⟩
  · intro id row h
    cases h
  · intro id _
    exact ⟨rfl, rfl, rfl⟩
  · intro key key' row row' h
    cases h

/-! ### Transitions -/

/-- An event decided on a copy that was current at its version, with the job it leads to. -/
structure Decided (H : Chronicle) (s : Store) (event : JobEvent) (j next : Job) : Prop where
  owner : Owner H s j
  executes : j.execute event.command = .ok (true, next)
  eq : event = ⟨j.id, j.version + 1, j.state, next.state, j.generation, event.command,
    next.projection⟩

theorem Decided.mono {H' : Chronicle} {event : JobEvent} {j next : Job} (hd : Decided H s event j next)
    (hH : H.Extends H') (hs : Remembers s s') : Decided H' s' event j next :=
  ⟨hd.owner.mono hH hs, hd.executes, hd.eq⟩

/-- Only the end of a probe changes the plan of a generation. -/
theorem planAfter_of_not_probes {command : JobCommand} {plan : Option (ℤ × ℤ)}
    (h : command.probes = false) : planAfter false command plan = .ok plan := by
  cases command with
  | probeSucceeded => cases h
  | _ => rfl

/-- **The plan the repository writes is the plan the job has**, although the two are computed by
different code. -/
theorem plan_of_step {j next : Job} {command : JobCommand} (hstep : Job.Step j command next)
    {p : Option (ℤ × ℤ)}
    (hp : planAfter (Decidable.decide (next.generation ≠ j.generation)) command (columns j.plan) = .ok p) :
    p = columns next.plan := by
  rcases hstep.representation with ⟨hgen, hkeep, hbare⟩ | ⟨hnext, hnone, -⟩
  · rw [decide_eq_false (by simpa using hgen)] at hp
    rcases command.probes_cases with hprobes | ⟨total, maxSegments, validator, hc⟩
    · rw [planAfter_of_not_probes hprobes] at hp
      cases hp
      rcases hm : j.segments with - | m
      · rw [Job.plan, Job.plan, hm, hbare hm hprobes]
      · rw [Job.plan, Job.plan, (hkeep (by rw [hm]; rfl)).1]
    · rw [hc] at hp hstep
      rcases hstep.probed.2 with ⟨hnone, hnew, -⟩ | ⟨⟨m, hm, -⟩, -, -, hseg, -⟩
      · rw [hnone] at hp
        obtain ⟨t, ht, hp⟩ := bind_eq_ok.1 hp
        obtain ⟨n, hn, hp⟩ := bind_eq_ok.1 hp
        cases hp
        rw [hnew, (stored_eq_ok.1 ht).2, (stored_eq_ok.1 hn).2]
        rfl
      · rw [Job.plan, hm] at hp
        obtain ⟨_, -, hp⟩ := bind_eq_ok.1 hp
        obtain ⟨_, -, hp⟩ := bind_eq_ok.1 hp
        cases hp
        rw [Job.plan, hseg, hm]
        rfl
  · rw [decide_eq_true (Generation.ne_of_next hnext)] at hp
    cases hp
    rw [Job.plan, hnone]
    rfl

namespace Decided

variable {event : JobEvent} {j next : Job} (hd : Decided H s event j next)
include hd

theorem step : Job.Step j event.command next := Job.execute_step hd.executes

theorem job : event.job = j.id := by rw [hd.eq]

theorem outcome : event.outcome = next.projection := by rw [hd.eq]

theorem inv_next : next.Inv := hd.step.inv hd.owner.inv

theorem replaces_eq : replaces event = Decidable.decide (next.generation ≠ j.generation) := by
  rw [hd.eq]
  rfl

theorem plan_eq {p : Option (ℤ × ℤ)}
    (hp : planAfter (replaces event) event.command (columns j.plan) = .ok p) :
    p = columns next.plan := by
  rw [hd.replaces_eq] at hp
  exact plan_of_step hd.step hp

end Decided

/-- A plan without extents fits. -/
theorem holds_nil (hmax : ∀ plan ∈ h.plan, 1 ≤ plan.2)
    (hcomplete : Job.isComplete h.state → ∀ plan ∈ h.plan, plan.1 = 0) : Holds h [] := by
  refine ⟨by simp, List.Pairwise.nil, by simp, fun plan hplan ↦ ?_, fun hc plan hplan p hp ↦ ?_⟩
  · have := hmax plan hplan
    show 0 + (if 0 < plan.1 then 1 else 0) ≤ plan.2
    split <;> omega
  · rw [hcomplete hc plan hplan] at hp
    omega

/-- The bytes a complete job counts are all of them. -/
theorem durableBytes_of_complete {j : Job} (hj : j.Inv) (hc : Job.isComplete j.state) {m : SegmentMap}
    (hm : j.segments = some m) : j.projection.durableBytes = m.total := by
  classical
  have hinv := hj.map m hm
  have hall : (Finset.Ico 0 m.total).filter m.DurableAt = Finset.Ico 0 m.total := by
    refine Finset.filter_true_of_mem fun p hp ↦ ?_
    exact hj.complete hc m hm p (Finset.mem_Ico.1 hp).2
  have hbytes : j.projection.durableBytes = m.durableBytes := by rw [Job.projection, hm]; rfl
  rw [hbytes, hinv.durableBytes_eq, hall, Nat.card_Ico, Nat.sub_zero]

/-- What a transition keeps of the extents holds under the new header. -/
theorem Holds.step {j next : Job} {command : JobCommand} {ds : List DurableExtent}
    (hds : Holds (Header.of j) ds) (hstep : Job.Step j command next) (hnext : next.Inv)
    (hgen : next.generation = j.generation)
    (hbytes : next.projection.durableBytes ≤ ((ranges ds).map ByteRange.len).sum) :
    Holds (Header.of next) ds := by
  have hplan : (Header.of j).plan.isSome → (Header.of next).plan = (Header.of j).plan := by
    intro hsome
    rcases follows_of_step hstep with ⟨-, hkeep⟩ | ⟨hne, -⟩
    · exact (hkeep hsome).1
    · exact absurd hgen (Generation.ne_of_next hne)
  have hcomplete : ∀ total maximum, (Header.of next).plan = some (total, maximum) →
      Job.isComplete next.state → total ≤ ((ranges ds).map ByteRange.len).sum := by
    intro total maximum hp hc
    obtain ⟨m, hm, hm'⟩ := Option.map_eq_some_iff.1 hp
    cases hm'
    rwa [← durableBytes_of_complete hnext hc hm]
  rcases hempty : ds with - | ⟨e, l⟩
  · refine holds_nil (fun plan hp ↦ ?_) fun hc plan hp ↦ ?_
    · obtain ⟨m, hm, rfl⟩ := Option.map_eq_some_iff.1 hp
      exact (hnext.map m hm).maximum_pos
    · have := hcomplete plan.1 plan.2 hp hc
      rw [hempty] at this
      exact Nat.le_zero.1 this
  · have hsome := hds.planned (by rw [hempty]; simp)
    rw [← hempty]
    refine ⟨fun _ ↦ by rw [hplan hsome]; exact hsome, hds.apart, ?_, ?_, fun hc plan hp p hlt ↦ ?_⟩
    · rw [hplan hsome]
      exact hds.within
    · rw [hplan hsome]
      exact hds.fits
    · have hle := hcomplete plan.1 plan.2 hp hc
      rw [hplan hsome] at hp
      refine covered_of_total_le_sum hds.apart (fun r hr ↦ ?_) hle hlt
      obtain ⟨x, hx, rfl⟩ := List.mem_map.1 hr
      exact hds.within plan hp x hx

/-- **A copy at the version of the row is the row.** -/
theorem Store.Inv.entry_of_owner (hs : s.Inv H) {j : Job} (hj : Owner H s j) {row : JobsRow}
    (hrow : s.jobs.lookup (j.id.get : ℤ) = some row) (hversion : row.version = j.version) :
    ∃ ds, StoredJob H s j.id.get row j.id j.spec (Header.of j) ds := by
  obtain ⟨job, spec, h, ds, he⟩ := hs.entry _ row hrow
  obtain rfl : job = j.id := Identifier.ext (by have := he.id_eq; omega)
  obtain rfl : spec = j.spec := hs.spec_unique he.known hj.known
  have hlast := he.newest
  have hlen : (H j.id.get).length - 1 = j.version := by
    have := he.version
    omega
  rw [List.getLast?_eq_getElem?, hlen, hj.header] at hlast
  obtain rfl := Option.some.inj hlast
  exact ⟨ds, he⟩

/-- The extents of a job after a transition. -/
theorem filter_keptExtents {id' : ℤ} {replaced : Bool} :
    (keptExtents s id replaced).filter (·.job = id') =
      if replaced ∧ id' = id then [] else s.extents.filter (·.job = id') := by
  unfold keptExtents
  cases replaced with
  | false => simp
  | true =>
    simp only [if_true, true_and, List.filter_filter]
    split
    next heq =>
      rw [heq, List.filter_eq_nil_iff]
      simp
    next hne =>
      refine List.filter_congr fun row _ ↦ ?_
      by_cases hid : row.job = id'
      · simp [hid, hne]
      · simp [hid]

theorem lookup_keptIntents {id' : ℤ} {replaced : Bool} {command : JobCommand} :
    (keptIntents s id replaced command).lookup id' =
      if (replaced ∨ command = .publishCommitted) ∧ id' = id then none
      else s.intents.lookup id' := by
  unfold keptIntents
  by_cases hid : id' = id
  · rw [hid]
    by_cases hc : command = .publishCommitted
    · simp [hc]
    · cases replaced <;> simp [hc]
  · by_cases hc : command = .publishCommitted <;> cases replaced <;>
      simp [hc, hid, AList.lookup_erase_ne]

/-- The rows of the job after its own transition. -/
theorem StoredJob.transition {event : JobEvent} {j next : Job} {row : JobsRow} {now : Current}
    {p : Option (ℤ × ℤ)} {ds ds₀ : List DurableExtent} {st : StateRow}
    (he : StoredJob H s j.id.get row j.id j.spec (Header.of j) ds₀) (hd : Decided H s event j next)
    (ht : Transitioned s event row now p ds st s') (hdecode : decodeState st = .ok (Header.of next)) :
    ∃ ds', StoredJob (H.record j.id.get (Header.of next)) s' j.id.get
      { row with version := event.version } j.id j.spec (Header.of next) ds' := by
  have hjob := hd.job
  have hout := hd.outcome
  have heq := ht.eq
  have hextents := ht.extents
  rw [hjob] at heq hextents
  have hreplaces : replaces event = true ↔ next.generation ≠ j.generation := by
    rw [hd.replaces_eq, decide_eq_true_iff]
  have hfilter : s'.extents.filter (·.job = (j.id.get : ℤ)) =
      if replaces event = true then [] else ds₀.map (ExtentRow.of j.id.get j.generation.get) := by
    rw [heq]
    refine filter_keptExtents.trans ?_
    rw [he.extents]
    simp [Header.of]
  have hintents : s'.intents.lookup (j.id.get : ℤ) =
      if replaces event = true ∨ event.command = .publishCommitted then none
      else s.intents.lookup (j.id.get : ℤ) := by
    rw [heq]
    exact lookup_keptIntents.trans (by simp)
  have hrest : ∀ ds', s'.extents.filter (·.job = (j.id.get : ℤ)) =
      ds'.map (ExtentRow.of j.id.get next.generation.get) → Holds (Header.of next) ds' →
      (∀ i ∈ s'.intents.lookup (j.id.get : ℤ), Intended (Header.of next) i) →
      StoredJob (H.record j.id.get (Header.of next)) s' j.id.get { row with version := event.version }
        j.id j.spec (Header.of next) ds' := fun ds' h₁ h₂ h₃ ↦
    { id_eq := rfl
      id_le := he.id_le
      spec_eq := he.spec_eq
      known := by rw [heq]; exact he.known
      version := by
        have h₁ := he.version
        have h₂ := ht.version
        rw [Chronicle.record_self, List.length_append, List.length_singleton]
        push_cast
        omega
      newest := by rw [Chronicle.record_self, List.getLast?_concat]
      reads := by
        rw [heq]
        dsimp only
        rw [AList.lookup_insert]
        exact hdecode
      backed := ⟨next, hd.inv_next, hd.step.identity.2.1, rfl⟩
      extents := h₁
      holds := h₂
      intent := h₃ }
  rcases hd.step.representation with ⟨hgen, -⟩ | ⟨hnext, hnone, -⟩
  · have hno : ¬replaces event = true := by rw [hreplaces, not_not]; exact hgen
    have hno' : replaces event = false := by simpa using hno
    rw [if_neg hno, ← hgen] at hfilter
    refine ⟨ds₀, hrest ds₀ hfilter (he.holds.step hd.step hd.inv_next hgen ?_) fun i hi ↦ ?_⟩
    · have hbytes := ht.durableBytes
      have hgenout : event.outcome.generation = j.generation := by rw [hout]; exact hgen
      rw [hno', hgenout, keptExtents, if_neg (by simp)] at hextents
      have hread := (extents_eq he.extents).symm.trans hextents
      rw [← Except.ok.inj hread, hout] at hbytes
      rw [ranges, List.map_map]
      exact hbytes.trans_eq ((sorted_perm ds₀).map _).sum_eq
    · rw [hintents] at hi
      split at hi
      · cases hi
      obtain ⟨hig, plan, hplan, hsize⟩ := he.intent i hi
      refine ⟨hig.trans (by rw [Header.of, Header.of, hgen]), plan, ?_, hsize⟩
      rcases follows_of_step hd.step with ⟨-, hkeep⟩ | ⟨hne, -⟩
      · rw [(hkeep (Option.isSome_iff_exists.2 ⟨plan, hplan⟩)).1]
        exact hplan
      · exact absurd hgen (Generation.ne_of_next hne)
  · have hyes := hreplaces.2 (Generation.ne_of_next hnext)
    rw [if_pos hyes] at hfilter
    have hplan : (Header.of next).plan = none := by simp [Header.of, Job.plan, hnone]
    refine ⟨[], hrest [] hfilter (holds_nil ?_ ?_) ?_⟩
    · simp [hplan]
    · simp [hplan]
    · rw [hintents, if_pos (Or.inl hyes)]
      simp

/-- **A transition keeps the invariant**, and the chronicle gains the header of the job it leads to. -/
theorem Store.Inv.transition (hs : s.Inv H) {event : JobEvent} {j next : Job}
    (hd : Decided H s event j next) (h : transition s event = .ok s') :
    s'.Inv (H.record j.id.get (Header.of next)) ∧
      (H.record j.id.get (Header.of next) j.id.get)[event.version]? = some (Header.of next) := by
  obtain ⟨row, now, p, ds, st, ht⟩ := transition_eq_ok h
  have hjob := hd.job
  have hversion : row.version = j.version := by
    have := ht.version
    rw [hd.eq] at this
    push_cast at this
    omega
  obtain ⟨ds₀, he⟩ := hs.entry_of_owner hd.owner (by rw [← hjob]; exact ht.lookup) hversion
  have hnow : now = ⟨j.state, j.generation.get, columns j.plan, j.validator⟩ := by
    have := ht.current
    rw [hjob, he.reads.current] at this
    exact (Except.ok.inj this).symm
  have hp : p = columns next.plan := hd.plan_eq (by rw [← ht.plan, hnow])
  have hout := hd.outcome
  have hgenout : event.outcome.generation = next.generation := by rw [hout]; rfl
  have hdecode : decodeState st = .ok (Header.of next) := by
    have := ht.state
    rw [hp, hout] at this
    exact (decodeState_encodeState this).2
  have hlen : (H j.id.get).length = event.version := by
    have h₁ := he.version
    have h₂ := ht.version
    omega
  have hfollows := follows_of_step hd.step
  have heq := ht.eq
  rw [hjob] at heq
  have hremember : Remembers s s' := by rw [heq]; exact fun _ _ hk ↦ hk
  refine ⟨⟨hs.lawful.record he.newest hfollows, fun id' row' hrow' ↦ ?_, fun id' hnone ↦ ?_, ?_, ?_⟩,
    ?_⟩
  · by_cases hid : id' = j.id.get
    · obtain rfl : row' = { row with version := event.version } := by
        rw [heq, hid, AList.lookup_insert] at hrow'
        exact (Option.some.inj hrow').symm
      obtain ⟨ds', he'⟩ := he.transition hd ht hdecode
      rw [hid]
      exact ⟨_, _, _, ds', he'⟩
    · have hold : s.jobs.lookup id' = some row' := by
        rw [heq] at hrow'
        rwa [AList.lookup_insert_ne hid] at hrow'
      obtain ⟨job, spec, h', ds', he'⟩ := hs.entry id' row' hold
      refine ⟨job, spec, h', ds', he'.frame (Chronicle.record_of_ne hid) hremember ?_ ?_ ?_⟩
      · rw [heq]
        exact AList.lookup_insert_ne hid
      · rw [heq]
        exact filter_keptExtents.trans (if_neg (by tauto))
      · rw [heq]
        exact lookup_keptIntents.trans (if_neg (by tauto))
  · have hid : id' ≠ j.id.get := by
      rintro rfl
      rw [heq, AList.lookup_insert] at hnone
      cases hnone
    have hold : s.jobs.lookup id' = none := by
      rw [heq] at hnone
      rwa [AList.lookup_insert_ne hid] at hnone
    obtain ⟨hstate, hextents, hintent⟩ := hs.absent id' hold
    rw [heq]
    refine ⟨(AList.lookup_insert_ne hid).trans hstate, ?_, ?_⟩
    · rw [filter_keptExtents, if_neg (by tauto)]
      exact hextents
    · rw [lookup_keptIntents, if_neg (by tauto)]
      exact hintent
  · rw [heq]
    exact hs.unique
  · intro id' hid'
    have hid : id' ≠ j.id.get := by
      rintro rfl
      obtain ⟨key, row', hrow', hjob', -⟩ := hremember _ _ hd.owner.known
      exact hid' key row' hrow' hjob'
    rw [Chronicle.record_of_ne hid]
    rw [heq] at hid'
    exact hs.fresh id' hid'
  · rw [Chronicle.record_self, ← hlen, List.getElem?_concat_length]

/-! ### Extents and intents -/

theorem ranges_append (l l' : List DurableExtent) : ranges (l ++ l') = ranges l ++ ranges l' :=
  List.map_append

theorem ranges_sorted_perm (l : List DurableExtent) : (ranges (sorted l)).Perm (ranges l) :=
  (sorted_perm l).map _

theorem ranges_sorted (l : List DurableExtent) : ranges (sorted l) = sortByStart (ranges l) :=
  List.map_insertionSort _ _ _ l fun _ _ _ _ ↦ Iff.rfl

/-- Extents that were admitted beside what was stored hold as well. -/
theorem Holds.append {total maximum : ℕ} {ds fresh : List DurableExtent} (hds : Holds h ds)
    (hplan : h.plan = some (total, maximum)) (htotal : total ≤ i64Max)
    (hapart : Apart (ranges (sorted ds ++ fresh))) (hwithin : ∀ e ∈ fresh, e.range.stop ≤ total)
    (hfits : restoredSegments (ranges (sorted ds) ++ ranges fresh) total ≤ maximum) :
    Holds h (ds ++ fresh) := by
  have hperm : (ranges (sorted ds ++ fresh)).Perm (ranges (ds ++ fresh)) :=
    ((sorted_perm ds).append_right fresh).map _
  have hmem : ∀ plan ∈ h.plan, plan = (total, maximum) := fun plan hp ↦
    Option.some.inj (hp.symm.trans hplan)
  have hle : ∀ e ∈ ds ++ fresh, e.range.stop ≤ total := by
    intro e he
    rcases List.mem_append.1 he with he | he
    · exact hds.within (total, maximum) hplan e he
    · exact hwithin e he
  have hle' : ∀ r ∈ ranges (ds ++ fresh), r.stop ≤ total := by
    intro r hr
    obtain ⟨e, he, rfl⟩ := List.mem_map.1 hr
    exact hle e he
  refine ⟨fun _ ↦ by rw [hplan]; rfl, hapart.perm hperm, fun plan hp e he ↦ ?_, fun plan hp ↦ ?_,
    fun hc plan hp p hlt ↦ ?_⟩
  · rw [hmem plan hp]
    exact hle e he
  · rw [hmem plan hp]
    rw [← ranges_append, restoredSegments_eq htotal hapart
      fun r hr ↦ hle' r (hperm.mem_iff.1 hr)] at hfits
    rw [restoredSegments_eq htotal (hapart.perm hperm) hle']
    rwa [← Tiling.runStarts_congr fun p _ ↦ covered_perm hperm p]
  · rw [ranges_append, covered_append]
    exact Or.inl (hds.complete hc plan hp p hlt)

theorem filter_of_self {g : ℤ} (l : List DurableExtent) :
    (l.map (ExtentRow.of id g)).filter (·.job = id) = l.map (ExtentRow.of id g) := by
  refine List.filter_eq_self.2 fun row hrow ↦ ?_
  obtain ⟨e, -, rfl⟩ := List.mem_map.1 hrow
  exact decide_eq_true rfl

theorem filter_of_ne {id' g : ℤ} (hne : id' ≠ id) (l : List DurableExtent) :
    (l.map (ExtentRow.of id g)).filter (·.job = id') = [] := by
  refine List.filter_eq_nil_iff.2 fun row hrow ↦ ?_
  obtain ⟨e, -, rfl⟩ := List.mem_map.1 hrow
  exact fun h ↦ hne (of_decide_eq_true h).symm

/-- The plan of an entry is legal. -/
theorem StoredJob.plan_le {row : JobsRow} {job : JobId} {spec : JobSpec} {ds : List DurableExtent}
    (he : StoredJob H s id row job spec h ds) {total maximum : ℕ} (hplan : h.plan = some (total, maximum)) :
    total ≤ i64Max ∧ 1 ≤ maximum ∧ maximum ≤ maxSegments := by
  obtain ⟨j, hj, -, rfl⟩ := he.backed
  obtain ⟨m, hm, hm'⟩ := Option.map_eq_some_iff.1 hplan
  cases hm'
  have hinv := hj.map m hm
  exact ⟨hinv.total_le, hinv.maximum_pos, hinv.maximum_le⟩

/-- **A batch of extents keeps the invariant**, whatever is in it. -/
theorem Store.Inv.durable (hs : s.Inv H) {job : JobId} {generation : Generation}
    {incoming : List DurableExtent} (h : durable s job generation incoming = .ok s') : s'.Inv H := by
  obtain ⟨row, now, total, maximum, existing, fresh, hh⟩ := durable_eq_ok h
  obtain ⟨job', spec, h', ds, he⟩ := hs.entry _ row hh.lookup
  obtain rfl : job' = job := Identifier.ext (by have := he.id_eq; omega)
  have hnow : now = ⟨h'.state, h'.generation.get, columns h'.plan, h'.validator⟩ :=
    (Except.ok.inj (he.reads.current.symm.trans hh.current)).symm
  have hgen : h'.generation = generation := by
    refine Identifier.ext ?_
    have := hh.generation
    rw [hnow] at this
    exact Int.ofNat.inj this
  have hplan : h'.plan = some (total, maximum) := by
    have hcol := hh.plan
    rw [hnow] at hcol
    obtain ⟨⟨t, m⟩, hp, hcol⟩ := Option.map_eq_some_iff.1 hcol
    rw [hp, Option.some.injEq, Prod.mk.injEq]
    exact ⟨Int.ofNat.inj (congrArg Prod.fst hcol), Int.ofNat.inj (congrArg Prod.snd hcol)⟩
  rw [← hgen] at hh
  have hexisting : existing = sorted ds :=
    (Except.ok.inj ((extents_eq he.extents).symm.trans hh.extents)).symm
  have hadmit := hh.admitted
  rw [hexisting] at hadmit
  obtain ⟨hapart, hsub, -⟩ := admit_eq_some hadmit
    (he.holds.apart.perm (ranges_sorted_perm ds).symm)
  have hfits := hh.fits
  rw [hexisting] at hfits
  have hholds := he.holds.append hplan (he.plan_le hplan).1 hapart
    (fun e hmem ↦ hh.within e (hsub e hmem)) hfits
  have heq := hh.eq
  have hremember : Remembers s s' := by rw [heq]; exact fun _ _ hk ↦ hk
  have hother : ∀ id' : ℤ, id' ≠ job'.get →
      s'.extents.filter (·.job = id') = s.extents.filter (·.job = id') := by
    intro id' hid
    rw [heq]
    dsimp only
    rw [List.filter_append, filter_of_ne hid fresh, List.append_nil]
  have hown : s'.extents.filter (·.job = (job'.get : ℤ)) =
      (ds ++ fresh).map (ExtentRow.of job'.get h'.generation.get) := by
    rw [heq]
    dsimp only
    rw [List.filter_append, he.extents, List.map_append, filter_of_self]
  refine ⟨hs.lawful, fun id' row' hrow' ↦ ?_, fun id' hnone ↦ ?_, ?_, ?_⟩
  · have hold : s.jobs.lookup id' = some row' := by rw [heq] at hrow'; exact hrow'
    by_cases hid : id' = job'.get
    · obtain rfl : row' = row := by
        rw [hid] at hold
        exact Option.some.inj (hold.symm.trans hh.lookup)
      rw [hid]
      refine ⟨job', spec, h', ds ++ fresh, { he with
        known := hremember _ _ he.known
        reads := by rw [heq]; exact he.reads
        extents := hown
        holds := hholds
        intent := by rw [heq]; exact he.intent }⟩
    · obtain ⟨job'', spec', h'', ds', he'⟩ := hs.entry id' row' hold
      refine ⟨job'', spec', h'', ds', he'.frame rfl hremember ?_ (hother id' hid) ?_⟩ <;> rw [heq]
  · have hold : s.jobs.lookup id' = none := by rw [heq] at hnone; exact hnone
    have hid : id' ≠ job'.get := by
      rintro rfl
      rw [hh.lookup] at hold
      cases hold
    obtain ⟨hstate, hextents, hintent⟩ := hs.absent id' hold
    rw [hother id' hid, heq]
    exact ⟨hstate, hextents, hintent⟩
  · rw [heq]
    exact hs.unique
  · rw [heq]
    exact hs.fresh

/-- **An intent keeps the invariant**, whatever it says. -/
theorem Store.Inv.intendPublish (hs : s.Inv H) {intent : PublishIntent}
    (h : intendPublish s intent = .ok s') : s'.Inv H := by
  obtain ⟨now, maximum, hnow, hstate, hgen, hplan, heq⟩ := intendPublish_eq_ok h
  have hremember : Remembers s s' := by rw [heq]; exact fun _ _ hk ↦ hk
  have hlookup : ∀ id' : ℤ, id' ≠ intent.job.get →
      s'.intents.lookup id' = s.intents.lookup id' := by
    intro id' hid
    rw [heq]
    exact AList.lookup_insert_ne hid
  refine ⟨hs.lawful, fun id' row' hrow' ↦ ?_, fun id' hnone ↦ ?_, ?_, ?_⟩
  · have hold : s.jobs.lookup id' = some row' := by rw [heq] at hrow'; exact hrow'
    obtain ⟨job, spec, h', ds, he⟩ := hs.entry id' row' hold
    by_cases hid : id' = intent.job.get
    · refine ⟨job, spec, h', ds, { he with
        known := hremember _ _ he.known
        reads := by rw [heq]; exact he.reads
        extents := by rw [heq]; exact he.extents
        intent := fun i hi ↦ ?_ }⟩
      obtain rfl : i = IntentRow.of intent := by
        rw [heq, hid] at hi
        exact (Option.some.inj ((AList.lookup_insert _).symm.trans hi)).symm
      rw [hid] at he
      have hcur := Except.ok.inj (he.reads.current.symm.trans hnow)
      rw [← hcur] at hgen hplan
      obtain ⟨⟨t, m⟩, hp, hcol⟩ := Option.map_eq_some_iff.1 hplan
      refine ⟨hgen.symm, (t, m), hp, ?_⟩
      exact (congrArg Prod.fst hcol).symm
    · refine ⟨job, spec, h', ds, he.frame rfl hremember ?_ ?_ (hlookup id' hid)⟩ <;> rw [heq]
  · have hold : s.jobs.lookup id' = none := by rw [heq] at hnone; exact hnone
    obtain ⟨hrow, hextents, hintent⟩ := hs.absent id' hold
    have hid : id' ≠ intent.job.get := by
      rintro rfl
      have hreads : Reads (s.states.lookup (intent.job.get : ℤ)) Header.initial := by rw [hrow]; rfl
      have hcur := hreads.current
      rw [← Except.ok.inj (hcur.symm.trans hnow)] at hstate
      cases hstate
    rw [hlookup id' hid, heq]
    exact ⟨hrow, hextents, hintent⟩
  · rw [heq]
    exact hs.unique
  · rw [heq]
    exact hs.fresh

/-! ### Admission and removal -/

theorem lookup_ne_of_entries {id : ℤ} (h : ∀ entry ∈ s.receipts.entries, entry.2.jobId ≠ id)
    {key : ReceiptKey} {row : ReceiptRow} (hrow : s.receipts.lookup key = some row) :
    row.jobId ≠ id :=
  h ⟨key, row⟩ (AList.mem_lookup_iff.1 hrow)

/-- Reserving an identifier touches none of the rows. -/
theorem Store.Inv.reserveId (hs : s.Inv H) {job : JobId} (h : reserveId s = .ok (job, s')) :
    s'.Inv H ∧ Remembers s s' := by
  obtain ⟨-, -, heq⟩ := reserveId_eq_ok h
  have hremember : Remembers s s' := by rw [heq]; exact fun _ _ hk ↦ hk
  refine ⟨⟨hs.lawful, fun id' row' hrow' ↦ ?_, ?_, ?_, ?_⟩, hremember⟩
  · rw [heq] at hrow'
    obtain ⟨job, spec, h', ds, he⟩ := hs.entry id' row' hrow'
    refine ⟨job, spec, h', ds, he.frame rfl hremember ?_ ?_ ?_⟩ <;> rw [heq]
  · rw [heq]
    exact hs.absent
  · rw [heq]
    exact hs.unique
  · rw [heq]
    exact hs.fresh

/-- **Admission keeps the invariant**: an identifier without a receipt was never used. -/
theorem Store.Inv.commitAdd (hs : s.Inv H) {unit : AddUnitOfWork} (h : commitAdd s unit = .ok s') :
    s'.Inv H ∧ Remembers s s' ∧ Known s' unit.receipt.job unit.receipt.original := by
  obtain ⟨-, hle, hkey, hrow, hreceipts, -, heq⟩ := commitAdd_eq_ok h
  have hold : ∀ {key row}, s.receipts.lookup key = some row → s'.receipts.lookup key = some row := by
    intro key row hk
    rw [heq]
    refine (AList.lookup_insert_ne ?_).trans hk
    rintro rfl
    rw [hkey] at hk
    cases hk
  have hnew : s'.receipts.lookup unit.receipt.key =
      some ⟨unit.receipt.job.get, encodeSpec unit.receipt.original, 0⟩ := by
    rw [heq]
    exact AList.lookup_insert _
  have hcases : ∀ {key row}, s'.receipts.lookup key = some row →
      key = unit.receipt.key ∧ row.jobId = unit.receipt.job.get ∨
        s.receipts.lookup key = some row ∧ row.jobId ≠ unit.receipt.job.get := by
    intro key row hk
    by_cases hkey' : key = unit.receipt.key
    · rw [hkey', hnew] at hk
      cases hk
      exact Or.inl ⟨hkey', rfl⟩
    · rw [heq] at hk
      have hk' := (AList.lookup_insert_ne hkey').symm.trans hk
      exact Or.inr ⟨hk', lookup_ne_of_entries hreceipts hk'⟩
  have hremember : Remembers s s' := by
    rintro job spec ⟨key, row, hk, hrest⟩
    exact ⟨key, row, hold hk, hrest⟩
  have hknown : Known s' unit.receipt.job unit.receipt.original := ⟨_, _, hnew, rfl, rfl⟩
  refine ⟨⟨hs.lawful, fun id' row' hrow' ↦ ?_, fun id' hnone ↦ ?_, ?_, fun id' hid' ↦ ?_⟩, hremember,
    hknown⟩
  · by_cases hid : id' = unit.receipt.job.get
    · have hH : H id' = [Header.initial] := by
        rw [hid]
        exact hs.fresh _ fun key row hk ↦ lookup_ne_of_entries hreceipts hk
      obtain ⟨hstate, hextents, hintent⟩ := hs.absent _ hrow
      obtain rfl : row' = ⟨encodeSpec unit.receipt.original, 0⟩ := by
        rw [heq, hid] at hrow'
        exact (Option.some.inj ((AList.lookup_insert _).symm.trans hrow')).symm
      refine ⟨unit.receipt.job, unit.receipt.original, Header.initial, [], ?_⟩
      exact {
        id_eq := hid
        id_le := hle
        spec_eq := rfl
        known := hknown
        version := by rw [hH]; rfl
        newest := by rw [hH]; rfl
        reads := by rw [heq, hid]; dsimp only; rw [hstate]; rfl
        backed := ⟨_, Job.inv_new unit.receipt.job unit.receipt.original, rfl, rfl⟩
        extents := by rw [heq, hid]; exact hextents
        holds := holds_nil (by simp [Header.initial]) (by simp [Header.initial])
        intent := by rw [heq, hid]; dsimp only; rw [hintent]; simp }
    · rw [heq] at hrow'
      have hold' := (AList.lookup_insert_ne hid).symm.trans hrow'
      obtain ⟨job, spec, h', ds, he⟩ := hs.entry id' row' hold'
      refine ⟨job, spec, h', ds, he.frame rfl hremember ?_ ?_ ?_⟩ <;> rw [heq]
  · have hid : id' ≠ unit.receipt.job.get := by
      rintro rfl
      rw [heq, AList.lookup_insert] at hnone
      cases hnone
    rw [heq] at hnone
    rw [heq]
    exact hs.absent id' ((AList.lookup_insert_ne hid).symm.trans hnone)
  · intro key key' row row' hk hk' hsame
    rcases hcases hk with ⟨rfl, hj⟩ | ⟨ho, hj⟩ <;> rcases hcases hk' with ⟨rfl, hj'⟩ | ⟨ho', hj'⟩
    · rfl
    · exact absurd (hsame.symm.trans hj) hj'
    · exact absurd (hsame.trans hj') hj
    · exact hs.unique _ _ _ _ ho ho' hsame
  · exact hs.fresh id' fun key row hk ↦ hid' key row (hold hk)

/-- **Removal keeps the invariant**: every row of the job goes, its receipt stays. -/
theorem Store.Inv.remove (hs : s.Inv H) {key : ReceiptKey} {expectedVersion : ℕ}
    (h : remove s key expectedVersion = .ok s') : s'.Inv H ∧ Remembers s s' := by
  obtain ⟨saved, row, hsaved, -, hrow, heq⟩ := remove_eq_ok h
  have hlookup : ∀ {key' row'}, s'.receipts.lookup key' = some row' →
      ∃ row'', s.receipts.lookup key' = some row'' ∧ row''.jobId = row'.jobId := by
    intro key' row' hk
    rw [heq] at hk
    by_cases hkey : key' = key
    · rw [hkey, AList.lookup_insert] at hk
      cases hk
      exact ⟨saved, hkey ▸ hsaved, rfl⟩
    · exact ⟨row', (AList.lookup_insert_ne hkey).symm.trans hk, rfl⟩
  have hforward : ∀ {key' row'}, s.receipts.lookup key' = some row' →
      ∃ row'', s'.receipts.lookup key' = some row'' ∧ row''.jobId = row'.jobId ∧
        row''.spec = row'.spec := by
    intro key' row' hk
    rw [heq]
    by_cases hkey : key' = key
    · rw [hkey] at hk ⊢
      obtain rfl := Option.some.inj (hsaved.symm.trans hk)
      exact ⟨_, AList.lookup_insert _, rfl, rfl⟩
    · exact ⟨row', (AList.lookup_insert_ne hkey).trans hk, rfl, rfl⟩
  have hremember : Remembers s s' := by
    rintro job spec ⟨key', row', hk, hjob, hspec⟩
    obtain ⟨row'', hk', hjob', hspec'⟩ := hforward hk
    exact ⟨key', row'', hk', hjob'.trans hjob, hspec'.trans hspec⟩
  have hfilter : ∀ id', id' ≠ saved.jobId →
      s'.extents.filter (·.job = id') = s.extents.filter (·.job = id') := by
    intro id' hid
    rw [heq]
    exact (@filter_keptExtents s saved.jobId id' true).trans (if_neg (by tauto))
  refine ⟨⟨hs.lawful, fun id' row' hrow' ↦ ?_, fun id' hnone ↦ ?_, ?_, fun id' hid' ↦ ?_⟩, hremember⟩
  · have hid : id' ≠ saved.jobId := by
      rintro rfl
      rw [heq, AList.lookup_erase] at hrow'
      cases hrow'
    rw [heq] at hrow'
    obtain ⟨job, spec, h', ds, he⟩ := hs.entry id' row' ((AList.lookup_erase_ne hid).symm.trans hrow')
    refine ⟨job, spec, h', ds, he.frame rfl hremember ?_ (hfilter id' hid) ?_⟩
    · rw [heq]
      exact AList.lookup_erase_ne hid
    · rw [heq]
      exact AList.lookup_erase_ne hid
  · by_cases hid : id' = saved.jobId
    · rw [heq, hid]
      refine ⟨AList.lookup_erase _ _, ?_, AList.lookup_erase _ _⟩
      exact (@filter_keptExtents s saved.jobId saved.jobId true).trans (if_pos ⟨rfl, rfl⟩)
    · rw [heq] at hnone
      obtain ⟨hstate, hextents, hintent⟩ :=
        hs.absent id' ((AList.lookup_erase_ne hid).symm.trans hnone)
      rw [hfilter id' hid, heq]
      exact ⟨(AList.lookup_erase_ne hid).trans hstate, hextents,
        (AList.lookup_erase_ne hid).trans hintent⟩
  · intro key₁ key₂ row₁ row₂ h₁ h₂ hsame
    obtain ⟨row₁', h₁', hj₁⟩ := hlookup h₁
    obtain ⟨row₂', h₂', hj₂⟩ := hlookup h₂
    exact hs.unique _ _ _ _ h₁' h₂' (hj₁.trans (hsame.trans hj₂.symm))
  · refine hs.fresh id' fun key' row' hk ↦ ?_
    obtain ⟨row'', hk', hjob, -⟩ := hforward hk
    rw [← hjob]
    exact hid' key' row'' hk'

/-! ### Loading -/

/-- A copy just loaded: current at the version of its row, idle, and durable where the stored extents
are. -/
structure Loaded (H : Chronicle) (s : Store) (job : JobId) (version : ℤ) (h : Header)
    (ds : List DurableExtent) (j : Job) : Prop where
  owner : Owner H s j
  id : j.id = job
  version : version = j.version
  header : Header.of j = h
  idle : ∀ m ∈ j.segments, m.Idle
  durable : ∀ m ∈ j.segments, ∀ p, m.DurableAt p ↔ Covered (ranges ds) p

theorem StoredJob.version_eq {row : JobsRow} {job : JobId} {spec : JobSpec} {ds : List DurableExtent}
    (he : StoredJob H s id row job spec h ds) : row.version = ((H id).length - 1 : ℕ) := by
  have hlen : 0 < (H id).length := by
    rw [List.length_pos_iff]
    intro hnil
    have := he.newest
    rw [hnil] at this
    cases this
  have := he.version
  omega

theorem StoredJob.loadRecord {row : JobsRow} {job : JobId} {spec : JobSpec} {ds : List DurableExtent}
    (he : StoredJob H s id row job spec h ds) : loadRecord s id row =
      .ok ⟨job, spec, (H id).length - 1, h.state, h.generation, h.reason, h.retryAt, h.stop,
        h.replaceOnDrain, h.attempts, h.plan, h.validator, ranges (sorted ds)⟩ := by
  have hid : (Identifier.new job.get : Except DomainError JobId) = .ok job :=
    dif_neg job.get_ne_zero
  have hread := he.reads
  unfold Persistence.loadRecord
  rw [he.spec_eq, he.version_eq, he.id_eq, loaded_natCast, loaded_natCast, decodeSpec_encodeSpec]
  simp only [bind, Except.bind, hid, orCorrupt]
  rw [he.id_eq] at hread
  split
  next hrow =>
    rw [hrow] at hread
    obtain rfl : h = Header.initial := hread
    have hnil : ds = [] := by
      by_contra hne
      cases he.holds.planned hne
    rw [hnil]
    rfl
  next st hrow =>
    rw [hrow] at hread
    obtain ⟨-, hgen, -⟩ := decodeState_eq_ok hread
    rw [hgen, ← he.id_eq, extents_eq he.extents, hread]
    rfl

/-- **Every entry loads.** -/
theorem StoredJob.loadJob {row : JobsRow} {job : JobId} {spec : JobSpec} {ds : List DurableExtent}
    (he : StoredJob H s id row job spec h ds) :
    ∃ j, loadJob s ⟨id, row⟩ = .ok j ∧ Loaded H s job row.version h ds j := by
  obtain ⟨k, hk, rfl, rfl⟩ := he.backed
  have hperm := ranges_sorted_perm ds
  have hapart := he.holds.apart.perm hperm.symm
  have hok : ∃ j, Job.restore
      { k.record with id := job, version := (H id).length - 1, durable := ranges (sorted ds) } =
        .ok j := by
    refine Job.restore_isOk (hk.consistent_record _ _ fun hm ↦ ?_) (fun hc ↦ ?_)
      fun total maximum hplan ↦ ?_
    · have hnil : ds = [] := by
        by_contra hne
        have := he.holds.planned hne
        simp [Header.of, Job.plan, hm] at this
      rw [hnil]
      rfl
    · show k.plan.isSome
      rw [Job.plan, Option.isSome_map]
      exact hk.planned (Or.inr hc)
    · have hplan' : (Header.of k).plan = some (total, maximum) := hplan
      obtain ⟨htotal, hpos, hmax⟩ := he.plan_le hplan'
      have hwithin : ∀ r ∈ ranges ds, r.stop ≤ total := by
        intro r hr
        obtain ⟨e, hmem, rfl⟩ := List.mem_map.1 hr
        exact he.holds.within _ hplan' e hmem
      refine ⟨htotal, hpos, hmax, ?_, fun r hr ↦ hwithin r (hperm.mem_iff.1 hr), ?_, ?_⟩
      · dsimp only
        rw [ranges_sorted]
        exact ascending_sortByStart he.holds.apart
      · dsimp only
        rw [Tiling.runStarts_congr fun p _ ↦ covered_perm hperm p,
          ← restoredSegments_eq htotal he.holds.apart hwithin]
        exact he.holds.fits _ hplan'
      · intro hc p hp
        exact (covered_perm hperm p).2 (he.holds.complete hc _ hplan' p hp)
  obtain ⟨j, hj⟩ := hok
  have hreb := Job.restore_eq_ok hj
  have heq := hreb.eq
  have hheader : Header.of j = Header.of k := by
    have hplan := hreb.plan
    rw [heq]
    rw [heq] at hplan
    unfold Header.of
    rw [hplan]
    rfl
  have hid : j.id = job := by rw [heq]
  have hv : j.version = (H id).length - 1 := by rw [heq]
  refine ⟨j, ?_, ⟨hreb.inv, ?_, ?_⟩, hid, ?_, hheader, hreb.idle, fun m hm p ↦ ?_⟩
  · unfold Persistence.loadJob
    rw [he.loadRecord]
    exact congrArg orCorrupt hj
  · rw [hid, ← he.id_eq, hv, ← List.getLast?_eq_getElem?, hheader]
    exact he.newest
  · have hspec : j.spec = k.spec := by rw [heq]; rfl
    rw [hid, hspec]
    exact he.known
  · rw [hv, he.version_eq]
  · rw [hreb.durable m hm]
    exact covered_perm hperm p

/-- **Loading never fails**, and yields one copy for every row. -/
theorem Store.Inv.jobs (hs : s.Inv H) : ∃ js, Persistence.jobs s = .ok js ∧
    (∀ id row, s.jobs.lookup id = some row → ∃ j ∈ js, ∃ job spec h ds,
      StoredJob H s id row job spec h ds ∧ Loaded H s job row.version h ds j) ∧
    ∀ j ∈ js, ∃ id row job spec h ds, s.jobs.lookup id = some row ∧
      StoredJob H s id row job spec h ds ∧ Loaded H s job row.version h ds j := by
  have hmem : ∀ entry : (_ : ℤ) × JobsRow,
      entry ∈ s.jobs.entries.insertionSort (fun a b ↦ a.1 ≤ b.1) ↔
        s.jobs.lookup entry.1 = some entry.2 := fun entry ↦ by
    rw [List.mem_insertionSort]
    exact AList.mem_lookup_iff.symm
  have hall : ∀ entry ∈ s.jobs.entries.insertionSort (fun a b ↦ a.1 ≤ b.1),
      ∃ j, loadJob s entry = .ok j := by
    rintro ⟨id, row⟩ hentry
    obtain ⟨job, spec, h, ds, he⟩ := hs.entry id row ((hmem _).1 hentry)
    obtain ⟨j, hj, -⟩ := he.loadJob
    exact ⟨j, hj⟩
  obtain ⟨js, hjs⟩ := mapM_isOk hall
  refine ⟨js, hjs, fun id row hrow ↦ ?_, fun j hj ↦ ?_⟩
  · obtain ⟨job, spec, h, ds, he⟩ := hs.entry id row hrow
    obtain ⟨j, hj, hloaded⟩ := he.loadJob
    exact ⟨j, (mem_of_mapM_eq_ok hjs).2 ⟨⟨id, row⟩, (hmem _).2 hrow, hj⟩, job, spec, h, ds, he, hloaded⟩
  · obtain ⟨⟨id, row⟩, hentry, hload⟩ := (mem_of_mapM_eq_ok hjs).1 hj
    have hrow := (hmem _).1 hentry
    obtain ⟨job, spec, h, ds, he⟩ := hs.entry id row hrow
    obtain ⟨j', hj', hloaded⟩ := he.loadJob
    obtain rfl := Except.ok.inj (hj'.symm.trans hload)
    exact ⟨id, row, job, spec, h, ds, hrow, he, hloaded⟩

end Persistence

end Fhd
