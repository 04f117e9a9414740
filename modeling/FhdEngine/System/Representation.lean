import FhdEngine.System.Loadable

/-!
# Representations are never mixed

A **representation** of a job is a generation with its plan and validator. The two halves of the
program keep it apart from every other one by different means: a copy in memory drops its map and
validator together with the generation, and the transaction that commits such an event drops the plan,
validator, extents and intent of the old generation.

That no durable byte survives from one representation to the next is a statement about the past: every
durable byte, in memory or in the repository, was **granted** to a worker under the representation that
is current now. It is proved for owners that use tickets some copy issued and submit extents of batches
some copy issued (`World.Faithful`).
-/

namespace Fhd

open Persistence

/-! ### Bytes that were taken -/

namespace SegmentMap

variable {m m' : SegmentMap} {p : ℕ}

/-- Somebody has leased this byte, or it was durable from the start. -/
def TakenAt (m : SegmentMap) (p : ℕ) : Prop := ∃ s ∈ m.segments, s.state ≠ .pending ∧ p ∈ s.range

theorem DurableAt.taken (h : m.DurableAt p) : m.TakenAt p := by
  obtain ⟨s, hs, hdur, hp⟩ := h
  exact ⟨s, hs, by rw [hdur]; simp, hp⟩

/-- What a checkpoint selected was taken. -/
theorem Inv.taken_of_selected (hinv : m.Inv) {c : Checkpoint} (hc : m.checkpoint = some c)
    {e : Selected} (he : e ∈ c.selection) (hp : p ∈ e.2.1) : m.TakenAt p := by
  obtain ⟨s, ⟨hs, -, hrange, hstate⟩, -⟩ := hinv.selected c hc e he
  exact ⟨s, hs, by rw [hstate]; simp, by rw [hrange]; exact hp⟩

/-- **A byte is taken only by a lease.** -/
theorem Change.taken {op : Op} {r : Reply} (h : Change m op r m') (hinv : m.Inv)
    (hp : m'.TakenAt p) : m.TakenAt p ∨ ∃ lease, r = .lease lease ∧ p ∈ lease.range := by
  obtain ⟨t, ht, hstate, hpt⟩ := hp
  cases h.origin hinv ht with
  | kept hmem hreplace hrelease hdiscard => exact Or.inl ⟨t, hmem, hstate, hpt⟩
  | pending hpend => exact absurd hpend hstate
  | leased worker hst hop hr => exact Or.inr ⟨_, hr, hpt⟩
  | written s worker attempt hmem hheld hts hop hr =>
    rw [hts] at hpt
    exact Or.inl ⟨s, hmem, by rw [hheld]; simp, hpt⟩
  | committed s c ranges hmem hc hsynced hid hts hop hr =>
    rw [hinv.ids_eq c hc] at hid
    obtain ⟨e, he, heid⟩ := List.mem_map.1 hid
    obtain ⟨u, ⟨hu, huid, -, hustate⟩, -⟩ := hinv.selected c hc e he
    obtain rfl : s = u := eq_of_id_eq hinv.ids_nodup hmem hu (heid.symm.trans huid.symm)
    rw [hts] at hpt
    exact Or.inl ⟨s, hmem, by rw [hustate]; simp, hpt⟩

/-- A fresh map has no byte taken. -/
theorem not_takenAt_of_new {job : JobId} {generation : Generation} {total maximum : ℕ}
    (h : new job generation total maximum = .ok m) : ¬m.TakenAt p := by
  rintro ⟨s, hs, hstate, -⟩
  obtain ⟨-, -, -, -, ⟨-, hseg⟩ | ⟨range, -, -, hseg⟩⟩ := new_eq_ok h
  · rw [hseg] at hs
    cases hs
  · rw [hseg] at hs
    obtain rfl := List.mem_singleton.1 hs
    exact hstate rfl

end SegmentMap

namespace Job

variable {j j' : Job} {command : JobCommand}

/-- What a command leaves taken was taken under the same representation. -/
theorem Step.taken (h : Step j command j') {m : SegmentMap} (hm : j'.segments = some m) {p : ℕ}
    (hp : m.TakenAt p) : j.segments = some m ∧ j'.generation = j.generation ∧
      j'.validator = j.validator := by
  rcases h.representation with ⟨hgen, hkeep, hbare⟩ | ⟨-, hnone, -⟩
  · rcases hs : j.segments with - | m₀
    · exfalso
      cases h with
      | probeFresh hstate hle hnone hnew =>
        obtain rfl := Option.some.inj hm
        exact SegmentMap.not_takenAt_of_new hnew hp
      | probeKept hstate hle hm' htotal hgen hvalidator =>
        rw [hs] at hm'
        cases hm'
      | drained hstate hstop hsettled hreplace =>
        rw [land_segments] at hm
        exact absurd (hs.symm.trans hm) (by simp)
      | replacedOnDrain hstate hstop hreplace hnext =>
        rw [land_segments] at hm
        cases hm
      | replaced hfrom hnext => cases hm
      | _ => exact absurd (hs.symm.trans hm) (by simp)
    · obtain ⟨hseg, hval⟩ := hkeep (by rw [hs]; rfl)
      rw [hm, hs] at hseg
      exact ⟨hseg.symm, hgen, hval⟩
  · rw [hm] at hnone
    cases hnone

/-- **Representations in memory**: the same one, or the next generation with nothing in it. -/
def SameOrNext (j j' : Job) : Prop :=
  (j'.generation = j.generation ∧
    (j.plan.isSome → j'.plan = j.plan ∧ j'.validator = j.validator)) ∨
  (j.generation.next = .ok j'.generation ∧ j'.segments = none ∧ j'.validator = none)

theorem SameOrNext.of_header (h : Header.of j' = Header.of j) : SameOrNext j j' := by
  simp only [Header.of, Header.mk.injEq] at h
  exact Or.inl ⟨h.2.1, fun _ ↦ ⟨h.2.2.2.2.2.2.2.1, h.2.2.2.2.2.2.2.2⟩⟩

theorem Step.sameOrNext (h : Step j command j') (version : ℕ) :
    SameOrNext j { j' with version := version } := by
  rcases h.representation with ⟨hgen, hkeep, -⟩ | hnext
  · refine Or.inl ⟨hgen, fun hplan ↦ ?_⟩
    have hsome : j.segments.isSome := by simpa [plan] using hplan
    obtain ⟨hseg, hval⟩ := hkeep hsome
    exact ⟨by simp only [plan, hseg], hval⟩
  · exact Or.inr hnext

theorem sameOrNext_apply (j : Job) (event : JobEvent) : SameOrNext j (j.apply event).2 := by
  rcases j.apply_cases event with ⟨e, he⟩ | ⟨next, -, -, -, -, hexec, -, -, hok⟩
  · rw [he]
    exact .of_header rfl
  · rw [hok]
    exact (execute_step hexec).sameOrNext _

end Job

/-! ### Representations in the repository -/

namespace Persistence

variable {H : Chronicle} {s s' : Store} {id : ℤ}

/-- **Representations in the rows of a job**: the same one, or the next generation, and then plan,
validator, extents and intent are gone in the same transaction. -/
def RowsSameOrNext (s s' : Store) (id : ℤ) : Prop :=
  ∀ now now', current s id = .ok now → current s' id = .ok now' →
    (now'.generation = now.generation ∧
      (now.plan.isSome → now'.plan = now.plan ∧ now'.validator = now.validator)) ∨
    (now'.generation = now.generation + 1 ∧ now'.plan = none ∧ now'.validator = none ∧
      s'.extents.filter (·.job = id) = [] ∧ s'.intents.lookup id = none)

theorem RowsSameOrNext.of_states (h : s'.states.lookup id = s.states.lookup id) :
    RowsSameOrNext s s' id := by
  intro now now' hnow hnow'
  have hsame : current s' id = current s id := by
    unfold current
    rw [h]
  rw [hsame] at hnow'
  obtain rfl := Except.ok.inj (hnow.symm.trans hnow')
  exact Or.inl ⟨rfl, fun _ ↦ ⟨rfl, rfl⟩⟩

/-- The two rows around a transition. -/
theorem Store.Inv.transition_rows (hs : s.Inv H) {event : JobEvent} {j next : Job}
    (hd : Decided H s event j next) (h : Persistence.transition s event = .ok s') :
    current s j.id.get = .ok ⟨j.state, j.generation.get, columns j.plan, j.validator⟩ ∧
      current s' j.id.get =
        .ok ⟨next.state, next.generation.get, columns next.plan, next.validator⟩ := by
  obtain ⟨row, now, p, ds, st, ht⟩ := transition_eq_ok h
  have hjob := hd.job
  have hversion : row.version = j.version := by
    have := ht.version
    rw [hd.eq] at this
    push_cast at this
    omega
  obtain ⟨ds₀, he⟩ := hs.entry_of_owner hd.owner (by rw [← hjob]; exact ht.lookup) hversion
  obtain ⟨hs', -⟩ := hs.transition hd h
  have hrow' : s'.jobs.lookup (j.id.get : ℤ) = some { row with version := event.version } := by
    rw [ht.eq, hjob]
    exact AList.lookup_insert _
  obtain ⟨job, spec, h', ds', he'⟩ := hs'.entry _ _ hrow'
  have hnewest := he'.newest
  rw [Chronicle.record_self, List.getLast?_concat] at hnewest
  obtain rfl := Option.some.inj hnewest
  exact ⟨he.reads.current, he'.reads.current⟩

theorem Store.Inv.rows_transition (hs : s.Inv H) {event : JobEvent} {j next : Job}
    (hd : Decided H s event j next) (h : Persistence.transition s event = .ok s') (id : ℤ) :
    RowsSameOrNext s s' id := by
  obtain ⟨row, now, p, ds, st, ht⟩ := transition_eq_ok h
  by_cases hid : id = j.id.get
  · intro now now' hnow hnow'
    obtain ⟨hcur, hcur'⟩ := hs.transition_rows hd h
    rw [hid] at hnow hnow' ⊢
    obtain rfl := Except.ok.inj (hcur.symm.trans hnow)
    obtain rfl := Except.ok.inj (hcur'.symm.trans hnow')
    rcases follows_of_step hd.step with ⟨hgen, hkeep⟩ | ⟨hnext, hplan, hval⟩
    · refine Or.inl ⟨congrArg (fun g : Generation ↦ (g.get : ℤ)) hgen, fun hsome ↦ ?_⟩
      have hsome' : j.plan.isSome := by simpa [columns] using hsome
      obtain ⟨hp, hv⟩ := hkeep hsome'
      exact ⟨congrArg columns hp, hv⟩
    · have hgen : next.generation.get = j.generation.get + 1 := Generation.get_of_next hnext
      have hreplaces : replaces event = true := by
        rw [hd.replaces_eq, decide_eq_true_iff]
        exact Generation.ne_of_next hnext
      refine Or.inr ⟨by push_cast [hgen]; rfl, congrArg columns hplan, hval, ?_, ?_⟩
      · rw [ht.eq, hd.job]
        exact filter_keptExtents.trans (if_pos ⟨hreplaces, rfl⟩)
      · rw [ht.eq, hd.job]
        exact lookup_keptIntents.trans (if_pos ⟨Or.inl hreplaces, rfl⟩)
  · refine .of_states ?_
    rw [ht.eq, hd.job]
    exact AList.lookup_insert_ne hid

/-- The repository resumes existing bytes only under the same total and a validator that is present
and the same. -/
theorem Store.Inv.probe_rows (hs : s.Inv H) {event : JobEvent} {j next : Job}
    (hd : Decided H s event j next) (h : Persistence.transition s event = .ok s')
    {total maxSegments : ℕ} {validator : Option Digest}
    (hc : event.command = .probeSucceeded total maxSegments validator) {now : Current}
    (hnow : current s event.job.get = .ok now) {plan : ℤ × ℤ} (hplan : now.plan = some plan) :
    plan.1 = total ∧ validator.isSome ∧ validator = now.validator := by
  obtain ⟨hcur, -⟩ := hs.transition_rows hd h
  rw [hd.job] at hnow
  obtain rfl := Except.ok.inj (hcur.symm.trans hnow)
  have hstep := hd.step
  rw [hc] at hstep
  obtain ⟨⟨t, m⟩, hp, rfl⟩ := Option.map_eq_some_iff.1 hplan
  rcases hstep.probed.2 with ⟨hnone, -⟩ | ⟨⟨m', hm', htotal⟩, hsome, hval, -⟩
  · rw [hnone] at hp
    cases hp
  · rw [Job.plan, hm'] at hp
    cases hp
    exact ⟨congrArg Nat.cast htotal, hsome, hval⟩

/-- A copy and the row agree on the representation of a generation they share. -/
theorem Store.Inv.agrees (hs : s.Inv H) {j : Job} (hj : Owner H s j) {row : JobsRow}
    (hrow : s.jobs.lookup (j.id.get : ℤ) = some row) {now : Current}
    (hnow : current s j.id.get = .ok now) (hgen : now.generation = j.generation.get)
    (hplan : j.plan.isSome) : now.plan = columns j.plan ∧ now.validator = j.validator := by
  obtain ⟨job, spec, h, ds, he⟩ := hs.entry _ row hrow
  obtain rfl := Except.ok.inj (he.reads.current.symm.trans hnow)
  have hlast := he.newest
  rw [List.getLast?_eq_getElem?] at hlast
  have hlt := (List.getElem?_eq_some_iff.1 hj.header).1
  rcases hs.lawful.reaches (by omega) hj.header hlast with ⟨-, hkeep⟩ | hlt
  · obtain ⟨hp, hv⟩ := hkeep hplan
    exact ⟨congrArg columns hp, hv⟩
  · have hg : h.generation.get = j.generation.get := Int.ofNat.inj hgen
    exact absurd hlt (by rw [hg]; exact lt_irrefl _)

end Persistence

/-! ### Where durable bytes come from -/

namespace World

variable {H H' : Chronicle} {w w' : World}

/-- Owners that use what copies issued: tickets for a sync come from some `prepare_sync`, and the
extents of a commit from some batch of that job and generation. -/
def Faithful (w : World) (a : Action) : Prop :=
  w.Allows a ∧
    match a with
    | .commitExtents job generation extents => ∀ e ∈ extents, ∃ b ∈ w.batches,
        b.job = job ∧ b.generation = generation ∧ e.range ∈ b.ranges
    | .onSegments _ (.acknowledgeSync ticket) => ticket ∈ w.tickets
    | _ => True

instance (w : World) (a : Action) : Decidable (w.Faithful a) :=
  match a with
  | .commitExtents job generation extents =>
    inferInstanceAs (Decidable (w.Allows (.commitExtents job generation extents) ∧
      ∀ e ∈ extents, ∃ b ∈ w.batches, b.job = job ∧ b.generation = generation ∧ e.range ∈ b.ranges))
  | .onSegments owner (.acknowledgeSync ticket) =>
    inferInstanceAs (Decidable (w.Allows (.onSegments owner (.acknowledgeSync ticket)) ∧
      ticket ∈ w.tickets))
  | .commitTransition event => inferInstanceAs (Decidable (w.Allows (.commitTransition event) ∧ True))
  | .apply owner event => inferInstanceAs (Decidable (w.Allows (.apply owner event) ∧ True))
  | .reserveId | .commitAdd _ | .remove _ _ | .recordPublishIntent _ | .adopt _ _ | .loadJobs
  | .decide _ _ | .onSegments _ (.handle _) | .onSegments _ (.apply _)
  | .onSegments _ (.leaseSegment _ _) | .onSegments _ (.splitPending _ _)
  | .onSegments _ (.markWritten _) | .onSegments _ (.release _) | .onSegments _ .abandonCheckpoint
  | .onSegments _ .discardUnsynced | .onSegments _ .prepareSync
  | .onSegments _ (.acknowledgeCommit _) => inferInstanceAs (Decidable (True ∧ True))

/-- Some lease of this byte was granted under this representation. -/
def Granted (w : World) (job : JobId) (generation : Generation) (total : ℕ)
    (validator : Option Digest) (p : ℕ) : Prop :=
  ∃ g ∈ w.grants, g.job = job ∧ g.generation = generation ∧ g.total = total ∧
    g.validator = validator ∧ p ∈ g.range

theorem Granted.mono (h : w.grants ⊆ w'.grants) {job : JobId} {generation : Generation} {total : ℕ}
    {validator : Option Digest} {p : ℕ} (hg : w.Granted job generation total validator p) :
    w'.Granted job generation total validator p := by
  obtain ⟨g, hmem, hrest⟩ := hg
  exact ⟨g, h hmem, hrest⟩

/-- Granted under the representation that some header of the job describes. -/
def GrantedIn (H : Chronicle) (w : World) (job : JobId) (generation : Generation) (p : ℕ) :
    Prop :=
  ∃ h ∈ H job.get, h.generation = generation ∧ ∃ plan ∈ h.plan,
    w.Granted job generation plan.1 h.validator p

/-- **Every taken byte was granted**, wherever it is found. -/
structure Sourced (H : Chronicle) (w : World) : Prop where
  copies : ∀ j ∈ w.owners, ∀ m ∈ j.segments, ∀ p, m.TakenAt p →
    w.Granted j.id j.generation m.total j.validator p
  tickets : ∀ t ∈ w.tickets, t.ranges = t.selection.map (·.2.1)
  batches : ∀ b ∈ w.batches, ∀ r ∈ b.ranges, ∀ p ∈ r, GrantedIn H w b.job b.generation p
  extents : ∀ row ∈ w.store.extents, ∃ (job : JobId) (e : DurableExtent) (generation : Generation),
    row = ExtentRow.of job.get generation.get e ∧
      ∀ p ∈ e.range, GrantedIn H w job generation p

theorem GrantedIn.mono (hH : H.Extends H') (hw : w.grants ⊆ w'.grants) {job : JobId}
    {generation : Generation} {p : ℕ} (h : GrantedIn H w job generation p) :
    GrantedIn H' w' job generation p := by
  obtain ⟨h, hmem, hgen, plan, hplan, hg⟩ := h
  obtain ⟨v, hv⟩ := List.mem_iff_getElem?.1 hmem
  exact ⟨h, List.mem_of_getElem? (hH _ v h hv), hgen, plan, hplan, hg.mono hw⟩

/-- A byte granted in the generation of the row was granted under what the row says. -/
theorem GrantedIn.newest (hH : H.Lawful) {id : ℤ} {row : JobsRow} {job : JobId} {spec : JobSpec}
    {h : Header} {ds : List DurableExtent} (he : StoredJob H w.store id row job spec h ds) {p : ℕ}
    (hp : GrantedIn H w job h.generation p) :
    ∃ plan ∈ h.plan, w.Granted job h.generation plan.1 h.validator p := by
  obtain ⟨h₀, hmem, hgen, plan, hplan, hg⟩ := hp
  obtain ⟨v, hv⟩ := List.mem_iff_getElem?.1 hmem
  have hlast := he.newest
  rw [he.id_eq, List.getLast?_eq_getElem?] at hlast
  have hlt := (List.getElem?_eq_some_iff.1 hv).1
  rcases hH.reaches (by omega) hv hlast with ⟨-, hkeep⟩ | hlt'
  · obtain ⟨hp, hv⟩ := hkeep (Option.isSome_iff_exists.2 ⟨plan, hplan⟩)
    exact ⟨plan, by rw [hp]; exact hplan, by rw [hv]; exact hg⟩
  · rw [hgen] at hlt'
    exact absurd hlt' (lt_irrefl _)

/-- The stored bytes of a job were granted under what its row says. -/
theorem Sourced.stored (hw : w.Inv H) (hs : Sourced H w) {id : ℤ} {row : JobsRow} {job : JobId}
    {spec : JobSpec} {h : Header} {ds : List DurableExtent}
    (he : StoredJob H w.store id row job spec h ds) {e : DurableExtent} (hmem : e ∈ ds) {p : ℕ}
    (hp : p ∈ e.range) : ∃ plan ∈ h.plan, w.Granted job h.generation plan.1 h.validator p := by
  have hrow : ExtentRow.of id h.generation.get e ∈ w.store.extents := by
    have : ExtentRow.of id h.generation.get e ∈ w.store.extents.filter (·.job = id) := by
      rw [he.extents]
      exact List.mem_map_of_mem hmem
    exact (List.mem_filter.1 this).1
  obtain ⟨job', e', generation, heq, hunder⟩ := hs.extents _ hrow
  rw [he.id_eq] at heq
  simp only [ExtentRow.of, ExtentRow.mk.injEq, Int.natCast_inj] at heq
  obtain ⟨hjob, hgen, hstart, hstop, -⟩ := heq
  obtain rfl := Identifier.ext hjob
  obtain rfl := Identifier.ext hgen
  refine GrantedIn.newest hw.store.lawful he (hunder p ?_)
  rw [ByteRange.mem_def] at hp ⊢
  omega

/-- A copy grants under its own header. -/
theorem Sourced.in_copy (hw : w.Inv H) (hs : Sourced H w) {j : Job} (hj : j ∈ w.owners)
    {m : SegmentMap} (hm : j.segments = some m) {p : ℕ} (hp : m.TakenAt p) :
    GrantedIn H w j.id j.generation p := by
  refine ⟨Header.of j, List.mem_of_getElem? (hw.owners j hj).header, rfl, (m.total, m.maximum), ?_,
    hs.copies j hj m hm p hp⟩
  simp [Header.of, Job.plan, hm]

/-- What a map answers with a ticket or a batch. -/
theorem ticket_of_perform {m : SegmentMap} (hm : m.Inv) {mapOp : SegmentMap.Op} {t : SyncTicket}
    (h : (m.perform mapOp).1 = .ok (.ticket t)) : t.ranges = t.selection.map (·.2.1) := by
  rcases SegmentMap.perform_cases hm.ids_nodup mapOp with ⟨e, he⟩ | ⟨r, m', hr, hch⟩
  · rw [he] at h
    cases h
  · rw [hr] at h
    obtain rfl : r = .ticket t := Except.ok.inj h
    cases hch with
    | cut hseg hpend hsplit hop =>
      rcases hop with ⟨_, _, -, hreply⟩ | ⟨_, -, hreply⟩ <;> cases hreply
    | prepareSync hnone =>
      rw [SegmentMap.ticket, List.map_map]
      rfl

theorem batch_of_perform {m : SegmentMap} (hm : m.Inv) {mapOp : SegmentMap.Op} {b : CommitBatch}
    (h : (m.perform mapOp).1 = .ok (.batch b)) : ∃ c, m.checkpoint = some c ∧
      b = ⟨m.job, m.generation, c.sequence, b.ranges, c.selection⟩ ∧
      mapOp = .acknowledgeSync ⟨m.job, m.generation, c.sequence, b.ranges, c.selection⟩ := by
  rcases SegmentMap.perform_cases hm.ids_nodup mapOp with ⟨e, he⟩ | ⟨r, m', hr, hch⟩
  · rw [he] at h
    cases h
  · rw [hr] at h
    obtain rfl : r = .batch b := Except.ok.inj h
    cases hch with
    | cut hseg hpend hsplit hop =>
      rcases hop with ⟨_, _, -, hreply⟩ | ⟨_, -, hreply⟩ <;> cases hreply
    | acknowledgeSync ranges hc hsynced => exact ⟨_, hc, rfl, rfl⟩

/-- One copy is replaced by a copy all of whose taken bytes are granted. -/
theorem Sourced.set_copy (hs : Sourced H w) {i : ℕ} {k : Job} (hw' : w'.owners = w.owners.set i k)
    (hgrants : w.grants ⊆ w'.grants) (hk : ∀ m ∈ k.segments, ∀ p, m.TakenAt p →
      w'.Granted k.id k.generation m.total k.validator p) :
    ∀ j ∈ w'.owners, ∀ m ∈ j.segments, ∀ p, m.TakenAt p →
      w'.Granted j.id j.generation m.total j.validator p := by
  intro j hj m hm p hp
  rw [hw'] at hj
  rcases List.mem_or_eq_of_mem_set hj with hj | rfl
  · exact (hs.copies j hj m hm p hp).mono hgrants
  · exact hk m hm p hp

/-- A call on the segments of a copy: what it takes, it was granted. -/
theorem Sourced.segments (hw : w.Inv H) (hs : Sourced H w) {i : ℕ} {op : Job.Op}
    {mapOp : SegmentMap.Op} {j : Job} {grants : List Grant} {tickets : List SyncTicket}
    {batches : List CommitBatch} (hj : w.owners[i]? = some j) (hop : op.onSegments = some mapOp)
    (hrec : Recorded j op grants tickets batches)
    (ha : ∀ ticket, op = .acknowledgeSync ticket → ticket ∈ w.tickets) :
    Sourced H { w with
      owners := w.owners.set i (j.perform op), grants := w.grants ++ grants
      tickets := w.tickets ++ tickets, batches := w.batches ++ batches } := by
  have hmem := List.mem_of_getElem? hj
  have hinv := (hw.owners j hmem).inv
  have hsub : w.grants ⊆ w.grants ++ grants := List.subset_append_left _ _
  have hmap : ∀ {r}, j.answer op = .ok r → ∃ m, j.segments = some m ∧ (m.perform mapOp).1 = .ok r := by
    intro r hr
    rcases j.perform_segments hop with ⟨e, he, -⟩ | ⟨m, -, hm, hanswer, -⟩
    · rw [he] at hr
      cases hr
    · exact ⟨m, hm, hanswer.symm.trans hr⟩
  refine ⟨hs.set_copy rfl hsub fun m' hm' p hp ↦ ?_, fun t ht ↦ ?_, fun b hb r hr p hp ↦ ?_,
    fun row hrow ↦ ?_⟩
  · rcases j.perform_segments hop with ⟨e, -, he⟩ | ⟨m, -, hm, hanswer, he⟩
    · rw [he] at hm' ⊢
      exact (hs.copies j hmem m' hm' p hp).mono hsub
    · rw [he] at hm' ⊢
      obtain rfl := Option.mem_some_iff.1 hm'
      obtain ⟨-, -, htotal, -⟩ := Job.sameScope_perform (hinv.map m hm) (Job.Op.onSegments_ne hop)
      dsimp only
      rw [htotal]
      rcases SegmentMap.perform_cases (hinv.map m hm).ids_nodup mapOp with ⟨e, herr⟩ | ⟨r, m', hr, hch⟩
      · rw [herr] at hp
        exact (hs.copies j hmem m hm p hp).mono hsub
      · rw [hr] at hp hanswer
        rcases hch.taken (hinv.map m hm) hp with hold | ⟨lease, rfl, hlease⟩
        · exact (hs.copies j hmem m hm p hold).mono hsub
        · refine ⟨⟨j.id, j.generation, j.plan.elim 0 (·.1), j.validator, lease.range⟩,
            List.mem_append_right _ ?_, rfl, rfl, ?_, rfl, hlease⟩
          · rw [hrec.lease lease hanswer]
            exact List.mem_singleton_self _
          · simp [Job.plan, hm]
  · rcases List.mem_append.1 ht with ht | ht
    · exact hs.tickets t ht
    · obtain ⟨m, hm, hr⟩ := hmap (hrec.ticket t ht)
      exact ticket_of_perform (hinv.map m hm) hr
  · rcases List.mem_append.1 hb with hb | hb
    · exact (hs.batches b hb r hr p hp).mono (.refl H) hsub
    · obtain ⟨m, hm, hreply⟩ := hmap (hrec.batch b hb)
      obtain ⟨c, hc, hbatch, hmapOp⟩ := batch_of_perform (hinv.map m hm) hreply
      have hticket := hs.tickets _ (ha _ (by
        rw [hmapOp] at hop
        cases op <;> cases hop
        rfl))
      dsimp only at hticket
      rw [hticket] at hr
      obtain ⟨e, he, rfl⟩ := List.mem_map.1 hr
      have htaken := (hinv.map m hm).taken_of_selected hc he hp
      have hjob : b.job = j.id := by
        rw [hbatch]
        exact hinv.job m hm
      have hgen : b.generation = j.generation := by
        rw [hbatch]
        exact hinv.generation m hm
      rw [hjob, hgen]
      exact (hs.in_copy hw hmem hm htaken).mono (.refl H) hsub
  · obtain ⟨job, e, generation, heq, hunder⟩ := hs.extents row hrow
    exact ⟨job, e, generation, heq, fun p hp ↦ (hunder p hp).mono (.refl H) hsub⟩

/-- A step of the repository that adds no extents. -/
theorem Sourced.store_step (hs : Sourced H w) (hH : H.Extends H') {s : Store}
    (hsub : ∀ row ∈ s.extents, row ∈ w.store.extents) (committed : List JobEvent)
    (admitted : List (JobId × JobSpec)) :
    Sourced H' { w with store := s, committed := committed, admitted := admitted } := by
  have hgrants : w.grants ⊆ w.grants := List.Subset.refl _
  refine ⟨hs.copies, hs.tickets, fun b hb r hr p hp ↦ ?_, fun row hrow ↦ ?_⟩
  · exact (hs.batches b hb r hr p hp).mono hH hgrants
  · obtain ⟨job, e, generation, heq, hunder⟩ := hs.extents row (hsub row hrow)
    exact ⟨job, e, generation, heq, fun p hp ↦ (hunder p hp).mono hH hgrants⟩

/-- **Step lemma**: whatever faithful owners do, every taken byte was granted. -/
theorem Sourced.perform (hw : w.Inv H) (hs : Sourced H w) {a : Action} (ha : w.Faithful a)
    (hH : H.Extends H') : Sourced H' (w.perform a).2 := by
  have hgrants : w.grants ⊆ w.grants := List.Subset.refl _
  have hstay : Sourced H' w := hs.store_step hH (fun _ h ↦ h) w.committed w.admitted
  have hmove := w.moves_perform a
  generalize (w.perform a).2 = w' at hmove
  cases hmove with
  | refused => exact hstay
  | reserved h =>
    obtain ⟨-, -, heq⟩ := reserveId_eq_ok h
    exact hs.store_step hH (by rw [heq]; exact fun _ h ↦ h) w.committed w.admitted
  | added h =>
    obtain ⟨-, -, -, -, -, -, heq⟩ := commitAdd_eq_ok h
    exact hs.store_step hH (by rw [heq]; exact fun _ h ↦ h) w.committed _
  | removed h =>
    obtain ⟨saved, row, -, -, -, heq⟩ := remove_eq_ok h
    refine hs.store_step hH (fun row hrow ↦ ?_) w.committed w.admitted
    rw [heq] at hrow
    exact (List.mem_filter.1 hrow).1
  | @hardened job generation extents s h =>
    obtain ⟨row, now, total, maximum, existing, fresh, hh⟩ := durable_eq_ok h
    have hsub : ∀ e ∈ fresh, e ∈ extents := by
      obtain ⟨job', spec, h', ds, he⟩ := hw.store.entry _ row hh.lookup
      have hexisting : Apart (ranges existing) := by
        have hcur := Except.ok.inj (he.reads.current.symm.trans hh.current)
        have hgen : h'.generation.get = generation.get := by
          have := hh.generation
          rw [← hcur] at this
          exact Int.ofNat.inj this
        have hread := extents_eq he.extents
        rw [hgen] at hread
        rw [← Except.ok.inj (hread.symm.trans hh.extents)]
        exact he.holds.apart.perm (ranges_sorted_perm ds).symm
      exact (admit_eq_some hh.admitted hexisting).2.1
    refine ⟨hs.copies, hs.tickets, hstay.batches, fun row' hrow' ↦ ?_⟩
    rw [hh.eq] at hrow'
    rcases List.mem_append.1 hrow' with hold | hnew
    · exact hstay.extents row' hold
    · obtain ⟨e, he, rfl⟩ := List.mem_map.1 hnew
      obtain ⟨b, hb, rfl, rfl, hrange⟩ := ha.2 e (hsub e he)
      exact ⟨b.job, e, b.generation, rfl, fun p hp ↦ hstay.batches b hb e.range hrange p hp⟩
  | intended h =>
    obtain ⟨now, maximum, -, -, -, -, heq⟩ := intendPublish_eq_ok h
    exact hs.store_step hH (by rw [heq]; exact fun _ h ↦ h) w.committed w.admitted
  | committed h =>
    obtain ⟨row, now, p, ds, st, ht⟩ := transition_eq_ok h
    refine hs.store_step hH (fun row hrow ↦ ?_) _ w.admitted
    rw [ht.eq] at hrow
    dsimp only [keptExtents] at hrow
    split at hrow
    · exact (List.mem_filter.1 hrow).1
    · exact hrow
  | adopted h =>
    refine ⟨fun j hj m hm p hp ↦ ?_, hstay.tickets, hstay.batches, hstay.extents⟩
    rcases List.mem_append.1 hj with hj | hj
    · exact hs.copies j hj m hm p hp
    · rw [List.mem_singleton.1 hj] at hm
      cases hm
  | loaded h =>
    obtain ⟨js, hjs, -, hload⟩ := hw.store.jobs
    obtain rfl := Except.ok.inj (hjs.symm.trans h)
    refine ⟨fun j hj m hm p hp ↦ ?_, hstay.tickets, hstay.batches, hstay.extents⟩
    rcases List.mem_append.1 hj with hj | hj
    · exact hs.copies j hj m hm p hp
    · obtain ⟨id, row, job, spec, h', ds, -, he, hl⟩ := hload j hj
      obtain ⟨t, ht, hstate, hpt⟩ := hp
      have hdur : m.DurableAt p := ⟨t, ht, ((hl.idle m hm).1 t ht).resolve_left hstate, hpt⟩
      obtain ⟨r, hr, hpr⟩ := (hl.durable m hm p).1 hdur
      obtain ⟨e, hmem, rfl⟩ := List.mem_map.1 hr
      obtain ⟨plan, hplan, hg⟩ := hs.stored hw he hmem hpr
      rw [← hl.header] at hplan hg
      have hp' : plan = (m.total, m.maximum) := by
        rw [Option.mem_def, Header.of, Job.plan, Option.mem_def.1 hm] at hplan
        exact (Option.some.inj hplan).symm
      rw [hp', ← hl.id] at hg
      exact hg
  | decided hj h => exact ⟨hs.copies, hs.tickets, hstay.batches, hstay.extents⟩
  | @applied i event j hj =>
    have hmem := List.mem_of_getElem? hj
    refine ⟨hs.set_copy rfl hgrants fun m hm p hp ↦ ?_, hs.tickets, hstay.batches, hstay.extents⟩
    rcases j.apply_cases event with ⟨e, he⟩ | ⟨next, -, -, -, -, hexec, -, -, hok⟩
    · rw [he] at hm ⊢
      exact hs.copies j hmem m hm p hp
    · rw [hok] at hm ⊢
      have hstep := Job.execute_step hexec
      obtain ⟨hseg, hgen, hval⟩ := hstep.taken hm hp
      dsimp only
      rw [hstep.identity.1, hgen, hval]
      exact hs.copies j hmem m hseg p hp
  | @segments i op mapOp j grants tickets batches hj hop hrec =>
    have hfaith : ∀ ticket, op = .acknowledgeSync ticket → ticket ∈ w.tickets := by
      rintro ticket rfl
      exact ha.2
    have hseg := hs.segments hw hj hop hrec hfaith
    exact hseg.store_step hH (fun _ h ↦ h) w.committed w.admitted

/-- **Run lemma.** -/
theorem Reachable.sourced {limits : Limits} (h : Reachable Faithful limits w) :
    ∃ H, Inv H w ∧ Sourced H w := by
  induction h with
  | init =>
    refine ⟨_, ⟨inv_empty limits, by simp [World.init], by simp [World.init], by simp [World.init],
      by simp [World.init]⟩, ?_⟩
    exact ⟨by simp [World.init], by simp [World.init], by simp [World.init],
      fun row hrow ↦ by cases hrow⟩
  | step _ ha ih =>
    obtain ⟨H, hw, hs⟩ := ih
    obtain ⟨H', hH, hw'⟩ := hw.perform ha.1
    exact ⟨H', hw', hs.perform hw ha hH⟩

/-! ### The result -/

/-- What a step does to the representations of the copies and of the rows. -/
structure KeepsRepresentations (w : World) (a : Action) : Prop where
  memory : ∀ (i : ℕ) (j j' : Job), w.owners[i]? = some j → (w.perform a).2.owners[i]? = some j' →
    j'.id = j.id ∧ j.SameOrNext j'
  rows : ∀ id, w.store.jobs.lookup id ≠ none → (w.perform a).2.store.jobs.lookup id ≠ none →
    RowsSameOrNext w.store (w.perform a).2.store id
  probe : ∀ event total maxSegments validator, a = .commitTransition event →
    event.command = .probeSucceeded total maxSegments validator → (w.perform a).1 = .ok () →
    ∀ now plan, current w.store event.job.get = .ok now → now.plan = some plan →
      plan.1 = total ∧ validator.isSome ∧ validator = now.validator

/-- All durable bytes of a job belong to one representation. -/
structure Unmixed (w : World) : Prop where
  probe : ∀ j ∈ w.owners, ∀ total maxSegments validator j' m,
    j.execute (.probeSucceeded total maxSegments validator) = .ok (true, j') →
    j.segments = some m → m.total = total ∧ validator.isSome ∧ validator = j.validator ∧
      j'.segments = some m
  agree : ∀ j ∈ w.owners, ∀ row now, w.store.jobs.lookup (j.id.get : ℤ) = some row →
    current w.store j.id.get = .ok now → now.generation = j.generation.get → j.plan.isSome →
    now.plan = columns j.plan ∧ now.validator = j.validator
  copies : ∀ j ∈ w.owners, ∀ m ∈ j.segments, ∀ p, m.DurableAt p →
    w.Granted j.id j.generation m.total j.validator p
  rows : ∀ (job : JobId) row now, w.store.jobs.lookup (job.get : ℤ) = some row →
    current w.store job.get = .ok now → ∀ x ∈ w.store.extents, x.job = job.get →
    x.generation = now.generation ∧ ∃ (generation : Generation) (total : ℕ) (maximum : ℤ),
      now.generation = generation.get ∧ now.plan = some ((total : ℤ), maximum) ∧
      ∀ p : ℕ, x.start ≤ p → p < x.endExcl → w.Granted job generation total now.validator p

theorem Inv.keepsRepresentations (hw : w.Inv H) {a : Action} (ha : w.Allows a) :
    KeepsRepresentations w a := by
  have hmove := w.moves_perform a
  refine ⟨?_, ?_, ?_⟩
  · intro i j j' hj hj'
    have hsame : (w.perform a).2.owners = w.owners → j'.id = j.id ∧ j.SameOrNext j' := by
      intro h
      rw [h, hj] at hj'
      obtain rfl := Option.some.inj hj'
      exact ⟨rfl, .of_header rfl⟩
    have hgrown : ∀ more, (w.perform a).2.owners = w.owners ++ more →
        j'.id = j.id ∧ j.SameOrNext j' := by
      intro more h
      rw [h, List.getElem?_append_left (List.getElem?_eq_some_iff.1 hj).1, hj] at hj'
      obtain rfl := Option.some.inj hj'
      exact ⟨rfl, .of_header rfl⟩
    have hset : ∀ i' k k', w.owners[i']? = some k → (w.perform a).2.owners = w.owners.set i' k' →
        k'.id = k.id ∧ k.SameOrNext k' → j'.id = j.id ∧ j.SameOrNext j' := by
      intro i' k k' hk h hkk
      rw [h, List.getElem?_set] at hj'
      split at hj'
      next hi =>
        rw [hi] at hk
        obtain rfl := Option.some.inj (hk.symm.trans hj)
        split at hj'
        · obtain rfl := Option.some.inj hj'
          exact hkk
        · cases hj'
      · rw [hj] at hj'
        obtain rfl := Option.some.inj hj'
        exact ⟨rfl, .of_header rfl⟩
    generalize (w.perform a).2 = w' at hmove hj' hsame hgrown hset
    cases hmove with
    | adopted h => exact hgrown _ rfl
    | loaded h => exact hgrown _ rfl
    | @applied i' event k hk =>
      refine hset i' k _ hk rfl ⟨?_, k.sameOrNext_apply event⟩
      rcases k.apply_cases event with ⟨e, he⟩ | ⟨next, -, -, -, -, hexec, -, -, hok⟩
      · rw [he]
      · rw [hok]
        exact (Job.execute_step hexec).identity.1
    | @segments i' op mapOp k _ _ _ hk hop hrec =>
      obtain ⟨hheader, hid, -⟩ :=
        Job.header_segments (hw.owners k (List.mem_of_getElem? hk)).inv hop
      exact hset i' k _ hk rfl ⟨hid, .of_header hheader⟩
    | _ => exact hsame rfl
  · intro id hrow hrow'
    generalize (w.perform a).2 = w' at hmove hrow'
    cases hmove with
    | reserved h =>
      obtain ⟨-, -, heq⟩ := reserveId_eq_ok h
      exact .of_states (by rw [heq])
    | added h =>
      obtain ⟨-, -, -, -, -, -, heq⟩ := commitAdd_eq_ok h
      exact .of_states (by rw [heq])
    | removed h =>
      obtain ⟨saved, row, -, -, -, heq⟩ := remove_eq_ok h
      refine .of_states ?_
      rw [heq]
      refine AList.lookup_erase_ne ?_
      rintro rfl
      rw [heq] at hrow'
      exact hrow' (AList.lookup_erase _ _)
    | hardened h =>
      obtain ⟨row, now, total, maximum, existing, fresh, hh⟩ := durable_eq_ok h
      exact .of_states (by rw [hh.eq])
    | intended h =>
      obtain ⟨now, maximum, -, -, -, -, heq⟩ := intendPublish_eq_ok h
      exact .of_states (by rw [heq])
    | @committed event s h =>
      obtain ⟨j, next, hd⟩ := hw.decided event ha
      exact hw.store.rows_transition hd h id
    | _ => exact .of_states rfl
  · rintro event total maxSegments validator rfl hc hok now plan hnow hplan
    obtain ⟨j, next, hd⟩ := hw.decided event ha
    rcases hs : transition w.store event with e | s
    · have hrefused : (w.settle (transition w.store event) fun s ↦
          { w with store := s, committed := w.committed ++ [event] }).1 = .ok () := hok
      rw [hs] at hrefused
      cases hrefused
    · exact hw.store.probe_rows hd hs hc hnow hplan

theorem Sourced.unmixed (hw : w.Inv H) (hs : Sourced H w) : w.Unmixed := by
  refine ⟨fun j hj total maxSegments validator j' m hexec hm ↦ ?_, fun j hj row now hrow hnow ↦ ?_,
    fun j hj m hm p hp ↦ hs.copies j hj m hm p hp.taken, fun job row now hrow hnow x hx hjob ↦ ?_⟩
  · rcases (Job.execute_step hexec).probed.2 with ⟨hnone, -⟩ | ⟨⟨m', hm', htotal⟩, hsome, hval, hseg, -⟩
    · rw [Job.plan, hm] at hnone
      cases hnone
    · obtain rfl := Option.some.inj (hm'.symm.trans hm)
      exact ⟨htotal, hsome, hval, hseg.trans hm'⟩
  · exact hw.store.agrees (hw.owners j hj) hrow hnow
  · obtain ⟨job', spec, h, ds, he⟩ := hw.store.entry _ row hrow
    obtain rfl : job' = job := Identifier.ext (by have := he.id_eq; omega)
    obtain rfl := Except.ok.inj (he.reads.current.symm.trans hnow)
    have hmem : x ∈ w.store.extents.filter (·.job = (job'.get : ℤ)) :=
      List.mem_filter.2 ⟨hx, decide_eq_true hjob⟩
    rw [he.extents] at hmem
    obtain ⟨e, he', rfl⟩ := List.mem_map.1 hmem
    obtain ⟨⟨total, maximum⟩, hplan⟩ :=
      Option.isSome_iff_exists.1 (he.holds.planned (List.ne_nil_of_mem he'))
    refine ⟨rfl, h.generation, total, maximum, rfl, by rw [hplan]; rfl, fun p hp hp' ↦ ?_⟩
    obtain ⟨plan, hplan', hg⟩ := hs.stored hw he he' (p := p) ⟨Int.ofNat_le.1 hp, Int.ofNat_lt.1 hp'⟩
    obtain rfl := Option.some.inj (hplan.symm.trans hplan')
    exact hg

/-- **Representations are never mixed.** Whatever faithful owners do: a step keeps the representation
of every copy and of every row, or moves it to the next generation with nothing left of the old one,
in memory and in one transaction of the repository; existing segments survive a probe only under the
same total and a validator that is present and the same; and every durable byte, in memory and in the
repository, was leased under the one representation its copy or its row has now. -/
theorem one_representation {limits : Limits} (h : Reachable Faithful limits w) :
    w.Unmixed ∧ ∀ a, w.Faithful a → w.KeepsRepresentations a := by
  obtain ⟨H, hw, hs⟩ := h.sourced
  exact ⟨hs.unmixed hw, fun a ha ↦ hw.keepsRepresentations ha.1⟩

namespace TenBytes

def lease : Lease := ⟨job, Generation.initial, ⟨1⟩, 1, 7, head.range⟩

def ticket : SyncTicket :=
  ⟨job, Generation.initial, 1, [head.range], [(⟨1⟩, head.range, 1)]⟩

/-- The first four bytes are leased, written, synced and committed. -/
def checkpoint : List Action :=
  [.onSegments 0 (.splitPending ⟨1⟩ 4), .onSegments 0 (.leaseSegment ⟨1⟩ 7),
    .onSegments 0 (.markWritten lease), .onSegments 0 .prepareSync,
    .onSegments 0 (.acknowledgeSync ticket), .commitExtents job Generation.initial [head],
    .onSegments 0 (.acknowledgeCommit ticket.batch)]

/-- The map of the job after loading it. -/
def reloadedMap : SegmentMap :=
  ⟨job, Generation.initial, 10, 8,
    [⟨⟨1⟩, head.range, .durable⟩, ⟨⟨2⟩, ⟨4, 10, by decide, ten_le_i64Max⟩, .pending⟩], 3, 1, 1, none⟩

def reloaded : Job :=
  ⟨job, spec, .transferring, Generation.initial, 2, none, none, none, false, 1,
    some (Vector.replicate 32 3), some reloadedMap⟩

end TenBytes

/-- The first four of ten bytes are leased, written, synced and committed, and the job is loaded
again: the loaded copy holds four durable bytes, granted under the first generation. -/
theorem one_representation_ten :
    ∃ (w : World) (j : Job) (m : SegmentMap), Reachable Faithful TenBytes.limits w ∧ j ∈ w.owners ∧
      j.segments = some m ∧ m.durableBytes = 4 ∧
      w.Granted j.id Generation.initial 10 (some (Vector.replicate 32 3)) 0 := by
  have hreach : Reachable Faithful TenBytes.limits
      ((init TenBytes.limits).run (TenBytes.opening ++ TenBytes.checkpoint ++ [.loadJobs])) :=
    Reachable.init.run (by decide +kernel)
  obtain ⟨hunmixed, -⟩ := one_representation hreach
  refine ⟨_, TenBytes.reloaded, TenBytes.reloadedMap, hreach, by decide +kernel, rfl,
    by decide +kernel, ?_⟩
  exact hunmixed.copies TenBytes.reloaded (by decide +kernel) TenBytes.reloadedMap rfl 0
    ⟨⟨⟨1⟩, TenBytes.head.range, .durable⟩, by decide +kernel, rfl, by decide⟩

end World

end Fhd
