import FhdEngine.Domain.SegmentInvariant

/-!
# Which calls on the segment map are accepted

The invariant says what the operations keep. A session also needs to know that its own calls are
never refused: a lease that is still held is settled either way, a pending segment can be leased or
cut, and a checkpoint that is carried through in order is acknowledged. What is left are the ends of
the 64-bit counters, which every lemma names.
-/

namespace Fhd

namespace SegmentMap

variable {m : SegmentMap} {s : Segment}

/-- A plan within bounds is accepted, and all of it is pending. -/
theorem new_of_le {job : JobId} {generation : Generation} {total maximum : ℕ} (htotal : total ≤ i64Max)
    (hmaximum : 1 ≤ maximum ∧ maximum ≤ maxSegments) :
    ∃ m, new job generation total maximum = .ok m ∧ ∀ s ∈ m.segments, s.state = .pending := by
  unfold new
  rw [if_neg (by omega)]
  split
  · exact ⟨_, rfl, fun _ hs ↦ absurd hs List.not_mem_nil⟩
  next hzero =>
    rw [ByteRange.new, dif_neg (by omega)]
    refine ⟨_, rfl, fun s hs ↦ ?_⟩
    rw [List.mem_singleton.1 hs]

/-- A segment of the map is found by its identifier. -/
theorem index_of_mem (hids : (m.segments.map (·.id)).Nodup) (hs : s ∈ m.segments) :
    ∃ i, m.index s.id = .ok i ∧ m.segments.get i = s := by
  rcases hi : m.index s.id with e | i
  · exfalso
    unfold index at hi
    split at hi
    next hnone =>
      have := List.findFinIdx?_eq_none_iff.1 hnone s hs
      simp at this
    · cases hi
  · exact ⟨i, rfl, eq_of_id_eq hids (List.getElem_mem _) hs (index_eq_ok hi).1⟩

/-- **A pending segment can be leased** until the attempts run out. -/
theorem lease_of_pending (h : m.Inv) (hs : s ∈ m.segments) (hpend : s.state = .pending) {worker : ℕ}
    (hworker : worker ≠ 0) :
    m.lease s.id worker = (.error .overflow, m) ∧ u64Max < m.nextAttempt + 1 ∨
      ∃ pre post, m.segments = pre ++ s :: post ∧
        m.lease s.id worker = (.ok ⟨m.job, m.generation, s.id, m.nextAttempt, worker, s.range⟩,
          { m with
            segments := pre ++ { s with state := .inFlight worker m.nextAttempt } :: post
            nextAttempt := m.nextAttempt + 1 }) := by
  obtain ⟨i, hi, (hget : m.segments[i] = s)⟩ := index_of_mem h.ids_nodup hs
  rcases m.lease_cases s.id worker with ⟨e, he⟩ | ⟨pre, t, post, hseg, hid, -, heq⟩
  · left
    by_cases hroom : m.nextAttempt + 1 ≤ u64Max
    · have hadd : checkedAdd m.nextAttempt 1 = some (m.nextAttempt + 1) :=
        checkedAdd_eq_some.2 ⟨hroom, rfl⟩
      simp only [lease, if_neg hworker, hi, hget, hpend, hadd] at he
      cases he
    · have hadd : checkedAdd m.nextAttempt 1 = none := if_neg hroom
      refine ⟨?_, not_le.1 hroom⟩
      simp only [lease, if_neg hworker, hi, hget, hpend, hadd, ne_eq, not_true_eq_false, ↓reduceIte]
  · right
    obtain rfl : t = s := eq_of_id_eq h.ids_nodup (by rw [hseg]; simp) hs hid
    exact ⟨pre, post, hseg, heq⟩

/-- A lease of this map is held by one of its segments. -/
def Holding (m : SegmentMap) (lease : Lease) : Prop :=
  lease.job = m.job ∧ lease.generation = m.generation ∧ ∃ s ∈ m.segments, Holds s lease

theorem leaseIndex_of_holding (h : m.Inv) {lease : Lease} (hold : m.Holding lease) :
    m.leaseIndex lease ≠ .error .staleToken := by
  obtain ⟨hjob, hgen, s, hs, hid, hrange, hstate⟩ := hold
  obtain ⟨i, hi, (hget : m.segments[i] = s)⟩ := index_of_mem h.ids_nodup hs
  rw [hid] at hi
  simp only [leaseIndex, hjob, hgen, hi, hget, hrange, hstate, ne_eq, not_true_eq_false, or_self,
    ↓reduceIte]
  intro hne
  cases hne

/-- A segment held by a lease is the one the operation finds. -/
theorem holds_unique (h : m.Inv) {lease : Lease} {t : Segment} (hs : s ∈ m.segments)
    (ht : t ∈ m.segments) (hold : Holds s lease) (hold' : Holds t lease) : s = t :=
  eq_of_id_eq h.ids_nodup hs ht (hold.1.trans hold'.1.symm)

/-- **A held lease can be marked written.** -/
theorem markWritten_of_holding (h : m.Inv) {lease : Lease} (hold : m.Holding lease) :
    ∃ pre t post, m.segments = pre ++ t :: post ∧ Holds t lease ∧
      m.markWritten lease = (.ok (),
        { m with segments := pre ++ { t with state := .written lease.attempt } :: post }) := by
  rcases m.markWritten_cases lease with he | ⟨pre, t, post, hseg, ht, -, -, heq⟩
  · exfalso
    rcases m.leaseIndex_cases lease with hstale | ⟨i, pre, post, hi, -⟩
    · exact leaseIndex_of_holding h hold hstale
    · rw [markWritten, hi] at he
      cases he
  · exact ⟨pre, t, post, hseg, ht, heq⟩

/-- **A held lease can be released.** -/
theorem release_of_holding (h : m.Inv) {lease : Lease} (hold : m.Holding lease) :
    ∃ pre t post, m.segments = pre ++ t :: post ∧ Holds t lease ∧
      m.release lease = (.ok (), { m with segments := pre ++ { t with state := .pending } :: post }) := by
  rcases m.release_cases lease with he | ⟨pre, t, post, hseg, ht, -, -, heq⟩
  · exfalso
    rcases m.leaseIndex_cases lease with hstale | ⟨i, pre, post, hi, -⟩
    · exact leaseIndex_of_holding h hold hstale
    · rw [release, hi] at he
      cases he
  · exact ⟨pre, t, post, hseg, ht, heq⟩

/-- **A pending segment can be cut inside**, until the map is full or the identifiers run out. -/
theorem splitPending_of_pending (h : m.Inv) (hs : s ∈ m.segments) (hpend : s.state = .pending)
    (at' : ℕ) :
    m.splitPending s.id at' = (.error .capacity, m) ∨
      m.splitPending s.id at' = (.error .overflow, m) ∧ u64Max < m.nextId + 1 ∨
      m.splitPending s.id at' = (.error .invalidInput, m) ∧
        ¬(s.range.start < at' ∧ at' < s.range.stop) ∨
      ∃ pre post left right, m.segments = pre ++ s :: post ∧ m.segments.length < m.maximum ∧
        s.range.split at' = .ok (left, right) ∧
        m.splitPending s.id at' = (.ok ⟨m.nextId⟩,
          { m with
            segments := pre ++ { s with range := left } :: ⟨⟨m.nextId⟩, right, .pending⟩ :: post
            nextId := m.nextId + 1 }) := by
  obtain ⟨i, hi, (hget : m.segments[i] = s)⟩ := index_of_mem h.ids_nodup hs
  rcases m.splitPending_cases s.id at' with ⟨e, he⟩ |
    ⟨pre, t, post, left, right, hseg, hid, -, hmax, hsplit, heq⟩
  · by_cases hfull : m.segments.length = m.maximum
    · left
      simp only [splitPending, hi, hget, hpend, hfull, ne_eq, not_true_eq_false, ↓reduceIte]
    right
    rcases hsplit : s.range.split at' with e' | ⟨left, right⟩
    · right; left
      obtain ⟨rfl, hout⟩ := ByteRange.split_eq_error hsplit
      refine ⟨?_, hout⟩
      simp only [splitPending, hi, hget, hpend, hfull, hsplit, ne_eq, not_true_eq_false, ↓reduceIte]
    · left
      by_cases hroom : m.nextId + 1 ≤ u64Max
      · have hadd : checkedAdd m.nextId 1 = some (m.nextId + 1) :=
          checkedAdd_eq_some.2 ⟨hroom, rfl⟩
        simp only [splitPending, hi, hget, hpend, hfull, hsplit, hadd, ne_eq, not_true_eq_false,
          ↓reduceIte] at he
        cases he
      · have hadd : checkedAdd m.nextId 1 = none := if_neg hroom
        refine ⟨?_, not_le.1 hroom⟩
        simp only [splitPending, hi, hget, hpend, hfull, hsplit, hadd, ne_eq, not_true_eq_false,
          ↓reduceIte]
  · right; right; right
    obtain rfl : t = s := eq_of_id_eq h.ids_nodup (by rw [hseg]; simp) hs hid
    exact ⟨pre, post, left, right, hseg, lt_of_le_of_ne h.length_le hmax, hsplit, heq⟩

/-- **A checkpoint can be prepared** while something is written and none is pending, until the
sequence numbers run out. -/
theorem prepareSync_of_unsynced (hnone : m.checkpoint = none) (hwritten : m.hasUnsynced = true) :
    m.prepareSync = (.error .overflow, m) ∧ u64Max < m.nextCheckpoint + 1 ∨
      m.prepareSync = (.ok m.ticket,
        { m with
          nextCheckpoint := m.nextCheckpoint + 1
          checkpoint := some ⟨m.nextCheckpoint, m.selected.map (·.id),
            m.selected.map Segment.selection, false⟩ }) := by
  have hsel : m.selected.isEmpty = false := by
    obtain ⟨s, hs, hw⟩ := List.any_eq_true.1 hwritten
    rw [← Bool.not_eq_true, List.isEmpty_iff]
    exact List.ne_nil_of_mem (List.mem_filter.2 ⟨hs, hw⟩)
  rcases m.prepareSync_cases with ⟨e, he⟩ | ⟨-, -, heq⟩
  · left
    by_cases hroom : m.nextCheckpoint + 1 ≤ u64Max
    · have hadd : checkedAdd m.nextCheckpoint 1 = some (m.nextCheckpoint + 1) :=
        checkedAdd_eq_some.2 ⟨hroom, rfl⟩
      simp only [prepareSync, hnone, hsel, hadd, Option.isSome_none, Bool.false_eq_true,
        ↓reduceIte] at he
      cases he
    · have hadd : checkedAdd m.nextCheckpoint 1 = none := if_neg hroom
      refine ⟨?_, not_le.1 hroom⟩
      simp only [prepareSync, hnone, hsel, hadd, Option.isSome_none, Bool.false_eq_true,
        ↓reduceIte]
  · exact Or.inr heq

/-- The ticket a checkpoint was prepared with is acknowledged. -/
theorem acknowledgeSync_of_ticket {m' : SegmentMap} {ids : List SegmentId} (hjob : m'.job = m.job)
    (hgen : m'.generation = m.generation)
    (hc : m'.checkpoint = some ⟨m.nextCheckpoint, ids, m.selected.map Segment.selection, false⟩) :
    m'.acknowledgeSync m.ticket = (.ok m.ticket.batch,
      { m' with
        checkpoint := some ⟨m.nextCheckpoint, ids, m.selected.map Segment.selection, true⟩ }) := by
  simp [acknowledgeSync, hc, ticket, hjob, hgen]

/-- **A synced checkpoint is committed**: every segment it selected becomes durable. -/
theorem acknowledgeCommit_of_synced (h : m.Inv) {c : Checkpoint} {batch : CommitBatch}
    (hc : m.checkpoint = some c) (hsynced : c.synced = true) (hjob : batch.job = m.job)
    (hgen : batch.generation = m.generation) (hsequence : batch.sequence = c.sequence)
    (hselection : batch.selection = c.selection) :
    m.acknowledgeCommit batch = (.ok (),
      { m with segments := m.segments.map (commitOne c.ids), checkpoint := none }) := by
  rcases m.acknowledgeCommit_cases batch with ⟨e, he⟩ | ⟨c', m', hc', -, -, -, -, -, heq, hm'⟩
  · exfalso
    -- every recorded identifier names a written segment, so nothing is refused
    have hindex : ∀ id ∈ c.ids, ∃ i, m.index id = .ok i ∧ m.segments[i].state.isWritten = true := by
      intro id hid
      rw [h.ids_eq c hc, List.mem_map] at hid
      obtain ⟨e, he, rfl⟩ := hid
      obtain ⟨t, ⟨ht, hsel⟩, -⟩ := h.selected c hc e he
      obtain ⟨i, hi, (hget : m.segments[i] = t)⟩ := index_of_mem h.ids_nodup ht
      rw [hsel.1] at hi
      exact ⟨i, hi, by rw [hget, hsel.2.2]; rfl⟩
    have hmap : ∀ ids : List SegmentId, (∀ id ∈ ids, ∃ i, m.index id = .ok i ∧
        m.segments[i].state.isWritten = true) →
        ∃ l, ids.mapM m.index = .ok l ∧ ∀ i ∈ l, m.segments[i].state.isWritten = true := by
      intro ids
      induction ids with
      | nil => exact fun _ ↦ ⟨[], rfl, fun _ hi ↦ absurd hi List.not_mem_nil⟩
      | cons id ids ih =>
        intro hall
        obtain ⟨i, hi, hw⟩ := hall id List.mem_cons_self
        obtain ⟨l, hl, hlw⟩ := ih fun id' hid' ↦ hall id' (List.mem_cons_of_mem _ hid')
        refine ⟨i :: l, ?_, fun j hj ↦ ?_⟩
        · rw [List.mapM_cons, hi, hl]
          rfl
        · rcases List.mem_cons.1 hj with rfl | hj'
          · exact hw
          · exact hlw j hj'
    obtain ⟨l, hl, hlw⟩ := hmap c.ids hindex
    have hany : (l.any fun i ↦ !m.segments[i].state.isWritten) = false := by
      rw [List.any_eq_false]
      intro i hi
      rw [hlw i hi]
      exact Bool.false_ne_true
    have hall : ¬(batch.job ≠ m.job ∨ batch.generation ≠ m.generation ∨
        c.sequence ≠ batch.sequence ∨ c.selection ≠ batch.selection ∨ ¬c.synced) := by
      simp [hjob, hgen, hsequence, hselection, hsynced]
    simp only [acknowledgeCommit, hc, if_neg hall, hl, hany, Bool.false_eq_true, ↓reduceIte] at he
    cases he
  · obtain rfl : c' = c := Option.some.inj (hc'.symm.trans hc)
    rw [heq, hm' h.ids_nodup]

/-- What a checkpoint selects is exactly what is written. -/
theorem map_commitOne_selected (hids : (m.segments.map (·.id)).Nodup) :
    m.segments.map (commitOne (m.selected.map (·.id))) =
      m.segments.map fun s ↦ if s.state.isWritten then s.setDurable else s := by
  refine List.map_congr_left fun s hs ↦ ?_
  have hiff : s.id ∈ m.selected.map (·.id) ↔ s.state.isWritten = true := by
    simp only [List.mem_map, selected, List.mem_filter]
    constructor
    · rintro ⟨t, ⟨ht, hw⟩, hid⟩
      rwa [← eq_of_id_eq hids ht hs hid]
    · exact fun hw ↦ ⟨s, ⟨hs, hw⟩, rfl⟩
  simp only [commitOne, hiff]

/-- Written bytes can be given up while no checkpoint is pending. -/
theorem discardUnsynced_of_idle (hnone : m.checkpoint = none) :
    m.discardUnsynced = (.ok (),
      { m with
        segments := m.segments.map fun s ↦
          if s.state.isWritten then { s with state := .pending } else s }) := by
  rcases m.discardUnsynced_cases with he | ⟨-, heq⟩
  · rw [discardUnsynced, hnone] at he
    cases he
  · exact heq

end SegmentMap

end Fhd
