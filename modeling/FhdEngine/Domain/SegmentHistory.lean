import FhdEngine.Domain.SegmentInvariant

/-!
# Where durable bytes come from

Leases, tickets and batches are plain values: a late worker or a repeated acknowledgement presents
the same one again, in any order. This module reads the history of one map, all of whose calls
present only values the map had issued, and answers two questions.

* **Provenance**: a byte that became durable was leased, written, selected by a checkpoint, synced
  and committed, in that order, with nothing in between that would have revoked it (`Story`).
* **One use**: a lease, a ticket or a batch is accepted at most once, and never after it was voided.

The first rests on `Evidence`, which attaches to every in-flight or written segment, and to a pending
checkpoint, the calls that put it there. The second rests on `Spent`, which says why a token can no
longer match. Both are carried over one step by `Change`, the list of everything an accepted call
can do.
-/

namespace Fhd

namespace SegmentMap

open History

variable {m m' m₀ : SegmentMap} {op : Op} {r : Reply}

/-! ### What an accepted call can do -/

/-- Everything an accepted call can do to a map with distinct identifiers. -/
inductive Change (m : SegmentMap) : Op → Reply → SegmentMap → Prop
  | cut {op : Op} {r : Reply} {pre post : List Segment} {s : Segment} {at' : ℕ}
      {left right : ByteRange} (hseg : m.segments = pre ++ s :: post) (hpend : s.state = .pending)
      (hsplit : s.range.split at' = .ok (left, right))
      (hop : (∃ id at'', op = .splitPending id at'' ∧ r = .segment ⟨m.nextId⟩) ∨
        ∃ minimum, op = .stealLargestPending minimum ∧ r = .stolen (some ⟨m.nextId⟩)) :
      Change m op r
        { m with
          segments := pre ++ { s with range := left } :: ⟨⟨m.nextId⟩, right, .pending⟩ :: post
          nextId := m.nextId + 1 }
  | uncut (minimum : ℕ) : Change m (.stealLargestPending minimum) (.stolen none) m
  | lease {pre post : List Segment} {s : Segment} (worker : ℕ)
      (hseg : m.segments = pre ++ s :: post) (hpend : s.state = .pending) :
      Change m (.lease s.id worker)
        (.lease ⟨m.job, m.generation, s.id, m.nextAttempt, worker, s.range⟩)
        { m with
          segments := pre ++ { s with state := .inFlight worker m.nextAttempt } :: post
          nextAttempt := m.nextAttempt + 1 }
  | markWritten {pre post : List Segment} {s : Segment} {worker attempt : ℕ}
      (hseg : m.segments = pre ++ s :: post) (hheld : s.state = .inFlight worker attempt) :
      Change m (.markWritten ⟨m.job, m.generation, s.id, attempt, worker, s.range⟩) .done
        { m with segments := pre ++ { s with state := .written attempt } :: post }
  | release {pre post : List Segment} {s : Segment} {worker attempt : ℕ}
      (hseg : m.segments = pre ++ s :: post) (hheld : s.state = .inFlight worker attempt) :
      Change m (.release ⟨m.job, m.generation, s.id, attempt, worker, s.range⟩) .done
        { m with segments := pre ++ { s with state := .pending } :: post }
  | prepareSync (hnone : m.checkpoint = none) :
      Change m .prepareSync (.ticket m.ticket)
        { m with
          nextCheckpoint := m.nextCheckpoint + 1
          checkpoint := some ⟨m.nextCheckpoint, m.selected.map (·.id),
            m.selected.map Segment.selection, false⟩ }
  | acknowledgeSync {c : Checkpoint} (ranges : List ByteRange) (hc : m.checkpoint = some c)
      (hsynced : c.synced = false) :
      Change m (.acknowledgeSync ⟨m.job, m.generation, c.sequence, ranges, c.selection⟩)
        (.batch ⟨m.job, m.generation, c.sequence, ranges, c.selection⟩)
        { m with checkpoint := some { c with synced := true } }
  | acknowledgeCommit {c : Checkpoint} (ranges : List ByteRange) (hc : m.checkpoint = some c)
      (hsynced : c.synced = true) :
      Change m (.acknowledgeCommit ⟨m.job, m.generation, c.sequence, ranges, c.selection⟩) .done
        { m with segments := m.segments.map (commitOne c.ids), checkpoint := none }
  | discardCheckpoint : Change m .discardCheckpoint .done m.discardCheckpoint
  | discardUnsynced (hnone : m.checkpoint = none) :
      Change m .discardUnsynced .done
        { m with
          segments := m.segments.map fun s ↦
            if s.state.isWritten then { s with state := .pending } else s }
  | replaceGeneration {next : Generation} {total : ℕ} {m' : SegmentMap} (hnone : m.checkpoint = none)
      (hnext : m.generation.next = .ok next) (hnew : new m.job next total m.maximum = .ok m') :
      Change m (.replaceGeneration total) .done m'

/-- **Inversion**: a call is refused and changes nothing, or it is one of the changes. -/
theorem perform_cases (hids : (m.segments.map (·.id)).Nodup) (op : Op) :
    (∃ e, m.perform op = (.error e, m)) ∨ ∃ r m', m.perform op = (.ok r, m') ∧ Change m op r m' := by
  cases op with
  | splitPending id at' =>
    rcases m.splitPending_cases id at' with ⟨e, he⟩ | ⟨pre, s, post, left, right, hseg, -, hpend, -,
      hsplit, h⟩
    · exact Or.inl ⟨e, by rw [perform, he]; rfl⟩
    · exact Or.inr ⟨_, _, by rw [perform, h]; rfl, .cut hseg hpend hsplit (Or.inl ⟨_, _, rfl, rfl⟩)⟩
  | stealLargestPending minimum =>
    rcases m.stealLargestPending_cases minimum with ⟨e, he⟩ | h | ⟨id, at', new, m', hsplit, h⟩
    · exact Or.inl ⟨e, by rw [perform, he]; rfl⟩
    · exact Or.inr ⟨_, _, by rw [perform, h]; rfl, .uncut minimum⟩
    · refine Or.inr ⟨_, _, by rw [perform, h]; rfl, ?_⟩
      rcases m.splitPending_cases id at' with ⟨e, he⟩ | ⟨pre, s, post, left, right, hseg, -, hpend, -,
        hsplit', h'⟩
      · rw [he] at hsplit
        cases hsplit
      · rw [h'] at hsplit
        cases hsplit
        exact .cut hseg hpend hsplit' (Or.inr ⟨_, rfl, rfl⟩)
  | lease id worker =>
    rcases m.lease_cases id worker with ⟨e, he⟩ | ⟨pre, s, post, hseg, rfl, hpend, h⟩
    · exact Or.inl ⟨e, by rw [perform, he]; rfl⟩
    · exact Or.inr ⟨_, _, by rw [perform, h]; rfl, .lease worker hseg hpend⟩
  | markWritten lease =>
    rcases m.markWritten_cases lease with he | ⟨pre, s, post, hseg, ⟨hid, hrange, hheld⟩, hjob, hgen, h⟩
    · exact Or.inl ⟨_, by rw [perform, he]; rfl⟩
    · refine Or.inr ⟨_, _, by rw [perform, h]; rfl, ?_⟩
      have hlease : lease = ⟨m.job, m.generation, s.id, lease.attempt, lease.worker, s.range⟩ := by
        rw [← hjob, ← hgen, hid, hrange]
      rw [hlease]
      exact .markWritten hseg hheld
  | release lease =>
    rcases m.release_cases lease with he | ⟨pre, s, post, hseg, ⟨hid, hrange, hheld⟩, hjob, hgen, h⟩
    · exact Or.inl ⟨_, by rw [perform, he]; rfl⟩
    · refine Or.inr ⟨_, _, by rw [perform, h]; rfl, ?_⟩
      have hlease : lease = ⟨m.job, m.generation, s.id, lease.attempt, lease.worker, s.range⟩ := by
        rw [← hjob, ← hgen, hid, hrange]
      rw [hlease]
      exact .release hseg hheld
  | prepareSync =>
    rcases m.prepareSync_cases with ⟨e, he⟩ | ⟨hnone, -, h⟩
    · exact Or.inl ⟨e, by rw [perform, he]; rfl⟩
    · exact Or.inr ⟨_, _, by rw [perform, h]; rfl, .prepareSync hnone⟩
  | acknowledgeSync ticket =>
    rcases m.acknowledgeSync_cases ticket with he | ⟨c, hc, hjob, hgen, hseq, hsel, hsynced, h⟩
    · exact Or.inl ⟨_, by rw [perform, he]; rfl⟩
    · refine Or.inr ⟨_, _, by rw [perform, h]; rfl, ?_⟩
      rw [show ticket = ⟨m.job, m.generation, c.sequence, ticket.ranges, c.selection⟩ by
        rw [← hjob, ← hgen, hseq, hsel]]
      exact .acknowledgeSync ticket.ranges hc hsynced
  | acknowledgeCommit batch =>
    rcases m.acknowledgeCommit_cases batch with ⟨e, he⟩ | ⟨c, m', hc, hjob, hgen, hseq, hsel, hsynced,
      h, hm'⟩
    · exact Or.inl ⟨_, by rw [perform, he]; rfl⟩
    · refine Or.inr ⟨_, _, by rw [perform, h]; rfl, ?_⟩
      rw [hm' hids, show batch = ⟨m.job, m.generation, c.sequence, batch.ranges, c.selection⟩ by
        rw [← hjob, ← hgen, hseq, hsel]]
      exact .acknowledgeCommit batch.ranges hc hsynced
  | discardCheckpoint => exact Or.inr ⟨_, _, rfl, .discardCheckpoint⟩
  | discardUnsynced =>
    rcases m.discardUnsynced_cases with he | ⟨hnone, h⟩
    · exact Or.inl ⟨_, by rw [perform, he]; rfl⟩
    · exact Or.inr ⟨_, _, by rw [perform, h]; rfl, .discardUnsynced hnone⟩
  | replaceGeneration total =>
    rcases m.replaceGeneration_cases total with ⟨e, he⟩ | ⟨next, m', hnone, -, hnext, hnew, h⟩
    · exact Or.inl ⟨e, by rw [perform, he]; rfl⟩
    · exact Or.inr ⟨_, _, by rw [perform, h]; rfl, .replaceGeneration hnone hnext hnew⟩

/-- An attempt belongs to at most one segment. -/
theorem Inv.notMem_attempt (hinv : m.Inv) {pre post : List Segment} {s t : Segment} {a : ℕ}
    (hseg : m.segments = pre ++ s :: post) (ht : t ∈ pre ∨ t ∈ post) (hs : a ∈ s.state.attempt) :
    a ∉ t.state.attempt := by
  have hpair := hinv.attempts_differ
  rw [hseg, List.pairwise_append, List.pairwise_cons] at hpair
  rcases ht with ht | ht
  · exact fun hta ↦ hpair.2.2 t ht s List.mem_cons_self a hta hs
  · exact hpair.2.1.1 t ht a hs

/-- A lease whose attempt has reached the written state is not released any more. -/
theorem Inv.ne_release_of_written (hinv : m.Inv) {s : Segment} {a : ℕ} (hs : s ∈ m.segments)
    (hw : s.state = .written a) (h : Change m op r m') (lease : Lease) (ha : lease.attempt = a) :
    op ≠ .release lease := by
  rintro rfl
  cases h with
  | cut hseg hpend hsplit hop => rcases hop with ⟨id, at'', hop, -⟩ | ⟨minimum, hop, -⟩ <;> cases hop
  | release hseg hheld =>
    rw [hseg, List.mem_append, List.mem_cons] at hs
    rcases hs with hs | rfl | hs
    · exact hinv.notMem_attempt hseg (Or.inl hs) (by rw [hheld]; rfl) (by rw [hw, ← ha]; rfl)
    · rw [hw] at hheld
      cases hheld
    · exact hinv.notMem_attempt hseg (Or.inr hs) (by rw [hheld]; rfl) (by rw [hw, ← ha]; rfl)

namespace Change

/-- Unless the generation is replaced, a change stays within the job and the generation, and the
counters do not go back. -/
theorem scope (h : Change m op r m') :
    (∃ total, op = .replaceGeneration total ∧ r = .done ∧ m'.job = m.job ∧
      m'.generation.get = m.generation.get + 1 ∧ (∀ s ∈ m'.segments, s.state = .pending) ∧
      m'.checkpoint = none) ∨
    (∀ total, op ≠ .replaceGeneration total) ∧ m'.job = m.job ∧ m'.generation = m.generation ∧
      m.nextAttempt ≤ m'.nextAttempt ∧ m.nextCheckpoint ≤ m'.nextCheckpoint := by
  cases h with
  | cut hseg hpend hsplit hop =>
    refine Or.inr ⟨fun total heq ↦ ?_, rfl, rfl, le_rfl, le_rfl⟩
    rcases hop with ⟨id, at'', hop, -⟩ | ⟨minimum, hop, -⟩ <;> rw [heq] at hop <;> cases hop
  | replaceGeneration hnone hnext hnew =>
    obtain ⟨-, -, -, hm', hseg⟩ := new_eq_ok hnew
    refine Or.inl ⟨_, rfl, rfl, ?_, ?_, ?_, ?_⟩
    · rw [hm']
    · rw [hm']
      exact Generation.get_of_next hnext
    · rcases hseg with ⟨-, hseg⟩ | ⟨range, -, -, hseg⟩ <;> simp [hseg]
    · rw [hm']
  | lease worker hseg hpend => exact Or.inr ⟨by simp, rfl, rfl, Nat.le_succ _, le_rfl⟩
  | prepareSync hnone => exact Or.inr ⟨by simp, rfl, rfl, le_rfl, Nat.le_succ _⟩
  | _ => exact Or.inr ⟨by simp, rfl, rfl, le_rfl, le_rfl⟩

/-- A change that does not replace the generation stays within it and its plan. -/
theorem same (h : Change m op r m') (hreplace : ∀ total, op ≠ .replaceGeneration total) :
    m'.job = m.job ∧ m'.generation = m.generation ∧ m'.total = m.total ∧ m'.maximum = m.maximum := by
  cases h with
  | replaceGeneration hnone hnext hnew => exact absurd rfl (hreplace _)
  | _ => exact ⟨rfl, rfl, rfl, rfl⟩

end Change

/-- Where a segment of the changed map comes from. -/
inductive Origin (m : SegmentMap) (op : Op) (r : Reply) (t : Segment) : Prop
  | kept (hmem : t ∈ m.segments) (hreplace : ∀ total, op ≠ .replaceGeneration total)
      (hrelease : ∀ lease : Lease, lease.attempt ∈ t.state.attempt → op ≠ .release lease)
      (hdiscard : t.state.isWritten = true → op ≠ .discardUnsynced)
  | pending (hpend : t.state = .pending)
  | leased (worker : ℕ) (hstate : t.state = .inFlight worker m.nextAttempt)
      (hop : op = .lease t.id worker)
      (hr : r = .lease ⟨m.job, m.generation, t.id, m.nextAttempt, worker, t.range⟩)
  | written (s : Segment) (worker attempt : ℕ) (hmem : s ∈ m.segments)
      (hheld : s.state = .inFlight worker attempt) (ht : t = { s with state := .written attempt })
      (hop : op = .markWritten ⟨m.job, m.generation, t.id, attempt, worker, t.range⟩)
      (hr : r = .done)
  | committed (s : Segment) (c : Checkpoint) (ranges : List ByteRange) (hmem : s ∈ m.segments)
      (hc : m.checkpoint = some c) (hsynced : c.synced = true) (hid : s.id ∈ c.ids)
      (ht : t = s.setDurable)
      (hop : op = .acknowledgeCommit ⟨m.job, m.generation, c.sequence, ranges, c.selection⟩)
      (hr : r = .done)

/-- The segment at which a map is taken apart. -/
theorem mem_middle {pre post : List Segment} {s : Segment} (hseg : m.segments = pre ++ s :: post) :
    s ∈ m.segments := by
  rw [hseg]
  simp

/-- The segments around it. -/
theorem mem_of_mem_rest {pre post : List Segment} {s t : Segment}
    (hseg : m.segments = pre ++ s :: post) (ht : t ∈ pre ∨ t ∈ post) : t ∈ m.segments := by
  rw [hseg]
  simp only [List.mem_append, List.mem_cons]
  tauto

theorem Change.origin (h : Change m op r m') (hinv : m.Inv) {t : Segment} (ht : t ∈ m'.segments) :
    Origin m op r t := by
  cases h with
  | @cut _ _ pre post s _ left right hseg hpend hsplit hop =>
    have hne : ∀ op', (∀ id at'', op' ≠ .splitPending id at'') →
        (∀ minimum, op' ≠ .stealLargestPending minimum) → op ≠ op' := by
      intro op' h₁ h₂ heq
      rcases hop with ⟨id, at'', hop, -⟩ | ⟨minimum, hop, -⟩
      · exact h₁ _ _ (heq ▸ hop)
      · exact h₂ _ (heq ▸ hop)
    have hrest : t ∈ pre ∨ t ∈ post → Origin m op r t := fun hrest ↦
      .kept (mem_of_mem_rest hseg hrest) (fun _ ↦ hne _ (by simp) (by simp))
        (fun _ _ ↦ hne _ (by simp) (by simp)) fun _ ↦ hne _ (by simp) (by simp)
    simp only [List.mem_append, List.mem_cons] at ht
    rcases ht with ht | rfl | rfl | ht
    · exact hrest (Or.inl ht)
    · exact .pending hpend
    · exact .pending rfl
    · exact hrest (Or.inr ht)
  | @lease pre post s worker hseg hpend =>
    simp only [List.mem_append, List.mem_cons] at ht
    rcases ht with ht | rfl | ht
    · exact .kept (mem_of_mem_rest hseg (Or.inl ht)) (by simp) (by simp) (by simp)
    · exact .leased worker rfl rfl rfl
    · exact .kept (mem_of_mem_rest hseg (Or.inr ht)) (by simp) (by simp) (by simp)
  | @markWritten pre post s worker attempt hseg hheld =>
    simp only [List.mem_append, List.mem_cons] at ht
    rcases ht with ht | rfl | ht
    · exact .kept (mem_of_mem_rest hseg (Or.inl ht)) (by simp) (by simp) (by simp)
    · exact .written s worker attempt (mem_middle hseg) hheld rfl rfl rfl
    · exact .kept (mem_of_mem_rest hseg (Or.inr ht)) (by simp) (by simp) (by simp)
  | @release pre post s worker attempt hseg hheld =>
    have hrest : t ∈ pre ∨ t ∈ post →
        Origin m (.release ⟨m.job, m.generation, s.id, attempt, worker, s.range⟩) .done t := by
      refine fun hrest ↦ .kept (mem_of_mem_rest hseg hrest) (by simp) (fun lease ha heq ↦ ?_) (by simp)
      cases heq
      exact hinv.notMem_attempt hseg hrest (a := attempt) (by rw [hheld]; rfl) ha
    simp only [List.mem_append, List.mem_cons] at ht
    rcases ht with ht | rfl | ht
    · exact hrest (Or.inl ht)
    · exact .pending rfl
    · exact hrest (Or.inr ht)
  | @acknowledgeCommit c ranges hc hsynced =>
    obtain ⟨s, hs, rfl⟩ := List.mem_map.1 ht
    by_cases hid : s.id ∈ c.ids
    · rw [commitOne, if_pos hid]
      exact .committed s c ranges hs hc hsynced hid rfl rfl rfl
    · rw [commitOne, if_neg hid]
      exact .kept hs (by simp) (by simp) (by simp)
  | discardUnsynced hnone =>
    obtain ⟨s, hs, rfl⟩ := List.mem_map.1 ht
    by_cases hw : s.state.isWritten
    · rw [if_pos hw]
      exact .pending rfl
    · rw [if_neg hw]
      exact .kept hs (by simp) (by simp) fun hw' ↦ absurd hw' hw
  | replaceGeneration hnone hnext hnew =>
    obtain ⟨-, -, -, -, ⟨-, hseg⟩ | ⟨range, -, -, hseg⟩⟩ := new_eq_ok hnew
    · rw [hseg] at ht
      exact absurd ht List.not_mem_nil
    · rw [hseg, List.mem_singleton] at ht
      exact .pending (ht ▸ rfl)
  | uncut minimum => exact .kept ht (by simp) (by simp) (by simp)
  | prepareSync hnone => exact .kept ht (by simp) (by simp) (by simp)
  | acknowledgeSync ranges hc hsynced => exact .kept ht (by simp) (by simp) (by simp)
  | discardCheckpoint => exact .kept ht (by simp) (by simp) (by simp)

/-- Durable bytes only go away with their generation. -/
theorem Change.durableAt (h : Change m op r m') {p : ℕ} (hp : m.DurableAt p)
    (hgen : m'.generation = m.generation) : m'.DurableAt p := by
  obtain ⟨s, hs, hdur, hps⟩ := hp
  have hrest : ∀ {pre post : List Segment} {u : Segment} (mid : List Segment),
      m.segments = pre ++ u :: post → u.state ≠ .durable → s ∈ pre ++ (mid ++ post) := by
    intro pre post u mid hseg hne
    rw [hseg, List.mem_append, List.mem_cons] at hs
    simp only [List.mem_append]
    rcases hs with hs | rfl | hs
    · exact Or.inl hs
    · exact absurd hdur hne
    · exact Or.inr (Or.inr hs)
  cases h with
  | @cut _ _ pre post u _ left right hseg hpend hsplit hop =>
    exact ⟨s, hrest [{ u with range := left }, ⟨⟨m.nextId⟩, right, .pending⟩] hseg (by simp [hpend]),
      hdur, hps⟩
  | lease worker hseg hpend => exact ⟨s, hrest [_] hseg (by simp [hpend]), hdur, hps⟩
  | markWritten hseg hheld => exact ⟨s, hrest [_] hseg (by simp [hheld]), hdur, hps⟩
  | release hseg hheld => exact ⟨s, hrest [_] hseg (by simp [hheld]), hdur, hps⟩
  | @acknowledgeCommit c ranges hc hsynced =>
    refine ⟨commitOne c.ids s, List.mem_map_of_mem hs, ?_, ?_⟩ <;> rw [commitOne] <;> split
    · rfl
    · exact hdur
    · exact hps
    · exact hps
  | discardUnsynced hnone =>
    refine ⟨s, List.mem_map.2 ⟨s, hs, ?_⟩, hdur, hps⟩
    rw [if_neg (by simp [hdur])]
  | replaceGeneration hnone hnext hnew =>
    obtain ⟨-, -, -, hm', -⟩ := new_eq_ok hnew
    rw [hm'] at hgen
    exact absurd hgen (Generation.ne_of_next hnext)
  | uncut minimum => exact ⟨s, hs, hdur, hps⟩
  | prepareSync hnone => exact ⟨s, hs, hdur, hps⟩
  | acknowledgeSync ranges hc hsynced => exact ⟨s, hs, hdur, hps⟩
  | discardCheckpoint => exact ⟨s, hs, hdur, hps⟩

/-! ### The story of a durable byte -/

/-- The call released this lease. -/
def Released (lease : Lease) (op : Op) (r : Except DomainError Reply) : Prop :=
  op = .release lease ∧ r = .ok .done

/-- The call replaced the generation. -/
def Replaced (op : Op) (r : Except DomainError Reply) : Prop :=
  (∃ total, op = .replaceGeneration total) ∧ r = .ok .done

/-- The call gave up what was written and not yet committed. -/
def GaveUp (op : Op) (r : Except DomainError Reply) : Prop := op = .discardUnsynced ∧ r = .ok .done

/-- The call abandoned the pending checkpoint. -/
def Abandoned (op : Op) (r : Except DomainError Reply) : Prop :=
  op = .discardCheckpoint ∧ r = .ok .done

/-- The lease was issued by call `i`, and until `n` it was not released and its generation was not
replaced. -/
structure Leased (m₀ : SegmentMap) (ops : List Op) (n : ℕ) (lease : Lease) (i : ℕ) : Prop where
  leased : Call perform m₀ ops i (.lease lease.id lease.worker) (.ok (.lease lease))
  not_released : Quiet perform (Released lease) m₀ ops i n
  not_replaced : Quiet perform Replaced m₀ ops i n

/-- The lease was moreover accepted by `mark_written` at call `j`, and until `n` nothing written was
given up. -/
structure Written (m₀ : SegmentMap) (ops : List Op) (n : ℕ) (lease : Lease) (i j : ℕ) : Prop
    extends Leased m₀ ops n lease i where
  leased_lt : i < j
  written : Call perform m₀ ops j (.markWritten lease) (.ok .done)
  not_given_up : Quiet perform GaveUp m₀ ops j n

/-- The ticket issued for a checkpoint. -/
def ticketFor (job : JobId) (generation : Generation) (c : Checkpoint) : SyncTicket :=
  ⟨job, generation, c.sequence, c.selection.map (·.2.1), c.selection⟩

/-- The calls that made a byte durable, with the tokens they used. -/
structure Story where
  lease : Lease
  ticket : SyncTicket
  leased : ℕ
  written : ℕ
  prepared : ℕ
  synced : ℕ
  committed : ℕ

/-- **The story of a durable byte**: its lease was taken, accepted as written, selected by a
checkpoint, synced and committed, in this order and with nothing revoking it in between. -/
structure Story.Valid (m₀ : SegmentMap) (ops : List Op) (p : ℕ) (st : Story) : Prop
    extends Written m₀ ops st.committed st.lease st.leased st.written where
  covers : p ∈ st.lease.range
  written_lt : st.written < st.prepared
  prepared : Call perform m₀ ops st.prepared .prepareSync (.ok (.ticket st.ticket))
  selected : (st.lease.id, st.lease.range, st.lease.attempt) ∈ st.ticket.selection
  prepared_lt : st.prepared < st.synced
  synced : Call perform m₀ ops st.synced (.acknowledgeSync st.ticket) (.ok (.batch st.ticket.batch))
  synced_lt : st.synced < st.committed
  committed :
    Call perform m₀ ops st.committed (.acknowledgeCommit st.ticket.batch) (.ok .done)
  not_abandoned : Quiet perform Abandoned m₀ ops st.prepared st.committed

/-- The token an operation consumes. -/
def Op.token : Op → Option Reply
  | .markWritten l => some (.lease l)
  | .release l => some (.lease l)
  | .acknowledgeSync t => some (.ticket t)
  | .acknowledgeCommit b => some (.batch b)
  | _ => none

/-- Every token presented in the history was issued earlier in it. -/
def UsesIssued (m₀ : SegmentMap) (ops : List Op) : Prop :=
  ∀ k op r, Call perform m₀ ops k op r → ∀ t ∈ op.token,
    ∃ i < k, ∃ op', Call perform m₀ ops i op' (.ok t)

/-! ### Evidence -/

/-- The evidence behind a pending checkpoint. -/
structure Pending (m₀ : SegmentMap) (ops : List Op) (job : JobId) (generation : Generation)
    (c : Checkpoint) (k : ℕ) : Prop where
  prepared : Call perform m₀ ops k .prepareSync (.ok (.ticket (ticketFor job generation c)))
  not_abandoned : Quiet perform Abandoned m₀ ops k ops.length
  selected : ∀ e ∈ c.selection, ∃ w i j, j < k ∧
    Written m₀ ops ops.length ⟨job, generation, e.1, e.2.2, w, e.2.1⟩ i j
  synced : c.synced = true → ∃ k', k < k' ∧ Call perform m₀ ops k'
    (.acknowledgeSync (ticketFor job generation c)) (.ok (.batch (ticketFor job generation c).batch))

/-- What the history shows of the map it leads to. -/
structure Evidence (m₀ : SegmentMap) (ops : List Op) (m : SegmentMap) : Prop where
  inFlight : ∀ s ∈ m.segments, ∀ w a, s.state = .inFlight w a →
    ∃ i, Leased m₀ ops ops.length ⟨m.job, m.generation, s.id, a, w, s.range⟩ i
  written : ∀ s ∈ m.segments, ∀ a, s.state = .written a →
    ∃ w i j, Written m₀ ops ops.length ⟨m.job, m.generation, s.id, a, w, s.range⟩ i j
  checkpoint : ∀ c ∈ m.checkpoint, ∃ k, Pending m₀ ops m.job m.generation c k
  durable : ∀ p, m.DurableAt p → m₀.DurableAt p ∨ ∃ st, Story.Valid m₀ ops p st

section Extend

variable {ops : List Op} {lease : Lease} {i j k n : ℕ} {a : Except DomainError Reply × SegmentMap}
  (ha : (m₀.run ops).perform op = a)
include ha

theorem Leased.extend (h : Leased m₀ ops ops.length lease i) (hrel : ¬Released lease op a.1)
    (hrep : ¬Replaced op a.1) : Leased m₀ (ops ++ [op]) (ops ++ [op]).length lease i :=
  ⟨h.leased.concat op, h.not_released.extend (ha ▸ hrel), h.not_replaced.extend (ha ▸ hrep)⟩

theorem Written.extend (h : Written m₀ ops ops.length lease i j) (hrel : ¬Released lease op a.1)
    (hrep : ¬Replaced op a.1) (hgave : ¬GaveUp op a.1) :
    Written m₀ (ops ++ [op]) (ops ++ [op]).length lease i j :=
  ⟨h.toLeased.extend ha hrel hrep, h.leased_lt, h.written.concat op,
    h.not_given_up.extend (ha ▸ hgave)⟩

/-- A pending checkpoint survives a call that abandons nothing and revokes nothing it selected. -/
theorem Pending.extend {job : JobId} {generation : Generation} {c : Checkpoint}
    (h : Pending m₀ ops job generation c k) (habandon : ¬Abandoned op a.1) (hrep : ¬Replaced op a.1)
    (hgave : ¬GaveUp op a.1)
    (hrel : ∀ e ∈ c.selection, ∀ lease : Lease, lease.attempt = e.2.2 → ¬Released lease op a.1) :
    Pending m₀ (ops ++ [op]) job generation c k := by
  refine ⟨h.prepared.concat op, h.not_abandoned.extend (ha ▸ habandon), fun e he ↦ ?_, fun hs ↦ ?_⟩
  · obtain ⟨w, i, j, hj, hwritten⟩ := h.selected e he
    exact ⟨w, i, j, hj, hwritten.extend ha (hrel e he _ rfl) hrep hgave⟩
  · obtain ⟨k', hk', hcall⟩ := h.synced hs
    exact ⟨k', hk', hcall.concat op⟩

end Extend

/-- A finished story does not change. -/
theorem Story.Valid.concat {ops : List Op} {p : ℕ} {st : Story} (h : st.Valid m₀ ops p) (op : Op) :
    st.Valid m₀ (ops ++ [op]) p :=
  have hn := h.committed.lt.le
  { leased := h.leased.concat op
    not_released := h.not_released.concat hn op
    not_replaced := h.not_replaced.concat hn op
    leased_lt := h.leased_lt
    written := h.written.concat op
    not_given_up := h.not_given_up.concat hn op
    covers := h.covers
    written_lt := h.written_lt
    prepared := h.prepared.concat op
    selected := h.selected
    prepared_lt := h.prepared_lt
    synced := h.synced.concat op
    synced_lt := h.synced_lt
    committed := h.committed.concat op
    not_abandoned := h.not_abandoned.concat hn op }

theorem Written.concat {ops : List Op} {lease : Lease} {i j n : ℕ} (h : Written m₀ ops n lease i j)
    (hn : n ≤ ops.length) (op : Op) : Written m₀ (ops ++ [op]) n lease i j :=
  ⟨⟨h.leased.concat op, h.not_released.concat hn op, h.not_replaced.concat hn op⟩, h.leased_lt,
    h.written.concat op, h.not_given_up.concat hn op⟩

section Step

variable {ops : List Op} {a : Except DomainError Reply}

/-- An issued ticket names the ranges it selected. -/
theorem ranges_of_ticket {ticket : SyncTicket} (hinv : m.Inv)
    (h : (m.perform op).1 = .ok (.ticket ticket)) :
    ticket.ranges = ticket.selection.map (·.2.1) := by
  rcases perform_cases hinv.ids_nodup op with ⟨e, he⟩ | ⟨r, m', hm', hch⟩
  · rw [he] at h
    cases h
  · rw [hm'] at h
    cases h
    cases hch with
    | cut hseg hpend hsplit hop => rcases hop with ⟨id, at'', -, hr⟩ | ⟨minimum, -, hr⟩ <;> cases hr
    | prepareSync hnone => simp [SegmentMap.ticket, Segment.selection]

/-- An issued batch is that of the ticket it was issued for. -/
theorem batch_of_perform {batch : CommitBatch} (hinv : m.Inv)
    (h : (m.perform op).1 = .ok (.batch batch)) :
    ∃ ticket, op = .acknowledgeSync ticket ∧ batch = ticket.batch := by
  rcases perform_cases hinv.ids_nodup op with ⟨e, he⟩ | ⟨r, m', hm', hch⟩
  · rw [he] at h
    cases h
  · rw [hm'] at h
    cases h
    cases hch with
    | cut hseg hpend hsplit hop => rcases hop with ⟨id, at'', -, hr⟩ | ⟨minimum, -, hr⟩ <;> cases hr
    | acknowledgeSync ranges hc hsynced => exact ⟨_, rfl, rfl⟩

theorem UsesIssued.ranges_of_ticket (huse : UsesIssued m₀ ops) (hinv : m₀.Inv) {k : ℕ}
    {ticket : SyncTicket} (h : Call perform m₀ ops k (.acknowledgeSync ticket) a) :
    ticket.ranges = ticket.selection.map (·.2.1) := by
  obtain ⟨i, -, op', hissued⟩ := huse _ _ _ h _ rfl
  exact SegmentMap.ranges_of_ticket (hinv.run _) hissued.2

theorem UsesIssued.ranges_of_batch (huse : UsesIssued m₀ ops) (hinv : m₀.Inv) {k : ℕ}
    {batch : CommitBatch} (h : Call perform m₀ ops k (.acknowledgeCommit batch) a) :
    batch.ranges = batch.selection.map (·.2.1) := by
  obtain ⟨i, -, op', hissued⟩ := huse _ _ _ h _ rfl
  obtain ⟨ticket, rfl, rfl⟩ := batch_of_perform (hinv.run _) hissued.2
  exact huse.ranges_of_ticket hinv hissued

/-- The call just made, with its answer. -/
theorem call_last (h : (m₀.run ops).perform op = (a, m')) :
    Call perform m₀ (ops ++ [op]) ops.length op a := by
  have hcall : Call perform m₀ (ops ++ [op]) ops.length op ((m₀.run ops).perform op).1 := Call.last
  rwa [h] at hcall

namespace Evidence

/-- A refused call leaves the evidence as it was. -/
theorem refused (h : Evidence m₀ ops (m₀.run ops)) {e : DomainError}
    (he : (m₀.run ops).perform op = (.error e, m₀.run ops)) :
    Evidence m₀ (ops ++ [op]) (m₀.run ops) := by
  have hno : ∀ {r : Except DomainError Reply}, r = .error e → r ≠ .ok .done := by
    rintro r rfl hr
    cases hr
  refine ⟨fun s hs w a hst ↦ ?_, fun s hs a hst ↦ ?_, fun c hc ↦ ?_, fun p hp ↦ ?_⟩
  · obtain ⟨i, hi⟩ := h.inFlight s hs w a hst
    exact ⟨i, hi.extend he (fun hr ↦ hno rfl hr.2) fun hr ↦ hno rfl hr.2⟩
  · obtain ⟨w, i, j, hij⟩ := h.written s hs a hst
    exact ⟨w, i, j, hij.extend he (fun hr ↦ hno rfl hr.2) (fun hr ↦ hno rfl hr.2) fun hr ↦ hno rfl hr.2⟩
  · obtain ⟨k, hk⟩ := h.checkpoint c hc
    exact ⟨k, hk.extend he (fun hr ↦ hno rfl hr.2) (fun hr ↦ hno rfl hr.2) (fun hr ↦ hno rfl hr.2)
      fun _ _ _ _ hr ↦ hno rfl hr.2⟩
  · exact (h.durable p hp).imp_right fun ⟨st, hst⟩ ↦ ⟨st, hst.concat op⟩

variable (hinv : (m₀.run ops).Inv) (h : Evidence m₀ ops (m₀.run ops))
  (hm' : (m₀.run ops).perform op = (.ok r, m')) (hch : Change (m₀.run ops) op r m')
include hinv h hm' hch

theorem inFlight_step {s : Segment} {w a : ℕ} (hs : s ∈ m'.segments) (hst : s.state = .inFlight w a) :
    ∃ i, Leased m₀ (ops ++ [op]) (ops ++ [op]).length
      ⟨m'.job, m'.generation, s.id, a, w, s.range⟩ i := by
  cases hch.origin hinv hs with
  | kept hmem hreplace hrelease hdiscard =>
    obtain ⟨i, hi⟩ := h.inFlight s hmem w a hst
    obtain ⟨hjob, hgen, -, -⟩ := hch.same hreplace
    rw [hjob, hgen]
    exact ⟨i, hi.extend hm' (fun hr ↦ hrelease _ (by rw [hst]; rfl) hr.1)
      fun hr ↦ hr.1.elim hreplace⟩
  | leased worker hstate hop hr =>
    obtain ⟨hjob, hgen, -, -⟩ := hch.same (by simp [hop])
    rw [hst] at hstate
    cases hstate
    rw [hjob, hgen]
    refine ⟨ops.length, ?_, Quiet.last, Quiet.last⟩
    have hcall := call_last hm'
    rw [hr, hop] at hcall
    rw [hop]
    exact hcall
  | pending hpend => rw [hpend] at hst; cases hst
  | written t worker attempt hmem hheld ht hop hr => rw [ht] at hst; cases hst
  | committed t c ranges hmem hc hsynced hid ht hop hr => rw [ht] at hst; cases hst

theorem written_step {s : Segment} {a : ℕ} (hs : s ∈ m'.segments) (hst : s.state = .written a) :
    ∃ w i j, Written m₀ (ops ++ [op]) (ops ++ [op]).length
      ⟨m'.job, m'.generation, s.id, a, w, s.range⟩ i j := by
  cases hch.origin hinv hs with
  | kept hmem hreplace hrelease hdiscard =>
    obtain ⟨w, i, j, hij⟩ := h.written s hmem a hst
    obtain ⟨hjob, hgen, -, -⟩ := hch.same hreplace
    rw [hjob, hgen]
    exact ⟨w, i, j, hij.extend hm' (fun hr ↦ hrelease _ (by rw [hst]; rfl) hr.1)
      (fun hr ↦ hr.1.elim hreplace) fun hr ↦ hdiscard (by rw [hst]; rfl) hr.1⟩
  | written t worker attempt hmem hheld ht hop hr =>
    obtain ⟨hjob, hgen, -, -⟩ := hch.same (by simp [hop])
    obtain ⟨i, hi⟩ := h.inFlight t hmem worker attempt hheld
    rw [ht] at hst hop ⊢
    cases hst
    rw [hjob, hgen]
    refine ⟨worker, i, ops.length, hi.extend hm' (fun hr' ↦ ?_) (fun hr' ↦ ?_), hi.leased.lt, ?_,
      Quiet.last⟩
    · rw [hop] at hr'
      cases hr'.1
    · rw [hop] at hr'
      obtain ⟨⟨total, htotal⟩, -⟩ := hr'
      cases htotal
    · have hcall := call_last hm'
      rw [hr, hop] at hcall
      rw [hop]
      exact hcall
  | pending hpend => rw [hpend] at hst; cases hst
  | leased worker hstate hop hr => rw [hstate] at hst; cases hst
  | committed t c ranges hmem hc hsynced hid ht hop hr => rw [ht] at hst; cases hst

/-- While a checkpoint is pending only abandoning it can touch the evidence behind it. -/
theorem pending_extend {c : Checkpoint} (hc : (m₀.run ops).checkpoint = some c)
    (hop : op ≠ .discardCheckpoint) :
    ∃ k, Pending m₀ (ops ++ [op]) (m₀.run ops).job (m₀.run ops).generation c k := by
  obtain ⟨k, hk⟩ := h.checkpoint c hc
  have hguard : (∀ total, op ≠ .replaceGeneration total) ∧ op ≠ .discardUnsynced := by
    cases hch with
    | cut hseg hpend hsplit hop =>
      rcases hop with ⟨id, at'', rfl, -⟩ | ⟨minimum, rfl, -⟩ <;> exact ⟨by simp, by simp⟩
    | discardUnsynced hnone => rw [hnone] at hc; cases hc
    | replaceGeneration hnone hnext hnew => rw [hnone] at hc; cases hc
    | _ => exact ⟨by simp, by simp⟩
  refine ⟨k, hk.extend hm' (fun hr ↦ hop hr.1) (fun hr ↦ hr.1.elim hguard.1) (fun hr ↦ hguard.2 hr.1)
    fun e he lease ha hr ↦ ?_⟩
  obtain ⟨s, ⟨hs, -, -, hw⟩, -⟩ := hinv.selected c hc e he
  exact hinv.ne_release_of_written hs hw hch lease ha hr.1

theorem checkpoint_step (hm₀ : m₀.Inv) (huse : UsesIssued m₀ (ops ++ [op])) {c : Checkpoint}
    (hc : m'.checkpoint = some c) : ∃ k, Pending m₀ (ops ++ [op]) m'.job m'.generation c k := by
  have hcall := call_last hm'
  have hkept := fun c' hc' hop ↦ h.pending_extend hinv hm' hch (c := c') hc' hop
  cases hch with
  | cut hseg hpend hsplit hop =>
    exact hkept c hc (by rcases hop with ⟨id, at'', rfl, -⟩ | ⟨minimum, rfl, -⟩ <;> simp)
  | uncut minimum => exact hkept c hc (by simp)
  | lease worker hseg hpend => exact hkept c hc (by simp)
  | markWritten hseg hheld => exact hkept c hc (by simp)
  | release hseg hheld => exact hkept c hc (by simp)
  | prepareSync hnone =>
    obtain rfl := Option.some.inj hc
    refine ⟨ops.length, ?_, Quiet.last, fun e he ↦ ?_, by simp⟩
    · have hticket : (m₀.run ops).ticket = ticketFor (m₀.run ops).job (m₀.run ops).generation
          ⟨(m₀.run ops).nextCheckpoint, (m₀.run ops).selected.map (·.id),
            (m₀.run ops).selected.map Segment.selection, false⟩ := by
        simp [SegmentMap.ticket, ticketFor, Segment.selection]
      rw [hticket] at hcall
      exact hcall
    · obtain ⟨s, hs, rfl⟩ := List.mem_map.1 he
      obtain ⟨hs', hwritten⟩ := List.mem_filter.1 hs
      obtain ⟨attempt, hst⟩ := SegmentState.isWritten_iff.1 hwritten
      obtain ⟨w, i, j, hij⟩ := h.written s hs' attempt hst
      refine ⟨w, i, j, hij.written.lt, ?_⟩
      have := hij.extend hm' (fun hr ↦ by cases hr.1) (fun hr ↦ by simp [Replaced] at hr)
        fun hr ↦ by cases hr.1
      simpa [Segment.selection, hst] using this
  | @acknowledgeSync c₀ ranges hc₀ hsynced =>
    obtain rfl := Option.some.inj hc
    obtain ⟨k, hk⟩ := hkept c₀ hc₀ (by simp)
    refine ⟨k, hk.prepared, hk.not_abandoned, hk.selected, fun _ ↦ ⟨ops.length, ?_, ?_⟩⟩
    · rcases hk.prepared.concat_cases with hold | ⟨-, hop, -⟩
      · exact hold.lt
      · cases hop
    · obtain rfl : ranges = c₀.selection.map (·.2.1) := huse.ranges_of_ticket hm₀ hcall
      exact hcall
  | acknowledgeCommit ranges hc₀ hsynced => cases hc
  | discardCheckpoint => cases hc
  | discardUnsynced hnone => exact absurd (hnone.symm.trans hc) (by simp)
  | replaceGeneration hnone hnext hnew =>
    obtain ⟨-, -, -, hm'', -⟩ := new_eq_ok hnew
    rw [hm''] at hc
    cases hc

theorem durable_step (hm₀ : m₀.Inv) (huse : UsesIssued m₀ (ops ++ [op])) {p : ℕ}
    (hp : m'.DurableAt p) : m₀.DurableAt p ∨ ∃ st, Story.Valid m₀ (ops ++ [op]) p st := by
  obtain ⟨t, ht, hdur, hpt⟩ := hp
  cases hch.origin hinv ht with
  | kept hmem hreplace hrelease hdiscard =>
    exact (h.durable p ⟨t, hmem, hdur, hpt⟩).imp_right fun ⟨st, hst⟩ ↦ ⟨st, hst.concat op⟩
  | committed s c ranges hmem hc hsynced hid hts hop hr =>
    have hcall := call_last hm'
    rw [hr, hop] at hcall
    obtain rfl : ranges = c.selection.map (·.2.1) := by
      rw [hop] at huse
      exact huse.ranges_of_batch hm₀ hcall
    rw [← hop] at hcall
    rw [hinv.ids_eq c hc] at hid
    obtain ⟨e, he, hes⟩ := List.mem_map.1 hid
    obtain ⟨s', ⟨hs', hid', hrange', -⟩, -⟩ := hinv.selected c hc e he
    obtain rfl : s' = s := eq_of_id_eq hinv.ids_nodup hs' hmem (hid'.trans hes)
    obtain ⟨k, hk⟩ := h.checkpoint c hc
    obtain ⟨w, i, j, hjk, hij⟩ := hk.selected e he
    obtain ⟨k', hkk', hk'⟩ := hk.synced hsynced
    refine Or.inr ⟨⟨⟨(m₀.run ops).job, (m₀.run ops).generation, e.1, e.2.2, w, e.2.1⟩,
      ticketFor (m₀.run ops).job (m₀.run ops).generation c, i, j, k, k', ops.length⟩, ?_⟩
    exact {
      toWritten := hij.concat le_rfl op
      covers := by
        rw [hts] at hpt
        rw [← hrange']
        exact hpt
      written_lt := hjk
      prepared := hk.prepared.concat op
      selected := he
      prepared_lt := hkk'
      synced := hk'.concat op
      synced_lt := hk'.lt
      committed := by
        rw [hop] at hcall ⊢
        exact hcall
      not_abandoned := hk.not_abandoned.concat le_rfl op }
  | pending hpend => rw [hpend] at hdur; cases hdur
  | leased worker hstate hop hr => rw [hstate] at hdur; cases hdur
  | written s worker attempt hmem hheld hts hop hr => rw [hts] at hdur; cases hdur

end Evidence

/-- **Step lemma**: one more call keeps the evidence, provided its tokens were issued. -/
theorem Evidence.step (hm₀ : m₀.Inv) (huse : UsesIssued m₀ (ops ++ [op]))
    (h : Evidence m₀ ops (m₀.run ops)) : Evidence m₀ (ops ++ [op]) (m₀.run (ops ++ [op])) := by
  have hinv := hm₀.run ops
  have hrun : m₀.run (ops ++ [op]) = ((m₀.run ops).perform op).2 := after_concat
  rcases perform_cases hinv.ids_nodup op with ⟨e, he⟩ | ⟨r, m', hm', hch⟩
  · rw [hrun, he]
    exact h.refused he
  · rw [hrun, hm']
    exact ⟨fun s hs w a hst ↦ h.inFlight_step hinv hm' hch hs hst,
      fun s hs a hst ↦ h.written_step hinv hm' hch hs hst,
      fun c hc ↦ h.checkpoint_step hinv hm' hch hm₀ huse hc,
      fun p hp ↦ h.durable_step hinv hm' hch hm₀ huse hp⟩

end Step

/-- A map just built has neither leases nor a checkpoint. -/
theorem Built.idle (h : m.Built) :
    (∀ s ∈ m.segments, s.state = .pending ∨ s.state = .durable) ∧ m.checkpoint = none := by
  rcases h with ⟨job, generation, total, maximum, h⟩ | ⟨job, generation, total, maximum, durable, h⟩
  · obtain ⟨-, -, -, hm, hseg⟩ := new_eq_ok h
    refine ⟨?_, by rw [hm]⟩
    rcases hseg with ⟨-, hseg⟩ | ⟨range, -, -, hseg⟩ <;> simp [hseg]
  · have hr := restore_eq_ok h
    exact ⟨hr.states, by rw [hr.eq]⟩

/-- What was issued in time stays so when the last call is forgotten. -/
theorem UsesIssued.of_concat {ops : List Op} (h : UsesIssued m₀ (ops ++ [op])) :
    UsesIssued m₀ ops := by
  intro k op' r hcall t ht
  obtain ⟨i, hi, op'', hissued⟩ := h k op' r (hcall.concat op) t ht
  exact ⟨i, hi, op'', hissued.of_concat (hi.trans hcall.lt)⟩

/-- **Run lemma**: there is evidence for everything in the map, after every history. -/
theorem Built.evidence (h : m₀.Built) {ops : List Op} (huse : UsesIssued m₀ ops) :
    Evidence m₀ ops (m₀.run ops) := by
  induction ops using List.reverseRecOn with
  | nil =>
    obtain ⟨hstates, hnone⟩ := h.idle
    have hm : m₀.run [] = m₀ := rfl
    rw [hm]
    refine ⟨fun s hs w a hst ↦ ?_, fun s hs a hst ↦ ?_, fun c hc ↦ ?_, fun p hp ↦ Or.inl hp⟩
    · rcases hstates s hs with h' | h' <;> rw [hst] at h' <;> cases h'
    · rcases hstates s hs with h' | h' <;> rw [hst] at h' <;> cases h'
    · rw [hnone] at hc
      cases hc
  | append_singleton ops op ih => exact (ih huse.of_concat).step h.inv huse

/-! ### Tokens are used once -/

/-- The generation has passed, or it is the current one and `Q` holds. -/
def Behind (m : SegmentMap) (generation : Generation) (Q : Prop) : Prop :=
  generation.get < m.generation.get ∨ generation = m.generation ∧ Q

/-- The token may have been issued by the map. -/
def Known (m : SegmentMap) : Reply → Prop
  | .lease l => m.Behind l.generation (l.attempt < m.nextAttempt)
  | .ticket t => m.Behind t.generation (t.sequence < m.nextCheckpoint)
  | .batch b => m.Behind b.generation (b.sequence < m.nextCheckpoint)
  | _ => True

/-- The token cannot match anything in the map any more. -/
def Spent (m : SegmentMap) : Reply → Prop
  | .lease l => m.Behind l.generation
      (l.attempt < m.nextAttempt ∧ ∀ s ∈ m.segments, s.state ≠ .inFlight l.worker l.attempt)
  | .ticket t => m.Behind t.generation
      (t.sequence < m.nextCheckpoint ∧ ∀ c ∈ m.checkpoint, c.sequence = t.sequence → c.synced = true)
  | .batch b => m.Behind b.generation
      (b.sequence < m.nextCheckpoint ∧ ∀ c ∈ m.checkpoint, c.sequence ≠ b.sequence)
  | _ => True

/-- The operation makes the token worthless. -/
def Op.Voids (t : Reply) : Op → Prop
  | .release l => t = .lease l
  | .discardCheckpoint => (∃ ticket, t = .ticket ticket) ∨ ∃ batch, t = .batch batch
  | .replaceGeneration _ => True
  | _ => False

/-- Replacing the generation leaves every known generation behind. -/
theorem Behind.step {g : Generation} {Q Q' : Prop} (hb : m.Behind g Q) (h : Change m op r m')
    (hQ : m'.generation = m.generation → m.nextAttempt ≤ m'.nextAttempt →
      m.nextCheckpoint ≤ m'.nextCheckpoint → Q → Q') : m'.Behind g Q' := by
  rcases h.scope with ⟨total, -, -, -, hgen, -⟩ | ⟨-, -, hgen, hattempt, hcheckpoint⟩
  · refine Or.inl ?_
    rcases hb with hlt | ⟨rfl, -⟩ <;> omega
  · rcases hb with hlt | ⟨rfl, hq⟩
    · exact Or.inl (hgen ▸ hlt)
    · exact Or.inr ⟨hgen.symm, hQ hgen hattempt hcheckpoint hq⟩

theorem Known.step {t : Reply} (hinv : m.Inv) (h : m.Known t) (op : Op) :
    (m.perform op).2.Known t := by
  rcases perform_cases hinv.ids_nodup op with ⟨e, he⟩ | ⟨r, m', hm', hch⟩
  · rw [he]
    exact h
  · rw [hm']
    cases t with
    | lease l => exact Behind.step h hch fun _ hattempt _ hlt ↦ hlt.trans_le hattempt
    | ticket t => exact Behind.step h hch fun _ _ hcheckpoint hlt ↦ hlt.trans_le hcheckpoint
    | batch b => exact Behind.step h hch fun _ _ hcheckpoint hlt ↦ hlt.trans_le hcheckpoint
    | _ => trivial

/-- A checkpoint of the changed map was there before, up to having been synced, or is new. -/
theorem Change.checkpoint_cases (h : Change m op r m') {c : Checkpoint} (hc : m'.checkpoint = some c) :
    c.sequence = m.nextCheckpoint ∨
      ∃ c₀, m.checkpoint = some c₀ ∧ c.sequence = c₀.sequence ∧ (c₀.synced = true → c.synced = true) := by
  cases h with
  | prepareSync hnone =>
    obtain rfl := Option.some.inj hc
    exact Or.inl rfl
  | acknowledgeSync ranges hc₀ hsynced =>
    obtain rfl := Option.some.inj hc
    exact Or.inr ⟨_, hc₀, rfl, fun _ ↦ rfl⟩
  | acknowledgeCommit ranges hc₀ hsynced => cases hc
  | discardCheckpoint => cases hc
  | replaceGeneration hnone hnext hnew =>
    obtain ⟨-, -, -, hm'', -⟩ := new_eq_ok hnew
    rw [hm''] at hc
    cases hc
  | _ => exact Or.inr ⟨c, hc, rfl, id⟩

/-- **Spent tokens stay spent.** -/
theorem Spent.step {t : Reply} (hinv : m.Inv) (h : m.Spent t) (op : Op) :
    (m.perform op).2.Spent t := by
  rcases perform_cases hinv.ids_nodup op with ⟨e, he⟩ | ⟨r, m', hm', hch⟩
  · rw [he]
    exact h
  rw [hm']
  cases t with
  | lease l =>
    refine Behind.step h hch fun _ hattempt _ ⟨hlt, hno⟩ ↦ ⟨hlt.trans_le hattempt, fun s hs hst ↦ ?_⟩
    cases hch.origin hinv hs with
    | kept hmem hreplace hrelease hdiscard => exact hno s hmem hst
    | leased worker hstate hop hr =>
      rw [hstate] at hst
      obtain ⟨-, hattempt⟩ := SegmentState.inFlight.inj hst
      omega
    | pending hpend => rw [hpend] at hst; cases hst
    | written s' worker attempt hmem hheld ht hop hr => rw [ht] at hst; cases hst
    | committed s' c ranges hmem hc hsynced hid ht hop hr => rw [ht] at hst; cases hst
  | ticket t =>
    refine Behind.step h hch fun _ _ hcheckpoint ⟨hlt, hno⟩ ↦
      ⟨hlt.trans_le hcheckpoint, fun c hc hseq ↦ ?_⟩
    rcases hch.checkpoint_cases hc with hnew | ⟨c₀, hc₀, hseq₀, hsynced⟩
    · omega
    · exact hsynced (hno c₀ hc₀ (hseq₀.symm.trans hseq))
  | batch b =>
    refine Behind.step h hch fun _ _ hcheckpoint ⟨hlt, hno⟩ ↦
      ⟨hlt.trans_le hcheckpoint, fun c hc hseq ↦ ?_⟩
    rcases hch.checkpoint_cases hc with hnew | ⟨c₀, hc₀, hseq₀, -⟩
    · omega
    · exact hno c₀ hc₀ (hseq₀.symm.trans hseq)
  | _ => trivial

/-- The call presented this token and was accepted. -/
def Accepts (t : Reply) (op : Op) (a : Except DomainError Reply) : Prop :=
  t ∈ op.token ∧ ∃ r, a = .ok r

/-- An in-flight segment that changes its state leaves no other with its attempt. -/
theorem Inv.ne_inFlight_of_set (hinv : m.Inv) {pre post : List Segment} {s t : Segment}
    {worker attempt : ℕ} {state : SegmentState} (hseg : m.segments = pre ++ s :: post)
    (hheld : s.state = .inFlight worker attempt) (hne : state ≠ .inFlight worker attempt)
    (ht : t ∈ pre ++ { s with state := state } :: post) : t.state ≠ .inFlight worker attempt := by
  intro hst
  simp only [List.mem_append, List.mem_cons] at ht
  rcases ht with ht | rfl | ht
  · exact hinv.notMem_attempt hseg (Or.inl ht) (by rw [hheld]; rfl) (by rw [hst]; rfl)
  · exact hne hst
  · exact hinv.notMem_attempt hseg (Or.inr ht) (by rw [hheld]; rfl) (by rw [hst]; rfl)

/-- **Acceptance spends the token.** -/
theorem Inv.spent_of_accepts {t : Reply} (hinv : m.Inv) (h : Accepts t op (m.perform op).1) :
    (m.perform op).2.Spent t := by
  obtain ⟨ht, r, hr⟩ := h
  rcases perform_cases hinv.ids_nodup op with ⟨e, he⟩ | ⟨r, m', hm', hch⟩
  · rw [he] at hr
    cases hr
  rw [hm']
  cases hch with
  | cut hseg hpend hsplit hop =>
    rcases hop with ⟨id, at'', rfl, -⟩ | ⟨minimum, rfl, -⟩ <;> cases ht
  | markWritten hseg hheld =>
    cases ht
    refine Or.inr ⟨rfl, hinv.attempts_lt _ (mem_middle hseg) _ (by rw [hheld]; rfl), fun s hs ↦ ?_⟩
    exact hinv.ne_inFlight_of_set hseg hheld (by simp) hs
  | release hseg hheld =>
    cases ht
    refine Or.inr ⟨rfl, hinv.attempts_lt _ (mem_middle hseg) _ (by rw [hheld]; rfl), fun s hs ↦ ?_⟩
    exact hinv.ne_inFlight_of_set hseg hheld (by simp) hs
  | acknowledgeSync ranges hc hsynced =>
    cases ht
    refine Or.inr ⟨rfl, hinv.sequence_lt _ hc, fun c hc' _ ↦ ?_⟩
    obtain rfl := Option.some.inj hc'
    rfl
  | acknowledgeCommit ranges hc hsynced =>
    cases ht
    exact Or.inr ⟨rfl, hinv.sequence_lt _ hc, fun c hc' ↦ by cases hc'⟩
  | _ => cases ht

/-- **A spent token is refused.** -/
theorem Inv.not_accepts_of_spent {t : Reply} (hinv : m.Inv) (h : m.Spent t) :
    ¬Accepts t op (m.perform op).1 := by
  rintro ⟨ht, r, hr⟩
  have hcur : ∀ {Q : Prop}, m.Behind m.generation Q → Q := by
    intro Q hb
    rcases hb with hlt | ⟨-, hq⟩
    · exact absurd hlt (lt_irrefl _)
    · exact hq
  rcases perform_cases hinv.ids_nodup op with ⟨e, he⟩ | ⟨r, m', hm', hch⟩
  · rw [he] at hr
    cases hr
  cases hch with
  | cut hseg hpend hsplit hop =>
    rcases hop with ⟨id, at'', rfl, -⟩ | ⟨minimum, rfl, -⟩ <;> cases ht
  | markWritten hseg hheld =>
    cases ht
    exact (hcur h).2 _ (mem_middle hseg) hheld
  | release hseg hheld =>
    cases ht
    exact (hcur h).2 _ (mem_middle hseg) hheld
  | acknowledgeSync ranges hc hsynced =>
    cases ht
    exact absurd ((hcur h).2 _ hc rfl) (by simp [hsynced])
  | acknowledgeCommit ranges hc hsynced =>
    cases ht
    exact (hcur h).2 _ hc rfl
  | _ => cases ht

/-- What a call returns is known to the map it leaves. -/
theorem Inv.known_of_issued {t : Reply} (hinv : m.Inv) (h : (m.perform op).1 = .ok t) :
    (m.perform op).2.Known t := by
  rcases perform_cases hinv.ids_nodup op with ⟨e, he⟩ | ⟨r, m', hm', hch⟩
  · rw [he] at h
    cases h
  rw [hm'] at h ⊢
  cases h
  cases hch with
  | cut hseg hpend hsplit hop =>
    rcases hop with ⟨id, at'', -, rfl⟩ | ⟨minimum, -, rfl⟩ <;> trivial
  | lease worker hseg hpend => exact Or.inr ⟨rfl, Nat.lt_succ_self _⟩
  | prepareSync hnone => exact Or.inr ⟨rfl, Nat.lt_succ_self _⟩
  | acknowledgeSync ranges hc hsynced => exact Or.inr ⟨rfl, hinv.sequence_lt _ hc⟩
  | _ => trivial

/-- **Voiding spends** every token that may have been issued. -/
theorem Inv.spent_of_voids {t r : Reply} (hinv : m.Inv) (hk : m.Known t)
    (h : (m.perform op).1 = .ok r) (hv : op.Voids t) : (m.perform op).2.Spent t := by
  rcases perform_cases hinv.ids_nodup op with ⟨e, he⟩ | ⟨r', m', hm', hch⟩
  · rw [he] at h
    cases h
  rw [hm']
  have hgone : m'.generation.get = m.generation.get + 1 → m'.Spent t := by
    intro hgen
    have hlt : ∀ {g : Generation} {Q Q' : Prop}, m.Behind g Q → m'.Behind g Q' := by
      intro g Q Q' hb
      refine Or.inl ?_
      rcases hb with hlt | ⟨rfl, -⟩ <;> omega
    cases t with
    | lease l => exact hlt hk
    | ticket t => exact hlt hk
    | batch b => exact hlt hk
    | _ => trivial
  cases hch with
  | cut hseg hpend hsplit hop =>
    rcases hop with ⟨id, at'', rfl, -⟩ | ⟨minimum, rfl, -⟩ <;> exact False.elim hv
  | release hseg hheld =>
    have hspent := hinv.spent_of_accepts (t := t) ⟨by rw [hv]; rfl, r, h⟩
    rw [hm'] at hspent
    exact hspent
  | discardCheckpoint =>
    rcases hv with ⟨ticket, rfl⟩ | ⟨batch, rfl⟩
    · exact hk.imp_right fun ⟨hgen, hlt⟩ ↦ ⟨hgen, hlt, fun c hc ↦ by cases hc⟩
    · exact hk.imp_right fun ⟨hgen, hlt⟩ ↦ ⟨hgen, hlt, fun c hc ↦ by cases hc⟩
  | replaceGeneration hnone hnext hnew =>
    obtain ⟨-, -, -, hm'', -⟩ := new_eq_ok hnew
    refine hgone ?_
    rw [hm'']
    exact Generation.get_of_next hnext
  | _ => exact False.elim hv

/-! ### The whole history -/

section Main

variable {ops : List Op}

/-- Within one generation durable bytes only accumulate. -/
theorem Inv.durableAt_mono (hinv : m₀.Inv) {i j p : ℕ} (hij : i ≤ j)
    (hgen : (m₀.run (ops.take i)).generation = (m₀.run (ops.take j)).generation)
    (hp : (m₀.run (ops.take i)).DurableAt p) : (m₀.run (ops.take j)).DurableAt p := by
  have hlater : (m₀.run (ops.take j)).Behind (m₀.run (ops.take i)).generation
      ((m₀.run (ops.take j)).DurableAt p) := by
    refine after_take_induction (I := Inv)
      (D := fun m ↦ m.Behind (m₀.run (ops.take i)).generation (m.DurableAt p))
      (fun m op hm ↦ (m.keeps_perform op).inv hm) hinv (fun m op hm hb ↦ ?_) hij (Or.inr ⟨rfl, hp⟩)
    rcases perform_cases hm.ids_nodup op with ⟨e, he⟩ | ⟨r, m', hm', hch⟩
    · rw [he]
      exact hb
    · rw [hm']
      exact hb.step hch fun hgen _ _ hp ↦ hch.durableAt hp hgen
  rcases hlater with hlt | ⟨-, hp'⟩
  · rw [hgen] at hlt
    exact absurd hlt (lt_irrefl _)
  · exact hp'

/-- **Durability provenance.** In every history whose tokens were issued by the map: a byte that
became durable has a story; within a generation durable bytes only accumulate; a token is accepted
at most once; and a token that was voided after it was issued is refused from then on. -/
theorem durability_provenance (hm₀ : m₀.Built) (huse : UsesIssued m₀ ops) :
    (∀ p, ¬m₀.DurableAt p → (m₀.run ops).DurableAt p → ∃ st, Story.Valid m₀ ops p st) ∧
    (∀ i j p, i ≤ j → (m₀.run (ops.take i)).generation = (m₀.run (ops.take j)).generation →
      (m₀.run (ops.take i)).DurableAt p → (m₀.run (ops.take j)).DurableAt p) ∧
    (∀ t i j op op' a a', Call perform m₀ ops i op (.ok a) → t ∈ op.token →
      Call perform m₀ ops j op' (.ok a') → t ∈ op'.token → i = j) ∧
    ∀ t h i j op₀ op₁ op₂ a r, h < i → i < j → Call perform m₀ ops h op₀ (.ok t) →
      Call perform m₀ ops i op₁ (.ok a) → op₁.Voids t → Call perform m₀ ops j op₂ r →
      t ∈ op₂.token → ∃ e, r = .error e := by
  have hstep : ∀ (m : SegmentMap) (op : Op), m.Inv → (m.perform op).2.Inv :=
    fun m op hm ↦ (m.keeps_perform op).inv hm
  refine ⟨fun p hno hp ↦ ?_, fun i j p hij hgen hp ↦ hm₀.inv.durableAt_mono hij hgen hp, ?_, ?_⟩
  · rcases (hm₀.evidence huse).durable p hp with h | h
    · exact absurd h hno
    · exact h
  · intro t i j op op' a a' hi hti hj htj
    exact call_unique (P := Accepts t) (D := fun m ↦ m.Spent t) hstep hm₀.inv
      (fun m op hm hs ↦ hs.step hm op) (fun m op hm hs ↦ hm.not_accepts_of_spent hs)
      (fun m op hm ha ↦ hm.spent_of_accepts ha) hi ⟨hti, a, rfl⟩ hj ⟨htj, a', rfl⟩
  · intro t h i j op₀ op₁ op₂ a r hhi hij hh hi hv hj htj
    -- issued by call `h`, hence known until call `i`, which spends it
    have hknown : (m₀.run (ops.take i)).Known t := by
      refine after_take_induction (D := fun m ↦ m.Known t) hstep hm₀.inv
        (fun m op hm hk ↦ hk.step hm op) hhi ?_
      rw [after_take_succ hh.1]
      exact (hm₀.inv.run _).known_of_issued hh.2
    have hspent : (m₀.run (ops.take (i + 1))).Spent t := by
      rw [run, after_take_succ hi.1]
      exact (hm₀.inv.run _).spent_of_voids hknown hi.2 hv
    have hno := not_call_after (P := Accepts t) (D := fun m ↦ m.Spent t) hstep hm₀.inv
      (fun m op hm hs ↦ hs.step hm op) (fun m op hm hs ↦ hm.not_accepts_of_spent hs) hspent hij hj
    rcases r with e | b
    · exact ⟨e, rfl⟩
    · exact absurd ⟨htj, b, rfl⟩ hno

end Main

/-! ### A lease that outlives a discard

`discard_unsynced` gives up *written* segments only: a segment that is still in flight keeps its lease,
and what its worker reports later is accepted. -/

theorem zero_lt_ten : 0 < 10 := by decide

/-- The range of ten bytes. -/
def tenRange : ByteRange := ⟨0, 10, zero_lt_ten, ten_le_i64Max⟩

/-- A fresh map of ten bytes. -/
def tenMap : SegmentMap :=
  ⟨⟨1, Nat.one_ne_zero⟩, Generation.initial, 10, 8, [⟨⟨1⟩, tenRange, .pending⟩], 2, 1, 1, none⟩

def tenLease : Lease := ⟨⟨1, Nat.one_ne_zero⟩, Generation.initial, ⟨1⟩, 1, 7, tenRange⟩

def tenTicket : SyncTicket :=
  ⟨⟨1, Nat.one_ne_zero⟩, Generation.initial, 1, [tenRange], [(⟨1⟩, tenRange, 1)]⟩

/-- A lease is taken, everything written so far is given up, and the lease is then carried through to
its commit. -/
def tenHistory : List Op :=
  [.lease ⟨1⟩ 7, .discardUnsynced, .markWritten tenLease, .prepareSync, .acknowledgeSync tenTicket,
    .acknowledgeCommit tenTicket.batch]

theorem tenMap_built : tenMap.Built := Or.inl ⟨⟨1, by decide⟩, Generation.initial, 10, 8, rfl⟩

theorem tenHistory_usesIssued : UsesIssued tenMap tenHistory := by
  intro k op r hcall t ht
  obtain ⟨hop, -⟩ := hcall
  rcases k with - | - | - | - | - | - | k <;> cases hop <;> cases ht
  · exact ⟨0, by decide, .lease ⟨1⟩ 7, rfl, rfl⟩
  · exact ⟨3, by decide, .prepareSync, rfl, rfl⟩
  · exact ⟨4, by decide, .acknowledgeSync tenTicket, rfl, rfl⟩

theorem tenHistory_durableAt : (tenMap.run tenHistory).DurableAt 0 := by decide

/-- The story of the first byte of `tenHistory`. -/
theorem durability_provenance_ten : ∃ st, Story.Valid tenMap tenHistory 0 st :=
  (durability_provenance tenMap_built tenHistory_usesIssued).1 0 (by decide) tenHistory_durableAt

/-- **The discard need not come before the lease.** In `tenHistory` a byte becomes durable although
every story of it has an accepted `discard_unsynced` between its lease and its commit. -/
theorem durable_despite_discard :
    tenMap.Built ∧ UsesIssued tenMap tenHistory ∧ ¬tenMap.DurableAt 0 ∧
      (tenMap.run tenHistory).DurableAt 0 ∧
      ∀ st : Story, st.Valid tenMap tenHistory 0 →
        ∃ k, st.leased < k ∧ k < st.committed ∧
          Call perform tenMap tenHistory k .discardUnsynced (.ok .done) := by
  refine ⟨tenMap_built, tenHistory_usesIssued, by decide, tenHistory_durableAt, fun st hst ↦ ?_⟩
  have hleased : st.leased = 0 := by
    have hop := hst.leased.1
    rcases hi : st.leased with - | - | - | - | - | - | k <;> rw [hi] at hop <;> first | rfl | cases hop
  have hcommitted : st.committed = 5 := by
    have hop := hst.committed.1
    rcases hi : st.committed with - | - | - | - | - | - | k <;> rw [hi] at hop <;>
      first | rfl | cases hop
  exact ⟨1, by omega, by omega, rfl, rfl⟩

end SegmentMap

end Fhd
