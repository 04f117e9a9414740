import FhdEngine.Domain.SegmentRestore
import FhdEngine.Library.History

/-!
# The representation invariant of the segment map

Eleven operations mutate the same list of segments, the same three counters and the same pending
checkpoint. `SegmentMap.Inv` is what makes them safe together:

* the segments tile `[0, total)`, and there are at most `maximum` of them;
* identifiers are pairwise distinct and below `nextId`;
* attempts of in-flight and written segments are pairwise distinct and below `nextAttempt`;
* every entry a pending checkpoint selected is still a written segment with that range and attempt.

The proofs go through three shapes of change rather than eleven operations: **one segment changes its
state** (`Inv.setOne`), **one pending segment is cut in two** (`Inv.cut`), and **all segments are mapped
by a function that keeps identifiers and ranges** (`Inv.map`). What each operation does is read off its
`_cases` lemma, so the invariant never unfolds an operation.
-/

namespace Fhd

open Tiling

namespace SegmentMap

/-- Two segments do not belong to the same attempt. -/
def AttemptsDiffer (s t : Segment) : Prop := ∀ a ∈ s.state.attempt, a ∉ t.state.attempt

theorem AttemptsDiffer.symm {s t : Segment} (h : AttemptsDiffer s t) : AttemptsDiffer t s :=
  fun a ht hs ↦ h a hs ht

/-- The segment is the one a checkpoint recorded, still written by the recorded attempt. -/
def IsSelected (e : Selected) (s : Segment) : Prop :=
  s.id = e.1 ∧ s.range = e.2.1 ∧ s.state = .written e.2.2

/-- **The representation invariant.** -/
structure Inv (m : SegmentMap) : Prop where
  total_le : m.total ≤ i64Max
  maximum_pos : 1 ≤ m.maximum
  maximum_le : m.maximum ≤ maxSegments
  tiles : SegmentTiles 0 m.segments m.total
  length_le : m.segments.length ≤ m.maximum
  ids_nodup : (m.segments.map (·.id)).Nodup
  ids_lt : ∀ s ∈ m.segments, s.id.get < m.nextId
  attempts_differ : m.segments.Pairwise AttemptsDiffer
  attempts_lt : ∀ s ∈ m.segments, ∀ a ∈ s.state.attempt, a < m.nextAttempt
  sequence_lt : ∀ c ∈ m.checkpoint, c.sequence < m.nextCheckpoint
  ids_eq : ∀ c ∈ m.checkpoint, c.ids = c.selection.map (·.1)
  selected : ∀ c ∈ m.checkpoint, ∀ e ∈ c.selection, ∃! s, s ∈ m.segments ∧ IsSelected e s

variable {m : SegmentMap}

/-- With distinct identifiers a selected segment is unique as soon as it exists. -/
theorem existsUnique_selected (hids : (m.segments.map (·.id)).Nodup) {e : Selected} {s : Segment}
    (hs : s ∈ m.segments) (he : IsSelected e s) : ∃! t, t ∈ m.segments ∧ IsSelected e t :=
  ⟨s, ⟨hs, he⟩, fun _ ht ↦ eq_of_id_eq hids ht.1 hs (ht.2.1.trans he.1.symm)⟩

/-! ### The three shapes of change -/

namespace Inv

/-- **One segment changes its state.** It keeps its identifier and range; its new attempt, if it has
one, is its old one or a fresh one; and no checkpoint had selected it. -/
theorem setOne (h : m.Inv) {pre post : List Segment} {s s' : Segment} {n : ℕ}
    (hseg : m.segments = pre ++ s :: post) (hid : s'.id = s.id) (hrange : s'.range = s.range)
    (hn : m.nextAttempt ≤ n)
    (hattempt : ∀ a ∈ s'.state.attempt, a < n ∧ (a ∈ s.state.attempt ∨ m.nextAttempt ≤ a))
    (hfree : s.state.isWritten = false) :
    Inv { m with segments := pre ++ s' :: post, nextAttempt := n } := by
  have hmem : ∀ t ∈ pre ++ s' :: post, t = s' ∨ t ∈ m.segments := by
    intro t ht
    rw [hseg]
    simp only [List.mem_append, List.mem_cons] at ht ⊢
    tauto
  have hs : s ∈ m.segments := by rw [hseg]; simp
  have hids : ((pre ++ s' :: post).map (·.id)).Nodup := by
    have := h.ids_nodup
    rw [hseg] at this
    simpa [hid] using this
  have hpair := h.attempts_differ
  rw [hseg, List.pairwise_append, List.pairwise_cons] at hpair
  obtain ⟨hpre, ⟨hspost, hpost⟩, hcross⟩ := hpair
  refine ⟨h.total_le, h.maximum_pos, h.maximum_le, ?_, ?_, hids, ?_, ?_, ?_, h.sequence_lt, h.ids_eq,
    ?_⟩
  · have htiles := h.tiles
    rw [hseg] at htiles
    have hmid : SegmentTiles s.range.start [s'] s.range.stop := by
      rw [← hrange]
      exact ⟨rfl, s'.range.start_lt, rfl⟩
    exact htiles.replace hmid
  · have := h.length_le
    rw [hseg] at this
    simpa using this
  · intro t ht
    rcases hmem t ht with rfl | ht'
    · rw [hid]
      exact h.ids_lt s hs
    · exact h.ids_lt t ht'
  · have hnew : ∀ t ∈ m.segments, AttemptsDiffer s t → AttemptsDiffer s' t := by
      intro t ht hst a ha hat
      rcases (hattempt a ha).2 with hold | hfresh
      · exact hst a hold hat
      · exact absurd (h.attempts_lt t ht a hat) (not_lt.2 hfresh)
    have hmem_pre : ∀ t ∈ pre, t ∈ m.segments := fun t ht ↦ by rw [hseg]; simp [ht]
    have hmem_post : ∀ t ∈ post, t ∈ m.segments := fun t ht ↦ by rw [hseg]; simp [ht]
    refine List.pairwise_append.2 ⟨hpre, List.pairwise_cons.2
      ⟨fun t ht ↦ hnew t (hmem_post t ht) (hspost t ht), hpost⟩, fun t ht u hu ↦ ?_⟩
    rcases List.mem_cons.1 hu with rfl | hu'
    · exact (hnew t (hmem_pre t ht) (hcross t ht s List.mem_cons_self).symm).symm
    · exact hcross t ht u (List.mem_cons_of_mem _ hu')
  · intro t ht a ha
    rcases hmem t ht with rfl | ht'
    · exact (hattempt a ha).1
    · exact (h.attempts_lt t ht' a ha).trans_le hn
  · intro c hc e he
    obtain ⟨t, ⟨ht, hsel⟩, -⟩ := h.selected c hc e he
    refine existsUnique_selected hids (s := t) ?_ hsel
    have hne : t ≠ s := by
      rintro rfl
      rw [hsel.2.2] at hfree
      cases hfree
    rw [hseg] at ht
    simp only [List.mem_append, List.mem_cons] at ht ⊢
    tauto

/-- **One pending segment is cut in two.** The right half gets the next identifier. -/
theorem cut (h : m.Inv) {pre post : List Segment} {s : Segment} {at' : ℕ} {left right : ByteRange}
    (hseg : m.segments = pre ++ s :: post) (hpend : s.state = .pending)
    (hlen : m.segments.length ≠ m.maximum) (hsplit : s.range.split at' = .ok (left, right)) :
    Inv { m with
      segments := pre ++ { s with range := left } :: ⟨⟨m.nextId⟩, right, .pending⟩ :: post
      nextId := m.nextId + 1 } := by
  obtain ⟨hl₁, hl₂, hr₁, hr₂⟩ := ByteRange.split_eq_ok hsplit
  have hs : s ∈ m.segments := by rw [hseg]; simp
  have hfresh : ∀ t ∈ m.segments, t.id ≠ ⟨m.nextId⟩ := fun t ht heq ↦ by
    have := h.ids_lt t ht
    rw [heq] at this
    exact lt_irrefl _ this
  have hids : ((pre ++ { s with range := left } :: ⟨⟨m.nextId⟩, right, .pending⟩ :: post).map
      (·.id)).Nodup := by
    have hperm : ((pre ++ { s with range := left } :: ⟨⟨m.nextId⟩, right, .pending⟩ :: post).map
        (·.id)).Perm (⟨m.nextId⟩ :: m.segments.map (·.id)) := by
      rw [hseg]
      simp only [List.map_append, List.map_cons]
      exact ((List.Perm.swap _ _ _).append_left _).trans List.perm_middle
    refine hperm.nodup_iff.2 (List.nodup_cons.2 ⟨fun hmem ↦ ?_, h.ids_nodup⟩)
    obtain ⟨t, ht, heq⟩ := List.mem_map.1 hmem
    exact hfresh t ht heq
  have hmem : ∀ t ∈ pre ++ { s with range := left } :: ⟨⟨m.nextId⟩, right, .pending⟩ :: post,
      t = { s with range := left } ∨ t = ⟨⟨m.nextId⟩, right, .pending⟩ ∨ t ∈ m.segments := by
    intro t ht
    rw [hseg]
    simp only [List.mem_append, List.mem_cons] at ht ⊢
    tauto
  refine ⟨h.total_le, h.maximum_pos, h.maximum_le, ?_, ?_, hids, ?_, ?_, ?_, h.sequence_lt, h.ids_eq,
    ?_⟩
  · have htiles := h.tiles
    rw [hseg] at htiles
    have hmid : SegmentTiles s.range.start
        [{ s with range := left }, ⟨⟨m.nextId⟩, right, .pending⟩] s.range.stop :=
      ⟨hl₁, left.start_lt, hr₁.trans hl₂.symm, right.start_lt, hr₂⟩
    exact htiles.replace hmid
  · have := h.length_le
    rw [hseg] at this hlen
    simp only [List.length_append, List.length_cons] at this hlen ⊢
    omega
  · intro t ht
    rcases hmem t ht with rfl | rfl | ht'
    · exact (h.ids_lt s hs).trans (Nat.lt_succ_self _)
    · exact Nat.lt_succ_self _
    · exact (h.ids_lt t ht').trans (Nat.lt_succ_self _)
  · -- both halves are pending, so they belong to no attempt
    have hnone : ∀ {t u : Segment}, t.state = .pending → AttemptsDiffer t u := fun ht a ha ↦ by
      rw [ht] at ha
      exact absurd ha (by simp)
    have hpair := h.attempts_differ
    rw [hseg, List.pairwise_append, List.pairwise_cons] at hpair
    obtain ⟨hpre, ⟨-, hpost⟩, hcross⟩ := hpair
    refine List.pairwise_append.2 ⟨hpre, List.pairwise_cons.2 ⟨fun t _ ↦ hnone hpend,
      List.pairwise_cons.2 ⟨fun t _ ↦ hnone rfl, hpost⟩⟩, fun t ht u hu ↦ ?_⟩
    rcases List.mem_cons.1 hu with rfl | hu'
    · exact (hnone hpend).symm
    rcases List.mem_cons.1 hu' with rfl | hu''
    · exact (hnone rfl).symm
    · exact hcross t ht u (List.mem_cons_of_mem _ hu'')
  · intro t ht a ha
    rcases hmem t ht with rfl | rfl | ht'
    · exact h.attempts_lt s hs a ha
    · exact absurd ha (by simp)
    · exact h.attempts_lt t ht' a ha
  · intro c hc e he
    obtain ⟨t, ⟨ht, hsel⟩, -⟩ := h.selected c hc e he
    refine existsUnique_selected hids (s := t) ?_ hsel
    have hne : t ≠ s := by
      rintro rfl
      rw [hsel.2.2] at hpend
      cases hpend
    rw [hseg] at ht
    simp only [List.mem_append, List.mem_cons] at ht ⊢
    tauto

/-- **All segments are mapped** by a function that keeps identifiers and ranges and starts no attempt,
and no checkpoint is pending afterwards. -/
theorem map (h : m.Inv) {f : Segment → Segment} (hid : ∀ s, (f s).id = s.id)
    (hrange : ∀ s, (f s).range = s.range)
    (hattempt : ∀ s, ∀ a ∈ (f s).state.attempt, a ∈ s.state.attempt) :
    Inv { m with segments := m.segments.map f, checkpoint := none } := by
  refine ⟨h.total_le, h.maximum_pos, h.maximum_le, ?_, ?_, ?_, ?_, ?_, ?_, by simp, by simp, by simp⟩
  · exact (tiles_map (fun s _ ↦ by rw [hrange]) fun s _ ↦ by rw [hrange]).2 h.tiles
  · rw [List.length_map]
    exact h.length_le
  · have hcomp : (fun s : Segment ↦ s.id) ∘ f = fun s ↦ s.id := funext hid
    rw [List.map_map, hcomp]
    exact h.ids_nodup
  · intro t ht
    obtain ⟨s, hs, rfl⟩ := List.mem_map.1 ht
    rw [hid]
    exact h.ids_lt s hs
  · refine List.pairwise_map.2 (h.attempts_differ.imp fun {s t} hst a hs ht ↦ ?_)
    exact hst a (hattempt s a hs) (hattempt t a ht)
  · intro t ht a ha
    obtain ⟨s, hs, rfl⟩ := List.mem_map.1 ht
    exact h.attempts_lt s hs a (hattempt s a ha)

/-! ### Fresh and restored maps -/

theorem of_new {job : JobId} {generation : Generation} {total maximum : ℕ}
    (h : new job generation total maximum = .ok m) : m.Inv := by
  obtain ⟨htotal, hpos, hmax, hm, ⟨rfl, hseg⟩ | ⟨range, hstart, hstop, hseg⟩⟩ := new_eq_ok h
  · rw [hm, hseg]
    exact ⟨htotal, hpos, hmax, rfl, Nat.zero_le _, List.nodup_nil, by simp, List.Pairwise.nil,
      by simp, by simp, by simp, by simp⟩
  · rw [hm, hseg]
    exact ⟨htotal, hpos, hmax, ⟨hstart, range.start_lt, hstop⟩, hpos, List.nodup_singleton _,
      by simp, List.pairwise_singleton _ _, by simp, by simp, by simp, by simp⟩

theorem of_restore {job : JobId} {generation : Generation} {total maximum : ℕ}
    {durable : List ByteRange} (h : restore job generation total maximum durable = .ok m) :
    m.Inv := by
  obtain ⟨hm, htotal, hpos, hmax, hlen, htiles, hids, hstates, -⟩ := restore_eq_ok h
  have hidle : ∀ s ∈ m.segments, s.state.attempt = none := fun s hs ↦ by
    rcases hstates s hs with hp | hd
    · rw [hp]; rfl
    · rw [hd]; rfl
  have hnodup : (m.segments.map (·.id)).Nodup := by
    refine List.Nodup.of_map SegmentId.get ?_
    rw [List.map_map]
    exact hids ▸ List.nodup_range'
  have hlt : ∀ s ∈ m.segments, s.id.get < m.segments.length + 1 := fun s hs ↦ by
    have hmem : s.id.get ∈ m.segments.map (·.id.get) := List.mem_map_of_mem hs
    rw [hids, List.mem_range'_1] at hmem
    omega
  rw [hm]
  refine ⟨htotal, hpos, hmax, htiles, hlen, hnodup, hlt, ?_, ?_, by simp, by simp, by simp⟩
  · refine hnodup.of_map.pairwise_of_forall_ne fun s hs t _ _ a ha ↦ ?_
    rw [hidle s hs] at ha
    exact absurd ha (by simp)
  · intro s hs a ha
    rw [hidle s hs] at ha
    exact absurd ha (by simp)

end Inv

/-! ### Operations as data -/

/-- A call of one of the operations that mutate a map. -/
inductive Op
  | splitPending (id : SegmentId) (at' : ℕ)
  | stealLargestPending (minimum : ℕ)
  | lease (id : SegmentId) (worker : ℕ)
  | markWritten (lease : Lease)
  | release (lease : Lease)
  | prepareSync
  | acknowledgeSync (ticket : SyncTicket)
  | acknowledgeCommit (batch : CommitBatch)
  | discardCheckpoint
  | discardUnsynced
  | replaceGeneration (total : ℕ)
deriving DecidableEq, Repr

/-- What an accepted call returns. -/
inductive Reply
  | done
  | segment (id : SegmentId)
  | stolen (id : Option SegmentId)
  | lease (lease : Lease)
  | ticket (ticket : SyncTicket)
  | batch (batch : CommitBatch)
deriving DecidableEq, Repr

/-- A result with its value read as a reply. -/
def reply {α : Type*} (f : α → Reply) (r : Except DomainError α × SegmentMap) :
    Except DomainError Reply × SegmentMap :=
  (r.1.map f, r.2)

def perform (m : SegmentMap) : Op → Except DomainError Reply × SegmentMap
  | .splitPending id at' => reply .segment (m.splitPending id at')
  | .stealLargestPending minimum => reply .stolen (m.stealLargestPending minimum)
  | .lease id worker => reply .lease (m.lease id worker)
  | .markWritten lease => reply (fun _ ↦ .done) (m.markWritten lease)
  | .release lease => reply (fun _ ↦ .done) (m.release lease)
  | .prepareSync => reply .ticket m.prepareSync
  | .acknowledgeSync ticket => reply .batch (m.acknowledgeSync ticket)
  | .acknowledgeCommit batch => reply (fun _ ↦ .done) (m.acknowledgeCommit batch)
  | .discardCheckpoint => (.ok .done, m.discardCheckpoint)
  | .discardUnsynced => reply (fun _ ↦ .done) m.discardUnsynced
  | .replaceGeneration total => reply (fun _ ↦ .done) (m.replaceGeneration total)

/-- The map after a sequence of calls, accepted or refused. -/
def run (m : SegmentMap) (ops : List Op) : SegmentMap := History.after perform m ops

/-! ### Every operation keeps the invariant

`Keeps m r` is the contract of an operation called on `m`: a refusal leaves `m` as it was, and an
acceptance leaves a map that satisfies the invariant if `m` did. -/

/-- The contract of an operation that was called on `m` and ended with `r`. -/
def Keeps {α : Type*} (m : SegmentMap) (r : Except DomainError α × SegmentMap) : Prop :=
  (∃ e, r = (.error e, m)) ∨ ∃ a m', r = (.ok a, m') ∧ (m.Inv → m'.Inv)

namespace Keeps

theorem refused {α : Type*} {r : Except DomainError α × SegmentMap} (h : ∃ e, r = (.error e, m)) :
    m.Keeps r := Or.inl h

theorem accepted {α : Type*} {r : Except DomainError α × SegmentMap} {a : α} {m' : SegmentMap}
    (h : r = (.ok a, m')) (hinv : m.Inv → m'.Inv) : m.Keeps r := Or.inr ⟨a, m', h, hinv⟩

theorem reply {α : Type*} {r : Except DomainError α × SegmentMap} (h : m.Keeps r) (f : α → Reply) :
    m.Keeps (SegmentMap.reply f r) := by
  rcases h with ⟨e, rfl⟩ | ⟨a, m', rfl, hinv⟩
  · exact refused ⟨e, rfl⟩
  · exact accepted rfl hinv

theorem eq_of_error {α : Type*} {r : Except DomainError α × SegmentMap} (h : m.Keeps r)
    {e : DomainError} (he : r.1 = .error e) : r.2 = m := by
  rcases h with ⟨e', rfl⟩ | ⟨a, m', rfl, -⟩
  · rfl
  · cases he

theorem inv {α : Type*} {r : Except DomainError α × SegmentMap} (h : m.Keeps r) (hinv : m.Inv) :
    r.2.Inv := by
  rcases h with ⟨e, rfl⟩ | ⟨a, m', rfl, hm'⟩
  · exact hinv
  · exact hm' hinv

end Keeps

theorem keeps_splitPending (m : SegmentMap) (id : SegmentId) (at' : ℕ) :
    m.Keeps (m.splitPending id at') := by
  rcases m.splitPending_cases id at' with he | ⟨pre, s, post, left, right, hseg, -, hpend, hlen,
    hsplit, h⟩
  · exact Keeps.refused he
  · exact Keeps.accepted h fun hinv ↦ hinv.cut hseg hpend hlen hsplit

theorem keeps_stealLargestPending (m : SegmentMap) (minimum : ℕ) :
    m.Keeps (m.stealLargestPending minimum) := by
  rcases m.stealLargestPending_cases minimum with he | h | ⟨id, at', new, m', hsplit, h⟩
  · exact Keeps.refused he
  · exact Keeps.accepted h id
  · refine Keeps.accepted h fun hinv ↦ ?_
    have := (m.keeps_splitPending id at').inv hinv
    rwa [hsplit] at this

theorem keeps_lease (m : SegmentMap) (id : SegmentId) (worker : ℕ) :
    m.Keeps (m.lease id worker) := by
  rcases m.lease_cases id worker with he | ⟨pre, s, post, hseg, -, hpend, h⟩
  · exact Keeps.refused he
  · refine Keeps.accepted h fun hinv ↦ hinv.setOne hseg rfl rfl (Nat.le_succ _) ?_ (by rw [hpend]; rfl)
    intro a ha
    obtain rfl : m.nextAttempt = a := by simpa using ha
    exact ⟨Nat.lt_succ_self _, Or.inr le_rfl⟩

theorem keeps_markWritten (m : SegmentMap) (lease : Lease) : m.Keeps (m.markWritten lease) := by
  rcases m.markWritten_cases lease with he | ⟨pre, s, post, hseg, hheld, -, -, h⟩
  · exact Keeps.refused ⟨_, he⟩
  · refine Keeps.accepted h fun hinv ↦ hinv.setOne hseg rfl rfl le_rfl ?_ (by rw [hheld.2.2]; rfl)
    intro a ha
    obtain rfl : lease.attempt = a := by simpa using ha
    have hmem : lease.attempt ∈ s.state.attempt := by rw [hheld.2.2]; rfl
    exact ⟨hinv.attempts_lt s (by rw [hseg]; simp) _ hmem, Or.inl hmem⟩

theorem keeps_release (m : SegmentMap) (lease : Lease) : m.Keeps (m.release lease) := by
  rcases m.release_cases lease with he | ⟨pre, s, post, hseg, hheld, -, -, h⟩
  · exact Keeps.refused ⟨_, he⟩
  · exact Keeps.accepted h fun hinv ↦
      hinv.setOne hseg rfl rfl le_rfl (fun a ha ↦ absurd ha (by simp)) (by rw [hheld.2.2]; rfl)

/-- A fresh checkpoint records segments that are written at that moment. -/
theorem keeps_prepareSync (m : SegmentMap) : m.Keeps m.prepareSync := by
  rcases m.prepareSync_cases with he | ⟨-, -, h⟩
  · exact Keeps.refused he
  · refine Keeps.accepted h fun hinv ↦ { hinv with sequence_lt := ?_, ids_eq := ?_, selected := ?_ }
    · intro c hc
      obtain rfl := Option.mem_some_iff.1 hc
      exact Nat.lt_succ_self _
    · intro c hc
      obtain rfl := Option.mem_some_iff.1 hc
      simp [Segment.selection]
    · intro c hc e he
      obtain rfl := Option.mem_some_iff.1 hc
      obtain ⟨s, hs, rfl⟩ := List.mem_map.1 he
      obtain ⟨hs', hwritten⟩ := List.mem_filter.1 hs
      obtain ⟨a, ha⟩ := SegmentState.isWritten_iff.1 hwritten
      exact existsUnique_selected hinv.ids_nodup hs' ⟨rfl, rfl, by simp [Segment.selection, ha]⟩

theorem keeps_acknowledgeSync (m : SegmentMap) (ticket : SyncTicket) :
    m.Keeps (m.acknowledgeSync ticket) := by
  rcases m.acknowledgeSync_cases ticket with he | ⟨c, hc, -, -, -, -, -, h⟩
  · exact Keeps.refused ⟨_, he⟩
  · refine Keeps.accepted h fun hinv ↦ { hinv with sequence_lt := ?_, ids_eq := ?_, selected := ?_ }
    · intro c' hc'
      obtain rfl := Option.mem_some_iff.1 hc'
      exact hinv.sequence_lt c hc
    · intro c' hc'
      obtain rfl := Option.mem_some_iff.1 hc'
      exact hinv.ids_eq c hc
    · intro c' hc'
      obtain rfl := Option.mem_some_iff.1 hc'
      exact hinv.selected c hc

theorem keeps_acknowledgeCommit (m : SegmentMap) (batch : CommitBatch) :
    m.Keeps (m.acknowledgeCommit batch) := by
  rcases m.acknowledgeCommit_cases batch with he | ⟨c, m', -, -, -, -, -, -, h, hm'⟩
  · exact Keeps.refused he
  · refine Keeps.accepted h fun hinv ↦ ?_
    rw [hm' hinv.ids_nodup]
    refine hinv.map (fun s ↦ ?_) (fun s ↦ ?_) fun s a ha ↦ ?_
    · rw [commitOne]; split <;> rfl
    · rw [commitOne]; split <;> rfl
    · rw [commitOne] at ha
      split at ha
      · exact absurd ha (by simp [Segment.setDurable])
      · exact ha

/-- Forgetting the pending checkpoint is always safe. -/
theorem Inv.discardCheckpoint (h : m.Inv) : m.discardCheckpoint.Inv :=
  { h with sequence_lt := by simp [SegmentMap.discardCheckpoint],
           ids_eq := by simp [SegmentMap.discardCheckpoint],
           selected := by simp [SegmentMap.discardCheckpoint] }

theorem keeps_discardUnsynced (m : SegmentMap) : m.Keeps m.discardUnsynced := by
  rcases m.discardUnsynced_cases with he | ⟨hnone, h⟩
  · exact Keeps.refused ⟨_, he⟩
  · refine Keeps.accepted h fun hinv ↦ ?_
    have hmap := hinv.map (f := fun s ↦ if s.state.isWritten then { s with state := .pending } else s)
      (fun s ↦ by split <;> rfl) (fun s ↦ by split <;> rfl) fun s a ha ↦ ?_
    · rwa [← hnone] at hmap
    · split at ha
      · exact absurd ha (by simp)
      · exact ha

theorem keeps_replaceGeneration (m : SegmentMap) (total : ℕ) :
    m.Keeps (m.replaceGeneration total) := by
  rcases m.replaceGeneration_cases total with he | ⟨next, m', -, -, -, hnew, h⟩
  · exact Keeps.refused he
  · exact Keeps.accepted h fun _ ↦ Inv.of_new hnew

/-- **Step lemma**: every operation meets its contract, on any map and with any arguments. -/
theorem keeps_perform (m : SegmentMap) (op : Op) : m.Keeps (m.perform op) := by
  cases op with
  | splitPending id at' => exact (m.keeps_splitPending id at').reply _
  | stealLargestPending minimum => exact (m.keeps_stealLargestPending minimum).reply _
  | lease id worker => exact (m.keeps_lease id worker).reply _
  | markWritten lease => exact (m.keeps_markWritten lease).reply _
  | release lease => exact (m.keeps_release lease).reply _
  | prepareSync => exact m.keeps_prepareSync.reply _
  | acknowledgeSync ticket => exact (m.keeps_acknowledgeSync ticket).reply _
  | acknowledgeCommit batch => exact (m.keeps_acknowledgeCommit batch).reply _
  | discardCheckpoint => exact Keeps.accepted rfl Inv.discardCheckpoint
  | discardUnsynced => exact m.keeps_discardUnsynced.reply _
  | replaceGeneration total => exact (m.keeps_replaceGeneration total).reply _

/-- **Run lemma**: the invariant survives every sequence of calls. -/
theorem Inv.run (h : m.Inv) (ops : List Op) : (m.run ops).Inv :=
  History.after_induction (fun m op hm ↦ (m.keeps_perform op).inv hm) h ops

/-- A map just built: fresh, or rebuilt from some persisted ranges. -/
def Built (m : SegmentMap) : Prop :=
  (∃ job generation total maximum, new job generation total maximum = .ok m) ∨
    ∃ job generation total maximum durable, restore job generation total maximum durable = .ok m

theorem Built.inv (h : m.Built) : m.Inv := by
  rcases h with ⟨job, generation, total, maximum, h⟩ | ⟨job, generation, total, maximum, durable, h⟩
  · exact Inv.of_new h
  · exact Inv.of_restore h

/-- **The segment map never breaks its representation.** From a map just built, after any sequence of
calls with any arguments, the invariant holds and a further call that is refused changes nothing. -/
theorem inv_run_of_built (h : m.Built) (ops : List Op) :
    (m.run ops).Inv ∧
      ∀ op e, ((m.run ops).perform op).1 = .error e → ((m.run ops).perform op).2 = m.run ops :=
  ⟨h.inv.run ops, fun op _ he ↦ ((m.run ops).keeps_perform op).eq_of_error he⟩

/-- A map of ten bytes, split at four, whose first piece is being written and of which a checkpoint is
requested too early. -/
theorem inv_run_of_built_ten :
    ∃ m : SegmentMap, new ⟨1, by decide⟩ Generation.initial 10 8 = .ok m ∧
      (m.run [.splitPending ⟨1⟩ 4, .lease ⟨1⟩ 7, .prepareSync]).Inv ∧
      (m.run [.splitPending ⟨1⟩ 4, .lease ⟨1⟩ 7, .prepareSync]).segments.length = 2 := by
  refine ⟨_, rfl, (inv_run_of_built ?_ _).1, by decide⟩
  exact Or.inl ⟨⟨1, by decide⟩, Generation.initial, 10, 8, rfl⟩

end SegmentMap

end Fhd
