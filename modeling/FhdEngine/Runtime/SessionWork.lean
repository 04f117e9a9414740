import FhdEngine.Runtime.SessionInvariant

/-!
# Handing out work and making it durable

The routines of a session that act on the segment map: cutting the plan, leasing pieces of it to
workers, checkpoints, and the transfer loop that goes round over them. Each keeps `Fit`, each cut and
each lease uses up one of the counters the map numbers things with, and a full map is no error.

The transfer loop can only be left towards the drain, and never by the error that says that nothing
is left to do although something is missing.
-/

namespace Fhd

namespace Session

variable {c : Coordinator} {spec : JobSpec} {σ : Type} {G : Ground c spec σ} {j₀ : Job} {n : ℕ}
  {s : Session}

/-! ### Cutting -/

/-- The map after a pending segment was cut, and the segment to the right of the cut. -/
structure Cut (m m' : SegmentMap) (t : Segment) (at' : ℕ) (right : Segment) : Prop where
  lt : m.segments.length < m.maximum
  length : m'.segments.length = m.segments.length + 1
  maximum : m'.maximum = m.maximum
  left : ∃ left ∈ m'.segments, left.id = t.id ∧ left.state = .pending
  mem : right ∈ m'.segments
  pending : right.state = .pending
  start : right.range.start = at'
  stop : right.range.stop = t.range.stop

/-- The session with another map. -/
def withMap (s : Session) (m : SegmentMap) : Session :=
  { s with job := { s.job with segments := some m } }

theorem withMap_self {m : SegmentMap} (hm : s.job.segments = some m) : s.withMap m = s := by
  rw [withMap, ← hm]

/-- **A pending segment is cut**, or the map is full. -/
theorem splitPending_at {m : SegmentMap} {t : Segment} {at' : ℕ} (h : Fit G j₀ (n + 1) s)
    (hstate : s.job.state = .transferring) (hm : s.job.segments = some m) (ht : t ∈ m.segments)
    (hpend : t.state = .pending)
    (hin : G.excused (.domain .invalidInput) ∨ t.range.start < at' ∧ at' < t.range.stop) :
    At G s (splitPending t.id at') fun r s' ↦ r = none ∧ s' = s ∨
      ∃ m' right, s' = s.withMap m' ∧ Fit G j₀ n s' ∧ r = some right.id ∧ Cut m m' t at' right := by
  have hinv := h.inv.map m hm
  have hcall : ∀ {r m'}, m.splitPending t.id at' = (r, m') →
      s.job.splitPending t.id at' = (r, { s.job with segments := some m' }) := by
    intro r m' heq
    rw [Job.splitPending, if_neg (by simp [hstate]), Job.onMap_eq (by rw [hstate]; rfl) hm heq]
  unfold splitPending
  refine At.get ?_
  rcases SegmentMap.splitPending_of_pending hinv ht hpend at' with
    heq | ⟨heq, hroom⟩ | ⟨heq, hout⟩ | ⟨pre, post, left, right, hseg, hlt, hsplit, heq⟩
  · rw [hcall heq]
    exact At.setMap (Job.plan_of (m := m) hm) (At.pure (Or.inl ⟨rfl, withMap_self hm⟩))
  · rw [hcall heq]
    refine At.setMap (Job.plan_of (m := m) hm) (At.throw ?_)
    exact (h.room_of hm).resolve_right (by omega)
  · rw [hcall heq]
    exact At.setMap (Job.plan_of (m := m) hm) (At.throw (hin.resolve_right hout))
  · rw [hcall heq]
    have hj := h.inv.perform (.splitPending t.id at')
    rw [Job.perform, hcall heq] at hj
    obtain ⟨-, -, hstart, hstop⟩ := ByteRange.split_eq_ok hsplit
    refine At.setMap (Job.plan_of (m := m) hm) (At.pure (Or.inr ⟨_, ⟨⟨m.nextId⟩, right, .pending⟩, rfl, ?_, rfl, ?_⟩))
    · refine h.remap rfl rfl hj (h.held.cut hm hseg hpend hpend rfl) (h.unchecked m hm) (fun hw ↦ ?_)
        h.width (fun hall ↦ absurd hall (Job.not_allDurable hm ht (by simp [hpend])))
        ((h.room_of hm).imp_right fun hr ↦ by dsimp only; omega)
      obtain ⟨hworkers, hunsynced, -⟩ := h.lane hw
      refine ⟨hworkers, ?_⟩
      rw [hasUnsynced, hm] at hunsynced
      simpa [SegmentMap.hasUnsynced, hseg, hpend] using hunsynced
    · refine ⟨hlt, ?_, rfl, ⟨{ t with range := left }, by simp, rfl, hpend⟩, by simp, rfl, hstart, hstop⟩
      simp only [hseg, List.length_append, List.length_cons]
      omega

/-- Unchecked sums that stay in range. -/
theorem wrap64_of_lt {k : ℕ} (h : k < 2 ^ 64) : wrap64 k = k := Nat.mod_eq_of_lt h

theorem divCeil_mul_lt {a b : ℕ} (hb : 0 < b) : divCeil a b * b < a + b := by
  have := Nat.div_mul_le_self (a + (b - 1)) b
  unfold divCeil
  omega

theorem le_divCeil_mul {a b : ℕ} (hb : 0 < b) : a ≤ divCeil a b * b := by
  have := Nat.div_add_mod (a + (b - 1)) b
  have := Nat.mod_lt (a + (b - 1)) hb
  unfold divCeil
  rw [Nat.mul_comm]
  omega

theorem divCeil_two_le {a b : ℕ} (hb : 2 ≤ b) : 2 * divCeil a b ≤ a + 1 := by
  have hlt := divCeil_mul_lt (a := a) (b := b) (by omega)
  cases hd : divCeil a b with
  | zero => omega
  | succ d =>
    rw [hd, Nat.succ_mul] at hlt
    have := Nat.mul_le_mul_left d hb
    omega

/-- **Run lemma** for the cuts of a fresh plan: every piece but the last is as long as the first. -/
theorem splitFrom_at {total size : ℕ} (hsize : 0 < size) (hfit : total + size < 2 ^ 64) (fuel : ℕ)
    {m : SegmentMap} {t : Segment} {at' : ℕ} (hm : s.job.segments = some m)
    (h : Fit G j₀ (n + (m.maximum - m.segments.length) + 1) s) (hstate : s.job.state = .transferring)
    (ht : t ∈ m.segments) (hpend : t.state = .pending) (hstop : t.range.stop = total)
    (hstart : t.range.start < at') :
    At G s (splitFrom total size fuel t.id at') fun _ s' ↦
      Fit G j₀ n s' ∧ ∃ m', s' = s.withMap m' := by
  induction fuel generalizing s m t at' with
  | zero => exact At.pure ⟨h.mono (by omega), m, (withMap_self hm).symm⟩
  | succ fuel ih =>
    have hdone : At G s (Pure.pure ()) fun _ s' ↦ Fit G j₀ n s' ∧ ∃ m', s' = s.withMap m' :=
      At.pure ⟨h.mono (by omega), m, (withMap_self hm).symm⟩
    rw [splitFrom]
    split
    next hlt =>
      refine At.bind (splitPending_at h hstate hm ht hpend (Or.inr ⟨hstart, by omega⟩)) ?_
      rintro r s' (⟨rfl, rfl⟩ | ⟨m', right, rfl, hfit', rfl, hcut⟩)
      · exact hdone
      · have hone : n + (m.maximum - m.segments.length) =
            n + (m'.maximum - m'.segments.length) + 1 := by
          have := hcut.lt
          rw [hcut.length, hcut.maximum]
          omega
        rw [hone] at hfit'
        rw [wrap64_of_lt (by omega)]
        have hlater : right.range.start < at' + size := by
          rw [hcut.start]
          omega
        have hrest := ih (s := s.withMap m') (m := m') (t := right) rfl hfit'
          hstate hcut.mem hcut.pending (hcut.stop.trans hstop) hlater
        exact hrest.mono fun _ s' ⟨hs', m'', hm''⟩ ↦ ⟨hs', m'', hm''⟩
    · exact hdone

theorem initialSplit_at {m : SegmentMap} (hm : s.job.segments = some m)
    (h : Fit G j₀ (n + m.maximum) s) (hstate : s.job.state = .transferring) :
    At G s (initialSplit c) fun _ s' ↦ Fit G j₀ n s' ∧ ∃ m', s' = s.withMap m' := by
  have hdone : At G s (Pure.pure ()) fun _ s' ↦ Fit G j₀ n s' ∧ ∃ m', s' = s.withMap m' :=
    At.pure ⟨h.mono (Nat.le_add_right _ _), m, (withMap_self hm).symm⟩
  have hinv := h.inv.map m hm
  unfold initialSplit
  refine At.get ?_
  simp only [hm]
  split
  next only honly =>
    split
    next hfresh =>
      split
      next hpieces =>
        generalize hunit : c.config.minSegment = unit at hpieces ⊢
        have hpos : 0 < unit := by
          have := c.config_valid
          simp only [CoordinatorConfig.valid, hunit, decide_eq_true_eq] at this
          omega
        have htwo : 2 ≤ only.range.stop / unit := hpieces.trans (min_le_left _ _)
        have hunit₂ : 2 * unit ≤ only.range.stop := (Nat.le_div_iff_mul_le hpos).1 htwo
        generalize min (only.range.stop / unit) s.connections = pieces at hpieces ⊢
        have hle := only.range.stop_le
        unfold i64Max at hle
        -- each piece is at most half of the whole, rounded up to the unit
        have hpiece := divCeil_two_le (a := only.range.stop) hpieces
        have hpiece_pos : 0 < divCeil only.range.stop pieces := by
          have := le_divCeil_mul (a := only.range.stop) (b := pieces) (by omega)
          by_contra hzero
          rw [Nat.eq_zero_of_not_pos hzero] at this
          omega
        generalize divCeil only.range.stop pieces = piece at hpiece hpiece_pos ⊢
        have hlt := divCeil_mul_lt (a := piece) hpos
        have hge := le_divCeil_mul (a := piece) hpos
        generalize divCeil piece unit * unit = size at hlt hge ⊢
        rw [wrap64_of_lt (by omega)]
        have hlength : m.segments.length = 1 := by rw [honly]; rfl
        have hmax := hinv.maximum_pos
        refine splitFrom_at (by omega) (by omega) _ hm ?_ hstate (by rw [honly]; simp) hfresh.1 rfl
          (by rw [hfresh.2]; omega)
        rwa [hlength, show n + (m.maximum - 1) + 1 = n + m.maximum by omega]
      · exact hdone
    · exact hdone
  · exact hdone

/-! ### Leasing -/

/-- A session that holds a pending segment with this identifier, and is otherwise as before. -/
def Offers (s s' : Session) (id : SegmentId) : Prop :=
  ∃ m', s' = s.withMap m' ∧ ∃ t ∈ m'.segments, t.id = id ∧ t.state = .pending

theorem minSegment_pos (c : Coordinator) : 0 < c.config.minSegment := by
  have := c.config_valid
  simp only [CoordinatorConfig.valid, decide_eq_true_eq] at this
  omega

theorem capLease_at {m : SegmentMap} {t : Segment} (h : Fit G j₀ (n + 1) s)
    (hstate : s.job.state = .transferring) (hm : s.job.segments = some m) (ht : t ∈ m.segments)
    (hpend : t.state = .pending) :
    At G s (capLease c t.id) fun id s' ↦ Fit G j₀ n s' ∧ Offers s s' id := by
  have hinv := h.inv.map m hm
  have hsame : Offers s s t.id := ⟨m, (withMap_self hm).symm, t, ht, rfl, hpend⟩
  unfold capLease
  refine At.get ?_
  simp only [hm, Option.elim_some]
  split
  · exact At.pure ⟨h.mono (Nat.le_succ n), hsame⟩
  next t' hfind =>
    obtain rfl : t' = t := SegmentMap.eq_of_id_eq hinv.ids_nodup (List.mem_of_find?_eq_some hfind) ht
      (by simpa using List.find?_some hfind)
    split
    next hlong =>
      have hlen : t'.range.len = t'.range.stop - t'.range.start := rfl
      have hstop := t'.range.stop_le
      unfold i64Max at hstop
      have hcut : G.excused (.domain .invalidInput) ∨
          t'.range.start < wrap64 (t'.range.start + c.config.leaseCap) ∧
            wrap64 (t'.range.start + c.config.leaseCap) < t'.range.stop := by
        refine G.fits.imp_right fun hfits ↦ ?_
        have hlong' : c.config.leaseCap < t'.range.len := hlong
        have := hfits.2
        rw [wrap64_of_lt (by omega)]
        omega
      refine At.bind (splitPending_at h hstate hm ht hpend hcut) ?_
      rintro r s' (⟨rfl, rfl⟩ | ⟨m', right, rfl, hfit', rfl, hcut⟩)
      · exact At.pure ⟨h.mono (Nat.le_succ n), hsame⟩
      · exact At.pure ⟨hfit', m', rfl, hcut.left⟩
    · exact At.pure ⟨h.mono (Nat.le_succ n), hsame⟩

/-- The middle of a range, rounded up, is past its start. -/
theorem lt_middle {unit : ℕ} (hpos : 0 < unit) (hle : unit ≤ u64Max) (hne : unit ≠ 2 ^ 63)
    {range : ByteRange} (hlong : range.len ≥ wrap64 (2 * unit)) :
    range.start < wrap64 (range.start + wrap64 (divCeil (range.len / 2) unit * unit)) := by
  have hlen : range.len = range.stop - range.start := rfl
  have hlt := range.start_lt
  have hstop := range.stop_le
  unfold i64Max at hstop
  unfold u64Max at hle
  unfold wrap64 at hlong
  have hbelow := divCeil_mul_lt (a := range.len / 2) hpos
  have habove := le_divCeil_mul (a := range.len / 2) hpos
  by_cases hsmall : unit < 2 ^ 63
  · rw [wrap64_of_lt (k := divCeil _ _ * _) (by omega), wrap64_of_lt (by omega)]
    omega
  · -- twice the unit wraps, and half of the range is rounded up to the unit itself
    have hone : divCeil (range.len / 2) unit = 1 := by
      unfold divCeil
      exact Nat.div_eq_of_lt_le (by omega) (by omega)
    rw [hone, Nat.one_mul, wrap64_of_lt (k := unit) (by omega), wrap64_of_lt (by omega)]
    omega

theorem mem_of_pendingSegments {t : Segment} (ht : t ∈ pendingSegments s.job) :
    ∃ m, s.job.segments = some m ∧ t ∈ m.segments ∧ t.state = .pending := by
  unfold pendingSegments at ht
  obtain ⟨hmem, hpend⟩ := List.mem_filter.1 ht
  cases hm : s.job.segments with
  | none =>
    rw [hm] at hmem
    exact absurd hmem List.not_mem_nil
  | some m =>
    rw [hm] at hmem
    exact ⟨m, rfl, hmem, by simpa using hpend⟩

/-- **The next piece to lease**, unless nothing is pending. -/
theorem nextPending_at (h : Fit G j₀ (n + 1) s) (hstate : s.job.state = .transferring) :
    At G s (nextPending c) fun r s' ↦ r = none ∧ s' = s ∧ pendingSegments s.job = [] ∨
      ∃ id, r = some id ∧ Fit G j₀ n s' ∧ Offers s s' id := by
  unfold nextPending
  refine At.get ?_
  dsimp only
  split
  next first largest hfirst hlargest =>
    obtain ⟨m, hm, hmem, hpend⟩ := mem_of_pendingSegments (List.mem_of_head? hfirst)
    have hcap : At G s (some <$> capLease c first.id) fun r s' ↦
        r = none ∧ s' = s ∧ pendingSegments s.job = [] ∨
          ∃ id, r = some id ∧ Fit G j₀ n s' ∧ Offers s s' id :=
      At.map ((capLease_at h hstate hm hmem hpend).mono fun id s' hs' ↦ Or.inr ⟨id, rfl, hs'⟩)
    split
    next hhalve =>
      obtain ⟨m', hm', hlmem, hlpend⟩ := mem_of_pendingSegments (mem_of_maxByKey hlargest)
      have hcut : G.excused (.domain .invalidInput) ∨ largest.range.start <
          wrap64 (largest.range.start +
            wrap64 (divCeil (largest.range.len / 2) c.config.minSegment * c.config.minSegment)) := by
        refine G.fits.imp_right fun hfits ↦ ?_
        exact lt_middle (minSegment_pos c) c.config.minSegment_le hfits.1 hhalve.2.1
      refine At.bind (splitPending_at h hstate hm' hlmem hlpend
        (hcut.imp_right fun hlt ↦ ⟨hlt, hhalve.2.2⟩)) ?_
      rintro r s' (⟨rfl, rfl⟩ | ⟨m'', right, rfl, hfit', rfl, hcut⟩)
      · exact hcap
      · exact At.pure (Or.inr ⟨right.id, rfl, hfit', m'', rfl, right, hcut.mem, rfl, hcut.pending⟩)
    · exact hcap
  next hnone =>
    refine At.pure (Or.inl ⟨rfl, rfl, ?_⟩)
    cases hp : pendingSegments s.job with
    | nil => rfl
    | cons first rest => exact (hnone first _ (by rw [hp]; rfl) (by rw [hp]; rfl)).elim

/-- What spawning leaves: more workers, or nothing that could be handed out. -/
structure Spawned (idle : ℕ) (s s' : Session) : Prop where
  writer : s'.writer = s.writer
  state : s'.job.state = s.job.state
  connections : s'.connections = s.connections
  grows : s.workers.length ≤ s'.workers.length
  idle : s'.workers.length = s.workers.length → idle = 0 ∨ s.job.state ≠ .transferring ∨
    pendingSegments s'.job = []

/-- **Run lemma** for spawning. A worker costs an identifier and an attempt. -/
theorem spawnUpTo_at (idle : ℕ) (h : Fit G j₀ (n + 2 * idle) s) (hwriter : s.writer = true)
    (hidle : s.workers.length + idle ≤ s.connections) :
    At G s (spawnUpTo c idle) fun _ s' ↦ Fit G j₀ n s' ∧ Spawned idle s s' := by
  induction idle generalizing s with
  | zero => exact At.pure ⟨h, rfl, rfl, rfl, le_rfl, fun _ ↦ Or.inl rfl⟩
  | succ idle ih =>
    rw [spawnUpTo]
    refine At.get ?_
    split
    next hstate =>
      refine At.bind (nextPending_at (n := n + 2 * idle + 1) h hstate) ?_
      rintro r s' (⟨rfl, rfl, hnone⟩ | ⟨id, rfl, hfit', m, rfl, t, ht, rfl, hpend⟩)
      · exact At.pure ⟨h.mono (by omega), rfl, rfl, rfl, le_rfl, fun _ ↦ Or.inr (Or.inr hnone)⟩
      refine At.change rfl (At.get ?_)
      have hm : (s.withMap m).job.segments = some m := rfl
      have hcall : ∀ {r m'}, m.lease t.id (s.nextWorker + 1) = (r, m') →
          (s.withMap m).job.leaseSegment t.id (s.nextWorker + 1) =
            (r, { (s.withMap m).job with segments := some m' }) := by
        intro r m' heq
        rw [Job.leaseSegment, if_neg (by simpa [withMap] using hstate),
          Job.onMap_eq (by simp [withMap, hstate, Job.isActive]) hm heq]
      rcases SegmentMap.lease_of_pending (hfit'.inv.map m hm) ht hpend (Nat.succ_ne_zero s.nextWorker)
        with ⟨heq, hroom⟩ | ⟨pre, post, hseg, heq⟩
      · refine At.onJob_error (hcall heq) ?_
        exact (hfit'.room_of hm).resolve_right (by omega)
      · have hj := hfit'.inv.perform (.leaseSegment t.id (s.nextWorker + 1))
        rw [Job.perform, hcall heq] at hj
        refine At.onJob (hcall heq) rfl (At.get ?_)
        rw [if_pos (by exact hwriter)]
        refine At.get (At.call (by simp) fun _ _ ↦ At.change rfl ?_)
        refine (ih (s := { s with
          job := _, workers := s.workers ++ [s.nextWorker + 1], leases := _
          nextWorker := s.nextWorker + 1 }) ?_ hwriter ?_).mono ?_
        · refine hfit'.remap rfl rfl hj (hfit'.held.taken hm hseg hpend) (hfit'.unchecked m hm)
            (fun hw ↦ ?_) ?_
            (fun hall ↦ absurd hall (Job.not_allDurable hm ht (by simp [hpend])))
            ((hfit'.room_of hm).imp_right fun hr ↦ by dsimp only; omega)
          · rw [hwriter] at hw
            cases hw
          · have := h.width
            simp only [List.length_append, List.length_singleton]
            exact ⟨by omega, this.2⟩
        · simp only [List.length_append, List.length_singleton]
          omega
        · rintro _ s' ⟨hs', hsp⟩
          have hgrows := hsp.grows
          simp only [List.length_append, List.length_singleton] at hgrows
          exact ⟨hs', hsp.writer, hsp.state, hsp.connections, by omega, fun heq ↦ by omega⟩
    next hstate =>
      exact At.pure ⟨h.mono (by omega), rfl, rfl, rfl, le_rfl, fun _ ↦ Or.inr (Or.inl hstate)⟩

theorem spawnWorkers_at (h : Fit G j₀ (n + 32) s) (hwriter : s.writer = true) :
    At G s (spawnWorkers c) fun _ s' ↦ Fit G j₀ n s' ∧
      Spawned (s.connections - s.workers.length) s s' := by
  have hwidth := h.width
  exact At.get (spawnUpTo_at _ (h.mono (by omega)) hwriter (by omega))

/-! ### Checkpoints -/

/-- What a checkpoint leaves: nothing written and uncommitted, or a storage failure. -/
structure Checkpointed (s s' : Session) : Prop where
  workers : s'.workers = s.workers
  writer : s'.writer = s.writer
  connections : s'.connections = s.connections
  planned : s.job.segments.isSome = true → s'.job.segments.isSome = true
  state : s'.job.state = s.job.state ∨ Halted s s'
  done : hasUnsynced s'.job = false ∨ s'.storageFailed = true

theorem Checkpointed.active {s' : Session} (h : Checkpointed s s') (hactive : Active s) : Active s' := by
  rcases h.state with hs | hs
  · rwa [Active, hs]
  · exact hs.halting.active

/-- The map while a checkpoint is prepared. -/
def prepared (m : SegmentMap) (synced : Bool) : SegmentMap :=
  { m with
    nextCheckpoint := m.nextCheckpoint + 1
    checkpoint := some ⟨m.nextCheckpoint, m.selected.map (·.id), m.selected.map Segment.selection,
      synced⟩ }

/-- A checkpoint that is given up leaves only its number used. -/
theorem abandon_at {m : SegmentMap} {synced : Bool} (h : Fit G j₀ (n + 1) s) (hactive : Active s)
    (hm : s.job.segments = some m) (hj : (s.withMap (prepared m synced)).job.Inv)
    (hwriter : s.writer = true) :
    At G (s.withMap (prepared m synced)) abandon fun _ s' ↦ Fit G j₀ n s' ∧ Checkpointed s s' := by
  have heq : Job.abandonCheckpoint (s.withMap (prepared m synced)).job =
      (.ok (), { s.job with segments := some (prepared m synced).discardCheckpoint }) :=
    Job.onMap_eq hactive rfl rfl
  have hj' := hj.perform .abandonCheckpoint
  rw [Job.perform, heq] at hj'
  unfold abandon
  refine At.onJob heq rfl ?_
  have hfit : Fit G j₀ n (s.withMap (prepared m synced).discardCheckpoint) := by
    refine h.remap rfl rfl hj' (h.held.congr hm rfl rfl rfl fun _ _ ↦ Iff.rfl) rfl (fun hw ↦ ?_) h.width
      (fun hall ↦ by rwa [Job.allDurable, hm] at hall) ((h.room_of hm).imp_right fun hr ↦ ?_)
    · rw [withMap, hwriter] at hw
      cases hw
    · simp only [prepared, SegmentMap.discardCheckpoint]
      omega
  refine (onStorageFailure_at hfit (Active.running hactive)).mono ?_
  rintro _ s' ⟨hfit', hhalt, hbeside, hfailed⟩
  exact ⟨hfit', hbeside.workers, hbeside.writer, hbeside.connections,
    fun _ ↦ by rw [hbeside.segments]; rfl, Or.inr hhalt, Or.inr hfailed⟩

/-- Hashing either succeeds throughout and changes nothing, or gives the checkpoint up. -/
theorem hashAll_at {ψ : Session → Prop} (habandon : At G s abandon fun _ ↦ ψ)
    (ranges : List ByteRange) :
    At G s (hashAll ranges) fun r s' ↦ r = none ∧ ψ s' ∨ (∃ extents, r = some extents) ∧ s' = s := by
  induction ranges with
  | nil => exact At.pure (Or.inr ⟨⟨[], rfl⟩, rfl⟩)
  | cons range ranges ih =>
    rw [hashAll]
    refine At.call (by simp) fun answer _ ↦ ?_
    cases answer with
    | error _ => exact At.bind habandon fun _ s' hs' ↦ At.pure (Or.inl ⟨rfl, hs'⟩)
    | ok digest =>
      refine At.bind ih ?_
      rintro r s' (⟨rfl, hs'⟩ | ⟨⟨extents, rfl⟩, rfl⟩)
      · exact At.pure (Or.inl ⟨rfl, hs'⟩)
      · exact At.pure (Or.inr ⟨⟨_, rfl⟩, rfl⟩)

/-- The extents are committed, or the repository's refusal ends the session. -/
theorem commitExtents_at {m : SegmentMap} (hactive : Active s) (hm : s.job.segments = some m)
    (batch : CommitBatch) (extents : List DurableExtent) (retries : ℕ) :
    At G s (commitExtents batch extents retries) fun _ s' ↦ s' = s := by
  have hrefuse : ∀ error, Answered G s.job (.commitExtents batch.job batch.generation extents)
      (Except.error error : Except CommitError Unit) →
      At G s (refuse error) fun _ s' ↦ s' = s := by
    rintro error ⟨w, w', -, hw⟩
    exact At.onJob (Job.onMap_eq hactive hm rfl) (Job.plan_of (m := m) hm) (At.throw (G.extents_error hw))
  induction retries with
  | zero =>
    rw [commitExtents]
    refine At.call (by simp) fun answer hanswer ↦ ?_
    cases answer with
    | ok _ => exact At.pure rfl
    | error error => exact hrefuse error hanswer
  | succ retries ih =>
    rw [commitExtents]
    refine At.call (by simp) fun answer hanswer ↦ ?_
    cases answer with
    | ok _ => exact At.pure rfl
    | error error =>
      cases error with
      | unavailable => exact ih
      | _ => exact hrefuse _ hanswer

/-- **A checkpoint** commits everything written, or storage has failed. -/
theorem checkpoint_at (h : Fit G j₀ (n + 1) s) (hactive : Active s) :
    At G s checkpoint fun _ s' ↦ Fit G j₀ n s' ∧ Checkpointed s s' := by
  unfold checkpoint
  refine At.get ?_
  split
  next hdue =>
    have hwriter : s.writer = true := by
      by_contra hw
      have := (h.lane (by simpa using hw)).2.1
      rw [hdue.1] at this
      cases this
    obtain ⟨m, hm⟩ : ∃ m, s.job.segments = some m := by
      have := hdue.1
      unfold hasUnsynced at this
      cases hs : s.job.segments with
      | none => rw [hs] at this; cases this
      | some m => exact ⟨m, rfl⟩
    have hunsynced : m.hasUnsynced = true := by
      have := hdue.1
      rwa [hasUnsynced, hm] at this
    dsimp only
    rw [if_neg (by simp [hwriter])]
    rcases SegmentMap.prepareSync_of_unsynced (h.unchecked m hm) hunsynced with
      ⟨heq, hroom⟩ | heq
    · refine At.onJob_error (Job.onMap_eq hactive hm heq) ?_
      exact (h.room_of hm).resolve_right (by omega)
    have hprepare : s.job.prepareSync = (.ok m.ticket, { s.job with segments := some (prepared m false) }) :=
      Job.onMap_eq hactive hm heq
    have hj := h.inv.perform .prepareSync
    rw [Job.perform, hprepare] at hj
    refine At.onJob hprepare (Job.plan_of (m := m) hm) (At.call (by simp) fun answer _ ↦ ?_)
    cases answer with
    | error _ => exact abandon_at h hactive hm hj hwriter
    | ok _ =>
      have hsync : Job.acknowledgeSync { s.job with segments := some (prepared m false) } m.ticket =
          (.ok m.ticket.batch, { s.job with segments := some (prepared m true) }) :=
        Job.onMap_eq hactive rfl (SegmentMap.acknowledgeSync_of_ticket rfl rfl rfl)
      have hj' := hj.perform (.acknowledgeSync m.ticket)
      rw [Job.perform, hsync] at hj'
      refine At.onJob hsync rfl (At.bind (hashAll_at (abandon_at h hactive hm hj' hwriter) _) ?_)
      rintro r s' (⟨rfl, hs'⟩ | ⟨⟨extents, rfl⟩, rfl⟩)
      · exact At.pure hs'
      refine At.bind (commitExtents_at (s := s.withMap (prepared m true)) hactive rfl _ _ _) ?_
      rintro _ s' rfl
      have hcommit : Job.acknowledgeCommit { s.job with segments := some (prepared m true) }
          m.ticket.batch = (.ok (), { s.job with
            segments := some { prepared m true with
              segments := m.segments.map fun s ↦ if s.state.isWritten then s.setDurable else s
              checkpoint := none } }) := by
        refine Job.onMap_eq hactive rfl ?_
        rw [SegmentMap.acknowledgeCommit_of_synced (hj'.map _ rfl) rfl rfl rfl rfl rfl rfl,
          ← SegmentMap.map_commitOne_selected (h.inv.map m hm).ids_nodup]
        rfl
      have hj'' := hj'.perform (.acknowledgeCommit m.ticket.batch)
      rw [Job.perform, hcommit] at hj''
      refine At.onJob hcommit rfl (At.changed rfl ⟨?_, rfl, rfl, rfl, fun _ ↦ rfl, Or.inl rfl, Or.inl ?_⟩)
      · refine h.remap rfl rfl hj'' (h.held.mapped hm rfl rfl rfl rfl fun _ ↦ rfl) rfl (fun hw ↦ ?_) h.width
          (fun hall ↦ ?_) ((h.room_of hm).imp_right fun hr ↦ ?_)
        · rw [show s.writer = false from hw] at hwriter
          cases hwriter
        · rw [Job.allDurable, hm, Option.any_some, SegmentMap.allDurable, List.all_eq_true] at hall
          refine List.all_eq_true.2 fun t ht ↦ ?_
          obtain ⟨u, hu, rfl⟩ := List.mem_map.1 ht
          have hdurable : u.state = .durable := by simpa using hall u hu
          simp [hdurable]
        · simp only [prepared]
          omega
      · simp only [hasUnsynced, Option.any_some, SegmentMap.hasUnsynced, List.any_map,
          List.any_eq_false, Function.comp_apply]
        intro t _
        split
        · simp [Segment.setDurable]
        next hw => exact hw
  next hdue =>
    refine At.pure ⟨h.mono (Nat.le_succ n), rfl, rfl, rfl, id, Or.inl rfl, ?_⟩
    simpa [imp_iff_not_or] using hdue

/-! ### The transfer loop -/

/-- With no worker, nothing pending and nothing written, every byte is durable. -/
theorem Fit.allDurable (h : Fit G j₀ n s) (hworkers : s.workers = [])
    (hstate : s.job.state = .transferring) (hpending : pendingSegments s.job = [])
    (hunsynced : hasUnsynced s.job = false) : s.job.allDurable = true := by
  obtain ⟨m, hm⟩ := Option.isSome_iff_exists.1 (h.inv.planned (Or.inl hstate))
  refine Job.allDurable_iff.2 ⟨m, hm, List.all_eq_true.2 fun t ht ↦ ?_⟩
  have hheld := h.held
  rw [hworkers] at hheld
  have hquiet := hheld.quiet hm ht
  have hnot : t.state ≠ .pending := by
    intro hp
    have hmem : t ∈ pendingSegments s.job := by
      rw [pendingSegments, hm]
      exact List.mem_filter.2 ⟨ht, by simpa using hp⟩
    rw [hpending] at hmem
    exact absurd hmem List.not_mem_nil
  have hwritten : t.state.isWritten = false := by
    rw [hasUnsynced, hm] at hunsynced
    simpa using List.any_eq_false.1 hunsynced t ht
  revert hquiet hnot hwritten
  cases t.state <;> simp

/-- The wait at the end of a turn, where the next turn is known. -/
theorem await_at {fuel : ℕ} {ψ : Unit → Session → Prop} (h : Fit G j₀ n s) (hwriter : s.writer = true)
    (hactive : Active s)
    (hnext : ∀ t, Fit G j₀ n t → t.writer = true → Active t → At G t (transfer c fuel) ψ) :
    At G s (do
      let s ← get
      match ← call (.awaitWorker s.workers s.controlOpen) with
      | .worker done =>
        onWorker c done
        transfer c fuel
      | .control _ message =>
        onControl message
        transfer c fuel) ψ := by
  refine At.get (At.call (by simp) fun event hevent ↦ ?_)
  cases event with
  | worker done =>
    refine At.bind (onWorker_at done h hactive) ?_
    rintro _ t ⟨ht, htactive, hjoined⟩
    exact hnext t ht (hjoined.writer.trans hwriter) htactive
  | control isOpen message =>
    have hcalm : G.calm → message = none := fun hc ↦ by
      obtain ⟨w, w', -, hw⟩ := hevent
      exact G.quiet hc hw
    refine At.bind (onControl_at message h (Active.running hactive) hcalm) ?_
    rintro _ t ⟨ht, hbeside, hstate⟩
    refine hnext t ht (hbeside.writer.trans hwriter) ?_
    rcases hstate with hs | ⟨-, hs⟩
    · exact hs.active
    · rwa [Active, hs]

/-- **Run lemma** for the transfer loop: it is left only for the drain. -/
theorem transfer_at (fuel : ℕ) (h : Fit G j₀ (n + 33 * fuel) s) (hwriter : s.writer = true)
    (hactive : Active s) :
    At G s (transfer c fuel) fun _ s' ↦ Fit G j₀ n s' ∧ Halting s' := by
  induction fuel generalizing s with
  | zero => exact At.call (by simp) fun never _ ↦ by cases never
  | succ fuel ih =>
    have hwait : ∀ u, Fit G j₀ (n + 33 * fuel) u → u.writer = true → Active u → _ :=
      fun u hu huw hua ↦ await_at (ψ := fun _ s' ↦ Fit G j₀ n s' ∧ Halting s') hu huw hua fun _ ↦ ih
    rw [transfer]
    refine At.bind (spawnWorkers_at (n := n + 33 * fuel + 1) h hwriter) ?_
    rintro _ t ⟨hfit, hsp⟩
    have hactive' : Active t := by rwa [Active, hsp.state]
    have hwriter' : t.writer = true := hsp.writer.trans hwriter
    refine At.get ?_
    split
    next hempty =>
      have hnone : t.workers = [] := List.isEmpty_iff.1 hempty
      split
      next htransfer =>
        split
        next hunsynced =>
          refine At.bind (checkpoint_at hfit hactive') ?_
          rintro _ u ⟨hfit', hcheck⟩
          exact ih hfit' (hcheck.writer.trans hwriter') (hcheck.active hactive')
        next hunsynced =>
          split
          next hdurable =>
            have hexec : Job.execute t.job .allSegmentsDurable = .ok (true,
                { t.job with stop := some .verifying, state := .stopping }) := by
              simp only [Job.execute, htransfer, hdurable, not_true_eq_false, ↓reduceIte,
                Job.beginStop, Job.moved]
            refine At.step hfit.kept hexec (by rintro ⟨⟩) fun _ version hkept ↦ ih ?_ hwriter' rfl
            have hinv := (Job.execute_step hexec).inv hfit.inv
            refine (hfit.mono (Nat.le_succ _)).moved (hinv.setVersion version) hkept rfl rfl rfl rfl rfl
              (by rintro _ ⟨⟩) (by rintro ⟨⟩) (fun _ ↦ ⟨hwriter', ?_, hdurable⟩) fun _ ↦ ⟨(by rintro ⟨⟩), (by rintro ⟨⟩), (by rintro ⟨⟩), (by rintro ⟨⟩)⟩
            by_contra hreplace
            have := hfit.inv.replace (by simpa using hreplace)
            rw [htransfer] at this
            cases this
          next hdurable =>
            -- a free connection and nothing to hand out: every byte is durable
            exfalso
            have hlength : s.workers.length = 0 := by
              have := hsp.grows
              rw [hnone] at this
              exact Nat.le_zero.1 this
            have hwidth := h.width
            rcases hsp.idle (by rw [hnone, hlength]; rfl) with hidle | hne | hpending
            · omega
            · exact hne (hsp.state.symm.trans htransfer)
            · exact hdurable (hfit.allDurable hnone htransfer hpending (by simpa using hunsynced))
      next htransfer => exact At.pure ⟨hfit.mono (by omega), hactive'.halting htransfer⟩
    next hempty =>
      split
      next hdue =>
        refine At.bind (checkpoint_at hfit hactive') ?_
        rintro _ u ⟨hfit', hcheck⟩
        exact hwait u hfit' (hcheck.writer.trans hwriter') (hcheck.active hactive')
      next hdue => exact hwait t (hfit.mono (Nat.le_succ _)) hwriter' hactive'

end Session

end Fhd
