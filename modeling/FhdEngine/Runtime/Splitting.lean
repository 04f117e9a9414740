import FhdEngine.Runtime.Cuts
import FhdEngine.Runtime.SchedulerInvariant

/-!
# Splitting over the life of a plan

`Works` is any life of a plan under one configuration: sessions that begin by cutting it, leases, workers
that end one way or the other, checkpoints, commits, and restarts from what was committed. The cuts and the
choice of the next lease are the routines of the session, and everything else is the segment map.

`Trim` is what holds throughout while the sizes of the configuration fit: every piece begins on the grid,
and so does what is stored. From it come the three results about splitting: it stays aligned and always makes
progress (`splitting_sound`), its sums never overflow (`splits_fit_iff`), and how long a lease may get
(`lease_bounded_iff`).
-/

namespace Fhd

open Process (Asks Ends Environment Ensures)

/-! ### The life of a plan -/

/-- One lease that was taken: the session before, the lease, and the map after. -/
structure Taken where
  session : Session
  lease : Lease
  map : SegmentMap

/-- A plan at work. -/
structure Work where
  map : SegmentMap
  /-- The connections of the session. -/
  connections : ℕ
  /-- Whether the session has cut the plan. -/
  begun : Bool
  /-- What the running workers hold. -/
  leases : List Lease
  /-- The ranges that were committed. -/
  stored : List ByteRange
  taken : List Taken

/-- The session that works on a plan. -/
structure Session.Sees (s : Session) (w : Work) : Prop where
  state : s.job.state = .transferring
  segments : s.job.segments = some w.map
  workers : s.workers.length = w.leases.length
  connections : s.connections = w.connections

/-- A session on a plan, of which nothing else matters. -/
def Work.session (w : Work) : Session where
  source := ⟨1, Nat.one_ne_zero⟩
  origin := ⟨.replicate 16 0⟩
  job :=
    { Job.new ⟨1, Nat.one_ne_zero⟩
        ⟨⟨1, Nat.one_ne_zero⟩, ⟨1, Nat.one_ne_zero⟩, none, .normal, i64Max, by decide, le_rfl⟩ with
      state := .transferring
      segments := some w.map }
  controlOpen := true
  writer := true
  workers := w.leases.map Lease.worker
  leases := w.leases.map fun l ↦ (l.worker, l)
  stopWorkers := false
  unsynced := 0
  storageFailed := false
  connections := w.connections
  nextWorker := 0

theorem Work.session_sees (w : Work) : w.session.Sees w := ⟨rfl, rfl, List.length_map .., rfl⟩

/-- The calls of a checkpoint, and of a drain that gives it up. -/
def SegmentMap.Op.Settles : SegmentMap.Op → Prop
  | .prepareSync | .acknowledgeSync _ | .acknowledgeCommit _ | .discardCheckpoint | .discardUnsynced => True
  | _ => False

/-- The connections a session may have. -/
def Coordinator.Grants (c : Coordinator) (connections : ℕ) : Prop :=
  1 ≤ connections ∧ connections ≤ c.config.connections

/-- **Any life of a plan** under one configuration. -/
inductive Works (c : Coordinator) (total : ℕ) : Work → Prop
  /-- The first probe made the plan; without ranges it is one segment for one connection. -/
  | fresh {job : JobId} {generation : Generation} {maximum connections : ℕ} {m : SegmentMap}
      (hnew : SegmentMap.new job generation total maximum = .ok m) (hgrant : c.Grants connections)
      (hmax : maximum = c.config.maxSegments ∨ maximum = 1 ∧ connections = 1) :
      Works c total ⟨m, connections, false, [], [], []⟩
  /-- A session begins. -/
  | begin {w : Work} {s s' : Session} {m : SegmentMap} (hw : Works c total w) (hbegun : w.begun = false)
      (hsees : s.Sees w) (hsplit : Ends (Session.initialSplit c) s (.ok ()) s')
      (hm : s'.job.segments = some m) : Works c total { w with map := m, begun := true }
  /-- A lease is taken for an idle connection. -/
  | lease {w : Work} {s s' : Session} {id : SegmentId} {m m' : SegmentMap} {worker : ℕ} {l : Lease}
      (hw : Works c total w) (hbegun : w.begun = true) (hsees : s.Sees w)
      (hidle : s.workers.length < s.connections) (hnext : Ends (Session.nextPending c) s (.ok (some id)) s')
      (hm : s'.job.segments = some m) (hlease : m.lease id worker = (.ok l, m')) :
      Works c total { w with map := m', leases := l :: w.leases, taken := ⟨s, l, m'⟩ :: w.taken }
  /-- A worker ends. -/
  | settle {w : Work} {l : Lease} {m : SegmentMap} (hw : Works c total w) (hl : l ∈ w.leases)
      (hsettle : w.map.markWritten l = (.ok (), m) ∨ w.map.release l = (.ok (), m)) :
      Works c total { w with map := m, leases := w.leases.erase l }
  | checkpoint {w : Work} {op : SegmentMap.Op} (hw : Works c total w) (hop : op.Settles) :
      Works c total { w with map := (w.map.perform op).2 }
  /-- The repository has taken the extents of a checkpoint. -/
  | commit {w : Work} {checkpoint : Checkpoint} (hw : Works c total w)
      (hcheckpoint : w.map.checkpoint = some checkpoint) (hsynced : checkpoint.synced = true) :
      Works c total { w with stored := w.stored ++ checkpoint.selection.map (·.2.1) }
  /-- The next session goes on with the same map. -/
  | resume {w : Work} {connections : ℕ} (hw : Works c total w) (hleases : w.leases = [])
      (hgrant : c.Grants connections) :
      Works c total { w with connections, begun := false }
  /-- The engine starts again, with what was committed. -/
  | restart {w : Work} {durable : List ByteRange} {connections : ℕ} {m : SegmentMap} (hw : Works c total w)
      (hdurable : ∀ r ∈ durable, r ∈ w.stored) (hgrant : c.Grants connections)
      (hrestore : SegmentMap.restore w.map.job w.map.generation total w.map.maximum durable = .ok m) :
      Works c total { w with map := m, connections, begun := false, leases := [] }

/-! ### What holds throughout -/

section Trim

variable {c : Coordinator} {total p : ℕ} {w : Work} {m m' : SegmentMap} {s : Session}

/-- A multiple of the split granularity, or the end of the plan. -/
def OnGrid (c : Coordinator) (total p : ℕ) : Prop := c.config.minSegment ∣ p ∨ p = total

/-- The pieces begin and end on the grid. -/
def Gridded (c : Coordinator) (total : ℕ) (m : SegmentMap) : Prop :=
  ∀ t ∈ m.segments, OnGrid c total t.range.start ∧ OnGrid c total t.range.stop

/-- **What holds throughout the life of a plan.** -/
structure Trim (c : Coordinator) (total : ℕ) (w : Work) : Prop where
  inv : w.map.Inv
  total_eq : w.map.total = total
  numbered : w.map.Numbered
  gridded : Gridded c total w.map
  stored : ∀ r ∈ w.stored, OnGrid c total r.start ∧ OnGrid c total r.stop
  flight : ∀ t ∈ w.map.segments, t.state.isInFlight = true → ∃ l ∈ w.leases, SegmentMap.Holds t l
  grants : c.Grants w.connections

/-- A piece begins before the end, so it begins at a multiple. -/
theorem Trim.dvd_start (h : Trim c total w) {t : Segment} (ht : t ∈ w.map.segments) :
    c.config.minSegment ∣ t.range.start := by
  refine ((h.gridded t ht).1).resolve_right fun heq ↦ ?_
  have hbounds := h.inv.tiles.bounds ht
  have := hbounds.2.1
  have := hbounds.2.2
  rw [h.total_eq] at this
  omega

/-- A map with the same pieces, of which none is newly in flight. -/
structure Alike (m m' : SegmentMap) : Prop where
  total : m'.total = m.total
  nextId : m'.nextId = m.nextId
  length : m'.segments.length = m.segments.length
  mem : ∀ t' ∈ m'.segments, ∃ t ∈ m.segments, t'.range = t.range ∧ (t'.state.isInFlight = true → t' = t)

theorem Alike.refl (m : SegmentMap) : Alike m m := ⟨rfl, rfl, rfl, fun t ht ↦ ⟨t, ht, rfl, fun _ ↦ rfl⟩⟩

theorem Alike.gridded (h : Alike m m') (hg : Gridded c total m) : Gridded c total m' := by
  intro t' ht'
  obtain ⟨t, ht, hrange, -⟩ := h.mem t' ht'
  rw [hrange]
  exact hg t ht

theorem Alike.numbered (h : Alike m m') (hn : m.Numbered) : m'.Numbered := by
  unfold SegmentMap.Numbered at hn ⊢
  rw [h.nextId, h.length]
  exact hn

/-- Some segments get another state, and none is put in flight. -/
theorem Alike.map {f : Segment → Segment} (hseg : m'.segments = m.segments.map f) (htotal : m'.total = m.total)
    (hid : m'.nextId = m.nextId) (hrange : ∀ t, (f t).range = t.range)
    (hflight : ∀ t, (f t).state.isInFlight = true → f t = t) : Alike m m' := by
  refine ⟨htotal, hid, by rw [hseg, List.length_map], fun t' ht' ↦ ?_⟩
  rw [hseg] at ht'
  obtain ⟨t, ht, rfl⟩ := List.mem_map.1 ht'
  exact ⟨t, ht, hrange t, hflight t⟩

/-- **A checkpoint keeps the pieces.** -/
theorem alike_of_settles {op : SegmentMap.Op} (hop : op.Settles) (hinv : m.Inv) :
    Alike m (m.perform op).2 := by
  cases op with
  | prepareSync =>
    rcases m.prepareSync_cases with ⟨e, he⟩ | ⟨-, -, heq⟩
    · rw [SegmentMap.perform, SegmentMap.reply, he]
      exact .refl m
    · rw [SegmentMap.perform, SegmentMap.reply, heq]
      exact ⟨rfl, rfl, rfl, (Alike.refl m).mem⟩
  | acknowledgeSync ticket =>
    rcases m.acknowledgeSync_cases ticket with he | ⟨_, -, -, -, -, -, -, heq⟩
    · rw [SegmentMap.perform, SegmentMap.reply, he]
      exact .refl m
    · rw [SegmentMap.perform, SegmentMap.reply, heq]
      exact ⟨rfl, rfl, rfl, (Alike.refl m).mem⟩
  | acknowledgeCommit batch =>
    rcases m.acknowledgeCommit_cases batch with ⟨e, he⟩ | ⟨ch, m', -, -, -, -, -, -, heq, hm'⟩
    · rw [SegmentMap.perform, SegmentMap.reply, he]
      exact .refl m
    · rw [SegmentMap.perform, SegmentMap.reply, heq, hm' hinv.ids_nodup]
      refine Alike.map (f := SegmentMap.commitOne ch.ids) rfl rfl rfl (fun t ↦ ?_) fun t ↦ ?_
      · unfold SegmentMap.commitOne
        split <;> rfl
      · unfold SegmentMap.commitOne
        split
        · rintro ⟨⟩
        · exact fun _ ↦ rfl
  | discardCheckpoint => exact ⟨rfl, rfl, rfl, (Alike.refl m).mem⟩
  | discardUnsynced =>
    rcases m.discardUnsynced_cases with he | ⟨-, heq⟩
    · rw [SegmentMap.perform, SegmentMap.reply, he]
      exact .refl m
    · rw [SegmentMap.perform, SegmentMap.reply, heq]
      refine Alike.map (f := fun t ↦ if t.state.isWritten then { t with state := .pending } else t) rfl rfl rfl
        (fun t ↦ ?_) fun t ↦ ?_
      · split <;> rfl
      · split
        · rintro ⟨⟩
        · exact fun _ ↦ rfl
  | _ => exact hop.elim

/-- A worker that ends puts its piece in another state. -/
theorem settle_eq {l : Lease} (hsettle : m.markWritten l = (.ok (), m') ∨ m.release l = (.ok (), m')) :
    ∃ pre t post state, m.segments = pre ++ t :: post ∧ SegmentMap.Holds t l ∧
      state.isInFlight = false ∧ m' = { m with segments := pre ++ { t with state := state } :: post } := by
  rcases hsettle with heq | heq
  · rcases m.markWritten_cases l with he | ⟨pre, t, post, hseg, hholds, -, -, hok⟩
    · exact nomatch congrArg Prod.fst (heq.symm.trans he)
    · exact ⟨pre, t, post, _, hseg, hholds, rfl, congrArg Prod.snd (heq.symm.trans hok)⟩
  · rcases m.release_cases l with he | ⟨pre, t, post, hseg, hholds, -, -, hok⟩
    · exact nomatch congrArg Prod.fst (heq.symm.trans he)
    · exact ⟨pre, t, post, _, hseg, hholds, rfl, congrArg Prod.snd (heq.symm.trans hok)⟩

theorem inv_of_settle {l : Lease} (hsettle : m.markWritten l = (.ok (), m') ∨ m.release l = (.ok (), m'))
    (hinv : m.Inv) : m'.Inv := by
  rcases hsettle with heq | heq
  · have := (SegmentMap.keeps_markWritten m l).inv hinv
    rwa [heq] at this
  · have := (SegmentMap.keeps_release m l).inv hinv
    rwa [heq] at this

/-- It keeps the pieces. -/
theorem alike_of_settle {l : Lease}
    (hsettle : m.markWritten l = (.ok (), m') ∨ m.release l = (.ok (), m')) : Alike m m' := by
  obtain ⟨pre, t, post, state, hseg, -, hquiet, rfl⟩ := settle_eq hsettle
  refine ⟨rfl, rfl, by rw [hseg]; simp, fun u hu ↦ ?_⟩
  rw [hseg]
  rcases List.mem_append.1 hu with hu | hu
  · exact ⟨u, List.mem_append_left _ hu, rfl, fun _ ↦ rfl⟩
  · rcases List.mem_cons.1 hu with rfl | hu
    · exact ⟨t, by simp, rfl, fun hin ↦ absurd (hquiet.symm.trans hin) nofun⟩
    · exact ⟨u, List.mem_append_right _ (List.mem_cons_of_mem _ hu), rfl, fun _ ↦ rfl⟩

/-- **A worker that ends** leaves the pieces, and what others hold. -/
theorem Trim.settle (h : Trim c total w) {l : Lease} (hl : l ∈ w.leases)
    (hsettle : w.map.markWritten l = (.ok (), m) ∨ w.map.release l = (.ok (), m)) :
    Trim c total { w with map := m, leases := w.leases.erase l } := by
  have hinv := inv_of_settle hsettle h.inv
  have halike := alike_of_settle hsettle
  obtain ⟨pre, t, post, state, hseg, hholds, hquiet, hm⟩ := settle_eq hsettle
  have hmem : t ∈ w.map.segments := by rw [hseg]; simp
  refine ⟨hinv, halike.total.trans h.total_eq, halike.numbered h.numbered, halike.gridded h.gridded, h.stored,
    fun u hu hin ↦ ?_, h.grants⟩
  obtain ⟨v, hv, -, hsame⟩ := halike.mem u hu
  obtain rfl := hsame hin
  obtain ⟨l', hl', hholds'⟩ := h.flight u hv hin
  refine ⟨l', (List.mem_erase_of_ne ?_).2 hl', hholds'⟩
  -- the segment that was held is no longer in flight
  rintro rfl
  obtain rfl := SegmentMap.holds_unique h.inv hv hmem hholds' hholds
  have hids := hinv.ids_nodup
  have hsame := SegmentMap.eq_of_id_eq hids hu (t := { u with state := state }) (by rw [hm]; simp) rfl
  rw [hsame] at hin
  exact absurd (hquiet.symm.trans hin) nofun

/-- **Cuts on the grid** keep everything else. -/
theorem Trim.cuts (h : Trim c total w) (hcuts : w.map.Cuts c.config.minSegment m) (begun : Bool) :
    Trim c total { w with map := m, begun } := by
  obtain ⟨hinv, htotal, -, hnumbered, hmem⟩ := hcuts.kept h.inv
  refine ⟨hinv, htotal.trans h.total_eq, hnumbered h.numbered, ?_, h.stored, fun t ht hin ↦ ?_, h.grants⟩
  · clear hinv htotal hnumbered hmem
    induction hcuts with
    | refl => exact h.gridded
    | @cut m₁ m₂ id right at' _ hgrid hcut ih =>
      rcases m₁.splitPending_cases id at' with ⟨e, he⟩ | ⟨pre, t, post, left, right, hseg, -, -, -, hsplit, heq⟩
      · exact nomatch congrArg Prod.fst (hcut.symm.trans he)
      · obtain rfl := congrArg Prod.snd (hcut.symm.trans heq)
        obtain ⟨hl₁, hl₂, hr₁, hr₂⟩ := ByteRange.split_eq_ok hsplit
        have ht := ih t (by rw [hseg]; simp)
        have hat : OnGrid c total at' := Or.inl hgrid
        intro u hu
        rcases List.mem_append.1 hu with hu | hu
        · exact ih u (by rw [hseg]; exact List.mem_append_left _ hu)
        · rcases List.mem_cons.1 hu with rfl | hu
          · exact ⟨hl₁ ▸ ht.1, hl₂ ▸ hat⟩
          · rcases List.mem_cons.1 hu with rfl | hu
            · exact ⟨hr₁ ▸ hat, hr₂ ▸ ht.2⟩
            · exact ih u (by rw [hseg]; exact List.mem_append_right _ (List.mem_cons_of_mem _ hu))
  · rcases hmem t ht with ht | hpend
    · exact h.flight t ht hin
    · rw [hpend] at hin
      cases hin

/-! ### What `next_pending` does to it -/

/-- **The middle of a piece** is computed without overflow. -/
theorem Trim.middle_fits (h : Trim c total w) {t : Segment} (ht : t ∈ w.map.segments) :
    roundUp (t.range.len / 2) c.config.minSegment < 2 ^ 64 ∧
      t.range.start + roundUp (t.range.len / 2) c.config.minSegment < 2 ^ 64 := by
  have hpos := Session.minSegment_pos c
  have hle := c.config.minSegment_le
  have hlt := roundUp_lt (n := t.range.len / 2) hpos
  have hlen : t.range.len = t.range.stop - t.range.start := rfl
  have hstart := t.range.start_lt
  have hstop := t.range.stop_le
  unfold i64Max at hstop
  unfold u64Max at hle
  by_cases hsmall : c.config.minSegment < 2 ^ 63
  · omega
  · -- a granularity that large leaves one piece, which begins at zero
    have hzero : t.range.start = 0 := Nat.eq_zero_of_dvd_of_lt (h.dvd_start ht) (by omega)
    have := roundUp_le_unit (n := t.range.len / 2) hpos (by omega)
    omega

theorem Trim.middle_eq (h : Trim c total w) {t : Segment} (ht : t ∈ w.map.segments) :
    Session.middle c t.range = t.range.start + roundUp (t.range.len / 2) c.config.minSegment := by
  obtain ⟨hround, hsum⟩ := h.middle_fits ht
  rw [Session.middle, Session.wrap64_of_lt hround, Session.wrap64_of_lt hsum]

theorem capAt_eq (hfit : c.config.SplitsFit) {t : Segment} (hlong : c.config.leaseCap < t.range.len) :
    Session.capAt c t.range =
      t.range.start + roundUp (max c.config.checkpointBytes c.config.minSegment) c.config.minSegment := by
  have hlen : t.range.len = t.range.stop - t.range.start := rfl
  have hstop := t.range.stop_le
  unfold i64Max at hstop
  rw [Session.capAt, Session.wrap64_of_lt (by omega), CoordinatorConfig.leaseCap_eq hfit]

/-- Where there is something to halve, the granularity is small. -/
theorem minSegment_lt_of_halves (hfit : c.config.SplitsFit) (hgrants : c.Grants s.connections) {t : Segment}
    (ht : t ∈ Session.pendingSegments s.job) (hhalves : Session.Halves c s t) :
    c.config.minSegment < 2 ^ 63 := by
  refine hfit.1.resolve_left fun hone ↦ ?_
  have := List.length_pos_of_mem ht
  have := hhalves.1
  have := hgrants.2
  omega

/-- **The middle is inside**, and on the grid. -/
theorem Trim.middle_inside (h : Trim c total w) (hfit : c.config.SplitsFit) (hsees : s.Sees w) {t : Segment}
    (ht : t ∈ Session.pendingSegments s.job) (hhalves : Session.Halves c s t) :
    c.config.minSegment ∣ Session.middle c t.range ∧
      t.range.start < Session.middle c t.range ∧ Session.middle c t.range < t.range.stop := by
  have hmem := (Session.mem_of_pending hsees.segments ht).1
  have hsmall := minSegment_lt_of_halves hfit (hsees.connections ▸ h.grants) ht hhalves
  have hpos := Session.minSegment_pos c
  have hge := le_roundUp (n := t.range.len / 2) hpos
  have hlong := hhalves.2.1
  rw [Session.wrap64_of_lt (by omega)] at hlong
  refine ⟨?_, ?_, hhalves.2.2⟩
  · rw [h.middle_eq hmem]
    exact Nat.dvd_add (h.dvd_start hmem) (dvd_roundUp _ _)
  · rw [h.middle_eq hmem]
    omega

/-- **Where a lease is capped** is inside, and on the grid. -/
theorem Trim.capAt_inside (h : Trim c total w) (hfit : c.config.SplitsFit) {t : Segment}
    (ht : t ∈ w.map.segments) (hlong : c.config.leaseCap < t.range.len) :
    c.config.minSegment ∣ Session.capAt c t.range ∧
      t.range.start < Session.capAt c t.range ∧ Session.capAt c t.range < t.range.stop := by
  have hpos := Session.minSegment_pos c
  have hge := le_roundUp (n := max c.config.checkpointBytes c.config.minSegment) hpos
  have hunit := le_max_right c.config.checkpointBytes c.config.minSegment
  have hlen : t.range.len = t.range.stop - t.range.start := rfl
  have hcap := hlong
  rw [CoordinatorConfig.leaseCap_eq hfit] at hcap
  rw [capAt_eq hfit hlong]
  exact ⟨Nat.dvd_add (h.dvd_start ht) (dvd_roundUp _ _), by omega, by omega⟩

/-- A cut inside a pending piece is not refused, unless the map is full. -/
theorem Trim.not_refused (h : Trim c total w) {t : Segment} (ht : t ∈ w.map.segments)
    (hpend : t.state = .pending) {at' : ℕ} (hinside : t.range.start < at' ∧ at' < t.range.stop)
    {e : DomainError} (hcut : w.map.splitPending t.id at' = (.error e, m)) : e = .capacity := by
  obtain ⟨pre, post, hseg⟩ := List.append_of_mem ht
  rcases Session.splitPending_inside h.inv h.numbered hseg hpend hinside with hfull | ⟨_, _, _, -, hok, -⟩
  · exact (Except.error.inj (congrArg Prod.fst (hfull.symm.trans hcut))).symm
  · exact nomatch congrArg Prod.fst (hok.symm.trans hcut)

/-- What can be leased. -/
def Offered (m : SegmentMap) (id : SegmentId) : Prop := ∃ t ∈ m.segments, t.id = id ∧ t.state = .pending

/-- The pieces on either side of a cut can be leased. -/
theorem offered_of_cut {id right : SegmentId} {at' : ℕ} (hcut : m.splitPending id at' = (.ok right, m')) :
    Offered m' id ∧ Offered m' right := by
  rcases m.splitPending_cases id at' with ⟨e, he⟩ | ⟨pre, t, post, left, right', hseg, hid, hpend, -, -, heq⟩
  · exact nomatch congrArg Prod.fst (hcut.symm.trans he)
  · obtain rfl := congrArg Prod.snd (hcut.symm.trans heq)
    obtain rfl := Except.ok.inj (congrArg Prod.fst (hcut.symm.trans heq))
    exact ⟨⟨{ t with range := left }, by simp, hid, hpend⟩, ⟨⟨m.nextId⟩, right', .pending⟩, by simp, rfl, rfl⟩

/-- **`next_pending` cuts on the grid**, is never refused, and offers a piece unless nothing is pending. -/
theorem Trim.nextPending (h : Trim c total w) (hfit : c.config.SplitsFit) (hsees : s.Sees w) :
    ∃ r m', Ends (Session.nextPending c) s (.ok r) (s.withMap m') ∧ w.map.Cuts c.config.minSegment m' ∧
      (r = none ∧ Session.pendingSegments s.job = [] ∨ ∃ id, r = some id ∧ Offered m' id) := by
  obtain ⟨r, m', hends, hpicked⟩ := Session.nextPending_picked (c := c) h.inv hsees.state hsees.segments
  have hhead : ∀ {first : Segment}, (Session.pendingSegments s.job).head? = some first →
      first ∈ w.map.segments ∧ first.state = .pending := fun hfirst ↦
    Session.mem_of_pending hsees.segments (List.mem_of_head? hfirst)
  cases hpicked with
  | nothing hnone => exact ⟨none, _, hends, .refl, Or.inl ⟨rfl, hnone⟩⟩
  | @halved largest right _ hlargest hhalves hcut =>
    have ht := mem_of_maxByKey hlargest
    refine ⟨_, _, hends, .cut .refl (h.middle_inside hfit hsees ht hhalves).1 hcut, Or.inr ⟨_, rfl, ?_⟩⟩
    exact (offered_of_cut hcut).2
  | @unhalvable largest e hlargest hhalves hcut he =>
    have ht := mem_of_maxByKey hlargest
    obtain ⟨hmem, hpend⟩ := Session.mem_of_pending hsees.segments ht
    exact absurd (h.not_refused hmem hpend (h.middle_inside hfit hsees ht hhalves).2 hcut) he
  | @whole first hfirst _ _ =>
    obtain ⟨hmem, hpend⟩ := hhead hfirst
    exact ⟨_, _, hends, .refl, Or.inr ⟨_, rfl, first, hmem, rfl, hpend⟩⟩
  | @capped first right _ hfirst _ hlong hcut =>
    have hinside := h.capAt_inside hfit (hhead hfirst).1 hlong
    exact ⟨_, _, hends, .cut .refl hinside.1 hcut, Or.inr ⟨_, rfl, (offered_of_cut hcut).1⟩⟩
  | @uncappable first e hfirst hlong hcut he =>
    obtain ⟨hmem, hpend⟩ := hhead hfirst
    exact absurd (h.not_refused hmem hpend (h.capAt_inside hfit hmem hlong).2 hcut) he

/-- A lease puts one pending piece in flight. -/
theorem Trim.lease (h : Trim c total w) {id : SegmentId} {worker : ℕ} {l : Lease}
    (hlease : w.map.lease id worker = (.ok l, m')) (taken : List Taken) :
    Trim c total { w with map := m', leases := l :: w.leases, taken } := by
  have hinv := (SegmentMap.keeps_lease w.map id worker).inv h.inv
  rw [hlease] at hinv
  rcases w.map.lease_cases id worker with ⟨e, he⟩ | ⟨pre, t, post, hseg, hid, hpend, heq⟩
  · exact nomatch congrArg Prod.fst (hlease.symm.trans he)
  · obtain rfl := congrArg Prod.snd (hlease.symm.trans heq)
    obtain rfl := Except.ok.inj (congrArg Prod.fst (hlease.symm.trans heq))
    have hold : ∀ u ∈ pre ++ { t with state := .inFlight worker w.map.nextAttempt } :: post,
        u = { t with state := .inFlight worker w.map.nextAttempt } ∨ u ∈ w.map.segments := by
      intro u hu
      rw [hseg]
      rcases List.mem_append.1 hu with hu | hu
      · exact Or.inr (List.mem_append_left _ hu)
      · rcases List.mem_cons.1 hu with rfl | hu
        · exact Or.inl rfl
        · exact Or.inr (List.mem_append_right _ (List.mem_cons_of_mem _ hu))
    have ht : t ∈ w.map.segments := by rw [hseg]; simp
    refine ⟨hinv, h.total_eq, ?_, fun u hu ↦ ?_, h.stored, fun u hu hin ↦ ?_, h.grants⟩
    · have hn := h.numbered
      unfold SegmentMap.Numbered at hn ⊢
      rw [hseg] at hn
      simpa using hn
    · rcases hold u hu with rfl | hu
      · exact h.gridded t ht
      · exact h.gridded u hu
    · rcases hold u hu with rfl | hu
      · exact ⟨_, List.mem_cons_self, hid, rfl, rfl⟩
      · obtain ⟨l, hl, hholds⟩ := h.flight u hu hin
        exact ⟨l, List.mem_cons_of_mem _ hl, hholds⟩

/-- **Run lemma.** -/
theorem Works.trim (hfit : c.config.SplitsFit) (hw : Works c total w) : Trim c total w := by
  induction hw with
  | @fresh job generation maximum connections m hnew hgrant hmax =>
    obtain ⟨-, -, -, hm, hseg⟩ := SegmentMap.new_eq_ok hnew
    have htotal : m.total = total := by rw [hm]
    have hid : m.nextId ≤ m.segments.length + 2 := by
      rw [show m.nextId = 2 by rw [hm]]
      exact Nat.le_add_left _ _
    refine ⟨.of_new hnew, htotal, hid, fun t ht ↦ ?_, nofun, fun t ht hin ↦ ?_, hgrant⟩
    · rcases hseg with ⟨-, hnil⟩ | ⟨range, hstart, hstop, hone⟩
      · rw [hnil] at ht
        cases ht
      · rw [hone, List.mem_singleton] at ht
        rw [ht]
        exact ⟨Or.inl (hstart ▸ Nat.dvd_zero _), Or.inr hstop⟩
    · rcases hseg with ⟨-, hnil⟩ | ⟨range, -, -, hone⟩
      · rw [hnil] at ht
        cases ht
      · rw [hone, List.mem_singleton] at ht
        rw [ht] at hin
        cases hin
  | @begin w s s' m _ hbegun hsees hsplit hm ih =>
    obtain ⟨m', hends, hcuts, -⟩ := Session.initialSplit_ends (c := c) ih.inv ih.numbered hsees.state
      hsees.segments (hsees.connections ▸ ih.grants.1)
    obtain ⟨-, rfl⟩ := hends.unique hsplit
    obtain rfl := Option.some.inj hm
    exact ih.cuts hcuts true
  | @lease w s s' id m m' worker l _ _ hsees _ hnext hm hlease ih =>
    obtain ⟨r, m₁, hends, hcuts, -⟩ := ih.nextPending hfit hsees
    obtain ⟨-, rfl⟩ := hends.unique hnext
    obtain rfl := Option.some.inj hm
    exact (ih.cuts hcuts w.begun).lease hlease _
  | settle _ hl hsettle ih => exact ih.settle hl hsettle
  | @checkpoint w op _ hop ih =>
    have halike := alike_of_settles hop ih.inv
    refine ⟨(SegmentMap.keeps_perform w.map op).inv ih.inv, halike.total.trans ih.total_eq,
      halike.numbered ih.numbered, halike.gridded ih.gridded, ih.stored, fun t ht hin ↦ ?_, ih.grants⟩
    obtain ⟨u, hu, -, hsame⟩ := halike.mem t ht
    obtain rfl := hsame hin
    exact ih.flight t hu hin
  | @commit w checkpoint _ hcheckpoint _ ih =>
    refine { ih with stored := fun r hr ↦ ?_ }
    rcases List.mem_append.1 hr with hr | hr
    · exact ih.stored r hr
    · obtain ⟨e, he, rfl⟩ := List.mem_map.1 hr
      obtain ⟨t, ⟨ht, -, hrange, -⟩, -⟩ := ih.inv.selected checkpoint hcheckpoint e he
      rw [← hrange]
      exact ih.gridded t ht
  | resume _ _ hgrant ih => exact { ih with grants := hgrant }
  | @restart w durable connections m _ hdurable hgrant hrestore ih =>
    have hr := SegmentMap.restore_eq_ok hrestore
    have hid : m.nextId ≤ m.segments.length + 2 := by
      rw [hr.eq]
      exact Nat.le_succ _
    refine ⟨.of_restore hrestore, by rw [hr.eq], hid, ?_, ih.stored, fun t ht hin ↦ ?_, hgrant⟩
    · exact SegmentMap.restore_bounds hrestore (Or.inl (Nat.dvd_zero _)) (Or.inr rfl) fun r hr ↦
        ih.stored r (hdurable r hr)
    · rcases hr.states t ht with hs | hs <;> rw [hs] at hin <;> cases hin

/-- **Where nothing is pending and nothing runs**, something is to be committed, or all is durable. -/
theorem Trim.settled (h : Trim c total w) (hsees : s.Sees w) (hworkers : s.workers = [])
    (hnone : Session.pendingSegments s.job = []) :
    Session.hasUnsynced s.job = true ∨ s.job.allDurable = true := by
  have hleases : w.leases = [] := by
    rw [← List.length_eq_zero_iff, ← hsees.workers, hworkers, List.length_nil]
  rw [Session.hasUnsynced, Job.allDurable, hsees.segments, Option.any_some]
  refine or_iff_not_imp_left.2 fun hwritten ↦ List.all_eq_true.2 fun t ht ↦ ?_
  have hflight : t.state.isInFlight = false := by
    by_contra hin
    obtain ⟨l, hl, -⟩ := h.flight t ht (by simpa using hin)
    rw [hleases] at hl
    cases hl
  have hnot : t.state ≠ .pending := fun hpend ↦ by
    have hmem : t ∈ Session.pendingSegments s.job := by
      rw [Session.pendingSegments, hsees.segments]
      exact List.mem_filter.2 ⟨ht, by simpa using hpend⟩
    rw [hnone] at hmem
    cases hmem
  have hunwritten : t.state.isWritten = false := by
    by_contra hw
    exact hwritten (List.any_eq_true.2 ⟨t, ht, by simpa using hw⟩)
  revert hflight hnot hunwritten
  cases t.state <;> simp

end Trim

/-! ### Alignment and progress -/

/-- The ground on which everything is excused but the error that says that nothing can be done. -/
def anyGround (c : Coordinator) (spec : JobSpec) : Ground c spec Unit where
  env := fun _ _ _ _ ↦ True
  excused := fun e ↦ e ≠ .invariant
  link := fun _ _ ↦ True
  commit_error := fun _ ↦ nofun
  commit_ok := fun _ ↦ Or.inl nofun
  extents_error := fun _ ↦ nofun
  intent_error := fun _ ↦ nofun
  durable_error := fun _ ↦ nofun
  previous_error := fun _ ↦ nofun
  resolve_error := fun _ ↦ nofun
  parts_error := fun _ _ _ ↦ nofun
  obtain_panic := fun _ ↦ nofun
  inspect_panic := fun _ ↦ nofun
  inspect_error := fun _ ↦ nofun
  start_error := fun _ ↦ nofun
  probe_ok := fun _ _ _ ↦ Or.inl nofun
  fits := Or.inl nofun
  calm := False
  quiet := fun hf _ ↦ hf.elim
  link_commit := fun _ _ _ ↦ trivial
  link_call := fun _ _ _ _ _ ↦ trivial
  link_segments := fun _ _ _ ↦ trivial

/-- **A session never ends in `RunError::Invariant`**, whatever its calls are answered. -/
theorem Coordinator.runWith_ne_invariant (c : Coordinator) (fuel : ℕ) {job : Job} (hinv : job.Inv)
    (connections : ℕ) (origin : OriginId) :
    Ensures (fun _ _ _ _ ↦ True) (fun _ ↦ True) (fun r _ ↦ r.2 ≠ .error .invariant) ()
      (c.runWith fuel job connections origin) := by
  by_cases hgrant : connections = 0 ∨ connections > c.config.connections
  · unfold runWith
    rw [if_pos hgrant]
    exact nofun
  by_cases hstate : job.state = .queued ∨ job.state = .verifying ∨ job.state = .publishing
  · refine (runWith_ensures (G := anyGround c job.spec) fuel hinv rfl (Or.inl nofun) hstate (by omega)
      (Or.inl nofun) trivial).mono fun r _ hr ↦ ?_
    obtain ⟨j, r⟩ := r
    cases r with
    | ok _ => exact nofun
    | error e => exact fun heq ↦ hr.2 (Except.error.inj heq)
  · unfold runWith
    rw [if_neg hgrant, if_pos hstate]
    exact nofun

namespace Session

variable {c : Coordinator} {total : ℕ} {w : Work} {s : Session}

/-- **`spawn_workers` starts a worker** where something is pending and a connection is idle, unless the attempts
have run out. -/
theorem spawnWorkers_asks (h : Trim c total w) (hfit : c.config.SplitsFit) (hsees : s.Sees w)
    (hpending : pendingSegments s.job ≠ []) (hidle : s.workers.length < s.connections)
    (hwriter : s.writer = true) (hroom : w.map.nextAttempt < u64Max) :
    ∃ lease, Asks (spawnWorkers c) s (.spawn (s.nextWorker + 1) lease s.job.validator) := by
  obtain ⟨r, m, hends, hcuts, hr⟩ := h.nextPending hfit hsees
  obtain ⟨id, rfl, t, ht, rfl, hpend⟩ := hr.resolve_left fun hnone ↦ hpending hnone.2
  obtain ⟨lease, m', heq⟩ : ∃ lease m', m.lease t.id (s.nextWorker + 1) = (.ok lease, m') := by
    rcases SegmentMap.lease_of_pending (hcuts.kept h.inv).1 ht hpend (Nat.succ_ne_zero s.nextWorker) with
      ⟨-, hover⟩ | ⟨pre, post, -, heq⟩
    · rw [hcuts.nextAttempt] at hover
      omega
    · exact ⟨_, _, heq⟩
  obtain ⟨idle, hconnections⟩ : ∃ idle, s.connections - s.workers.length = idle + 1 :=
    ⟨_, (Nat.succ_pred_eq_of_pos (by omega)).symm⟩
  refine ⟨lease, Asks.get ?_⟩
  rw [hconnections, spawnUpTo]
  refine Asks.get ?_
  rw [if_pos hsees.state]
  refine Asks.after hends (Asks.after Ends.modify (Asks.get ?_))
  have hstate : (s.withMap m).job.state = .transferring := hsees.state
  have hlease : (s.withMap m).job.leaseSegment t.id (s.nextWorker + 1) =
      (.ok lease, { (s.withMap m).job with segments := some m' }) := by
    rw [Job.leaseSegment, if_neg (by rw [hstate]; exact fun h ↦ h rfl),
      Job.onMap_eq (by rw [hstate]; rfl) (rfl : (s.withMap m).job.segments = some m) heq]
  refine Asks.after (domain_ends hlease) (Asks.get ?_)
  rw [if_pos (by exact hwriter)]
  exact ⟨_, rfl⟩

end Session

open Session in
/-- **Splitting stays aligned and always makes progress**, while the sizes of the configuration fit:

* every piece begins at a multiple of the split granularity;
* what a session cuts at its start are equal pieces of such a length and a rest, no more than there are
  connections;
* no cut is refused, except by a full map, and none of the two routines fails;
* where something is pending and a connection is idle, a worker is started, until the attempts run out;
* where nothing is pending and no worker runs, something is to be committed, or all is durable;
* no session ends in the error that says that nothing can be done. -/
theorem splitting_sound (c : Coordinator) (hfit : c.config.SplitsFit) (total : ℕ) :
    (∀ w : Work, Works c total w → (∀ t ∈ w.map.segments, c.config.minSegment ∣ t.range.start) ∧
      ∀ s : Session, s.Sees w →
        (∃ m, Ends (initialSplit c) s (.ok ()) (s.withMap m) ∧
          ∀ t, w.map.segments = [t] → ∃ size, c.config.minSegment ∣ size ∧ m.Even size ∧
            m.segments.length ≤ s.connections) ∧
        (∃ next m, Ends (nextPending c) s (.ok next) (s.withMap m)) ∧
        (pendingSegments s.job ≠ [] → s.workers.length < s.connections → s.writer = true →
          w.map.nextAttempt < u64Max →
            ∃ lease, Asks (spawnWorkers c) s (.spawn (s.nextWorker + 1) lease s.job.validator)) ∧
        (s.workers = [] → pendingSegments s.job = [] →
          hasUnsynced s.job = true ∨ s.job.allDurable = true)) ∧
      ∀ fuel job connections origin, job.Inv →
        Ensures (fun _ _ _ _ ↦ True) (fun _ ↦ True) (fun r _ ↦ r.2 ≠ .error .invariant) ()
          (c.runWith fuel job connections origin) := by
  refine ⟨fun w hw ↦ ?_, fun fuel job connections origin hinv ↦
    c.runWith_ne_invariant fuel hinv connections origin⟩
  have htrim := hw.trim hfit
  refine ⟨fun t ↦ htrim.dvd_start, fun s hsees ↦ ⟨?_, ?_, ?_, ?_⟩⟩
  · obtain ⟨m, hends, -, heven⟩ := initialSplit_ends (c := c) htrim.inv htrim.numbered hsees.state
      hsees.segments (hsees.connections ▸ htrim.grants.1)
    exact ⟨m, hends, heven⟩
  · obtain ⟨next, m, hends, -⟩ := htrim.nextPending hfit hsees
    exact ⟨next, m, hends⟩
  · exact spawnWorkers_asks htrim hfit hsees
  · exact htrim.settled hsees

namespace Sample

/-- Two connections that lease a byte at a time. -/
def bytewise : Coordinator :=
  ⟨⟨2, 8, 1, 1, 1, retry, by decide, by decide⟩, 0, false, by decide, by decide⟩

def firstByte : ByteRange := ⟨0, 1, Nat.zero_lt_one, one_le_i64Max⟩

/-- A plan of one byte, after so many attempts. -/
def oneByte (attempt : ℕ) : SegmentMap :=
  ⟨⟨1, Nat.one_ne_zero⟩, .initial, 1, 8, [⟨⟨1⟩, firstByte, .pending⟩], 2, attempt, 1, none⟩

theorem oneByte_fresh : Works bytewise 1 ⟨oneByte 1, 1, false, [], [], []⟩ := by
  have hnew : SegmentMap.new ⟨1, Nat.one_ne_zero⟩ .initial 1 8 = .ok (oneByte 1) := rfl
  exact .fresh hnew ⟨le_rfl, by decide⟩ (Or.inl rfl)

theorem lease_oneByte (attempt : ℕ) : (oneByte attempt).lease ⟨1⟩ 1 =
    match checkedAdd attempt 1 with
    | none => (.error .overflow, oneByte attempt)
    | some next => (.ok ⟨⟨1, Nat.one_ne_zero⟩, .initial, ⟨1⟩, attempt, 1, firstByte⟩,
        { oneByte next with segments := [⟨⟨1⟩, firstByte, .inFlight 1 attempt⟩] }) := rfl

/-- **An attempt that comes to nothing** leaves a plan of one byte as it was, but for the attempts. -/
theorem oneByte_again {attempt : ℕ} (hroom : attempt < u64Max) {taken : List Taken}
    (hw : Works bytewise 1 ⟨oneByte attempt, 1, true, [], [], taken⟩) :
    ∃ taken, Works bytewise 1 ⟨oneByte (attempt + 1), 1, true, [], [], taken⟩ := by
  have hadd : checkedAdd attempt 1 = some (attempt + 1) := checkedAdd_eq_some.2 ⟨hroom, rfl⟩
  have hlease : (oneByte attempt).lease ⟨1⟩ 1 = (.ok ⟨⟨1, Nat.one_ne_zero⟩, .initial, ⟨1⟩, attempt, 1, firstByte⟩,
      { oneByte (attempt + 1) with segments := [⟨⟨1⟩, firstByte, .inFlight 1 attempt⟩] }) := by
    rw [lease_oneByte, hadd]
  have hnext : Ends (Session.nextPending bytewise) (Work.session ⟨oneByte attempt, 1, true, [], [], taken⟩)
      (.ok (some ⟨1⟩)) (Work.session ⟨oneByte attempt, 1, true, [], [], taken⟩) := rfl
  have hleased := hw.lease rfl (Work.session_sees _) Nat.zero_lt_one hnext rfl hlease
  have hrelease : ({ oneByte (attempt + 1) with segments := [⟨⟨1⟩, firstByte, .inFlight 1 attempt⟩] } :
      SegmentMap).release ⟨⟨1, Nat.one_ne_zero⟩, .initial, ⟨1⟩, attempt, 1, firstByte⟩ =
        (.ok (), oneByte (attempt + 1)) := by
    have hindex : ({ oneByte (attempt + 1) with segments := [⟨⟨1⟩, firstByte, .inFlight 1 attempt⟩] } :
        SegmentMap).leaseIndex ⟨⟨1, Nat.one_ne_zero⟩, .initial, ⟨1⟩, attempt, 1, firstByte⟩ = .ok 0 :=
      (if_neg (by simp [oneByte])).trans (if_neg (by simp))
    rw [SegmentMap.release, hindex]
    rfl
  have hsettled := hleased.settle List.mem_cons_self (Or.inr hrelease)
  rw [List.erase_cons_head] at hsettled
  exact ⟨_, hsettled⟩

theorem oneByte_worn (n : ℕ) (hn : n < u64Max) :
    ∃ taken, Works bytewise 1 ⟨oneByte (n + 1), 1, true, [], [], taken⟩ := by
  induction n with
  | zero =>
    have hsplit : Ends (Session.initialSplit bytewise) (Work.session ⟨oneByte 1, 1, false, [], [], []⟩) (.ok ())
        (Work.session ⟨oneByte 1, 1, false, [], [], []⟩) := rfl
    exact ⟨[], oneByte_fresh.begin rfl (Work.session_sees _) hsplit rfl⟩
  | succ n ih =>
    obtain ⟨taken, hw⟩ := ih (by omega)
    exact oneByte_again hn hw
end Sample

open Sample Session in
theorem splitting_sound_bytewise : bytewise.config.SplitsFit ∧
    ∃ taken lease, Asks (spawnWorkers bytewise) (Work.session ⟨oneByte 1, 1, true, [], [], taken⟩)
      (.spawn 1 lease none) := by
  have hfit : bytewise.config.SplitsFit := ⟨Or.inr (by decide), by decide⟩
  obtain ⟨taken, hw⟩ := oneByte_worn 0 (by decide)
  obtain ⟨lease, hasks⟩ := (((splitting_sound bytewise hfit 1).1 _ hw).2 _ (Work.session_sees _)).2.2.1
    (List.cons_ne_nil _ _) Nat.zero_lt_one rfl (by decide : 1 < u64Max)
  exact ⟨hfit, taken, lease, hasks⟩

open Sample Session in
/-- Once all attempts are used up, the next lease overflows, and no worker is started. -/
theorem splitting_worn_out : ¬∀ c : Coordinator, c.config.SplitsFit → ∀ (total : ℕ) (w : Work), Works c total w →
    ∀ s : Session, s.Sees w → pendingSegments s.job ≠ [] → s.workers.length < s.connections → s.writer = true →
      ∃ lease, Asks (spawnWorkers c) s (.spawn (s.nextWorker + 1) lease s.job.validator) := by
  intro hclaim
  obtain ⟨taken, hw⟩ := oneByte_worn (u64Max - 1) (by decide)
  obtain ⟨lease, next, hasks⟩ := hclaim bytewise ⟨Or.inr (by decide), by decide⟩ 1 _ hw _ (Work.session_sees _)
    (List.cons_ne_nil _ _) Nat.zero_lt_one rfl
  have hends : Ends (spawnWorkers bytewise) (Work.session ⟨oneByte u64Max, 1, true, [], [], taken⟩)
      (.error (.domain .overflow)) _ := rfl
  exact nomatch hends.symm.trans hasks

end Fhd
