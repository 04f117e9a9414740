import FhdEngine.Runtime.Splitting

/-!
# The sums of splitting

`initial_split`, `next_pending` and `cap_lease` round up and add in `u64`, and no check of a configuration
bounds its sizes from above. `Session.InitialSplitFits`, `Session.NextPendingFits` and
`Session.CapLeaseFits` say of a session that every such operation the routine does is one of `u64`.

They hold over the whole life of every plan if, and only if, `CoordinatorConfig.SplitsFit` holds.
-/

namespace Fhd

open Process (Ends)

/-! ### What holds whatever the sizes are -/

section Planned

variable {c : Coordinator} {total : ℕ} {w : Work} {m m' : SegmentMap} {s : Session}

/-- What holds of a plan whatever the sizes are. -/
structure Planned (c : Coordinator) (total : ℕ) (w : Work) : Prop where
  inv : w.map.Inv
  total_eq : w.map.total = total
  numbered : w.map.Numbered
  grants : c.Grants w.connections

/-- What is picked is one cut away, if any. -/
theorem Session.Picked.kept {r : Except RunError (Option SegmentId)} (h : Session.Picked c s m r m')
    (hinv : m.Inv) :
    m'.Inv ∧ m'.total = m.total ∧ m'.maximum = m.maximum ∧ (m.Numbered → m'.Numbered) ∧
      ∀ t ∈ m'.segments, t ∈ m.segments ∨ t.state = .pending := by
  cases h with
  | halved _ _ hcut => exact SegmentMap.splitPending_kept hcut hinv
  | capped _ _ _ hcut => exact SegmentMap.splitPending_kept hcut hinv
  | _ => exact ⟨hinv, rfl, rfl, id, fun _ ↦ Or.inl⟩

/-- **Run lemma.** -/
theorem Works.planned (hw : Works c total w) : Planned c total w := by
  induction hw with
  | @fresh job generation maximum connections m hnew hgrant hmax =>
    obtain ⟨-, -, -, hm, -⟩ := SegmentMap.new_eq_ok hnew
    refine ⟨.of_new hnew, by rw [hm], ?_, hgrant⟩
    show m.nextId ≤ m.segments.length + 2
    rw [show m.nextId = 2 by rw [hm]]
    exact Nat.le_add_left _ _
  | @begin w s s' m _ _ hsees hsplit hm ih =>
    obtain ⟨m', hends, hcuts, -⟩ := Session.initialSplit_ends (c := c) ih.inv ih.numbered hsees.state
      hsees.segments (hsees.connections ▸ ih.grants.1)
    obtain ⟨-, rfl⟩ := hends.unique hsplit
    obtain rfl := Option.some.inj hm
    obtain ⟨hinv, htotal, -, hnumbered, -⟩ := hcuts.kept ih.inv
    exact ⟨hinv, htotal.trans ih.total_eq, hnumbered ih.numbered, ih.grants⟩
  | @lease w s s' id m m' worker l _ _ hsees _ hnext hm hlease ih =>
    obtain ⟨r, m₁, hends, hpicked⟩ := Session.nextPending_picked (c := c) ih.inv hsees.state hsees.segments
    obtain ⟨-, rfl⟩ := hends.unique hnext
    obtain rfl := Option.some.inj hm
    obtain ⟨hinv, htotal, -, hnumbered, -⟩ := hpicked.kept ih.inv
    have hinv' := (SegmentMap.keeps_lease m₁ id worker).inv hinv
    rw [hlease] at hinv'
    rcases m₁.lease_cases id worker with ⟨e, he⟩ | ⟨pre, t, post, hseg, -, -, heq⟩
    · exact nomatch congrArg Prod.fst (hlease.symm.trans he)
    · obtain rfl := congrArg Prod.snd (hlease.symm.trans heq)
      refine ⟨hinv', htotal.trans ih.total_eq, ?_, ih.grants⟩
      have hn := hnumbered ih.numbered
      unfold SegmentMap.Numbered at hn ⊢
      rw [hseg] at hn
      simpa using hn
  | settle _ _ hsettle ih =>
    have halike := alike_of_settle hsettle
    exact ⟨inv_of_settle hsettle ih.inv, halike.total.trans ih.total_eq, halike.numbered ih.numbered, ih.grants⟩
  | @checkpoint w op _ hop ih =>
    have halike := alike_of_settles hop ih.inv
    exact ⟨(SegmentMap.keeps_perform w.map op).inv ih.inv, halike.total.trans ih.total_eq,
      halike.numbered ih.numbered, ih.grants⟩
  | commit _ _ _ ih => exact ⟨ih.inv, ih.total_eq, ih.numbered, ih.grants⟩
  | resume _ _ hgrant ih => exact { ih with grants := hgrant }
  | @restart w durable connections m _ _ hgrant hrestore ih =>
    have hr := SegmentMap.restore_eq_ok hrestore
    refine ⟨.of_restore hrestore, by rw [hr.eq], ?_, hgrant⟩
    show m.nextId ≤ m.segments.length + 2
    rw [hr.eq]
    exact Nat.le_succ _

end Planned

/-! ### What each routine computes -/

namespace Session

variable {c : Coordinator} {total : ℕ} {w : Work} {s : Session}

/-- `initial_split` rounds up the length of a piece, and adds it to every place of a cut before the end. -/
def InitialSplitFits (c : Coordinator) (s : Session) : Prop :=
  ∀ m only, s.job.segments = some m → m.segments = [only] → only.state = .pending → only.range.start = 0 →
    ∀ pieces size, pieces = min (only.range.stop / c.config.minSegment) s.connections → 2 ≤ pieces →
      size = roundUp (divCeil only.range.stop pieces) c.config.minSegment →
        size < 2 ^ 64 ∧ ∀ at' < only.range.stop, at' + size < 2 ^ 64

/-- `next_pending` computes the middle of the largest piece, and twice the split granularity if idle connections
outnumber the pending pieces. -/
def NextPendingFits (c : Coordinator) (s : Session) : Prop :=
  ∀ largest, maxByKey (·.range.len) (pendingSegments s.job) = some largest →
    roundUp (largest.range.len / 2) c.config.minSegment < 2 ^ 64 ∧
      largest.range.start + roundUp (largest.range.len / 2) c.config.minSegment < 2 ^ 64 ∧
      ((pendingSegments s.job).length < s.connections - s.workers.length → 2 * c.config.minSegment < 2 ^ 64)

/-- `cap_lease`, which is called on the first pending piece unless another was halved, rounds up the longest
lease, and adds it to the start of a piece that is longer. -/
def CapLeaseFits (c : Coordinator) (s : Session) : Prop :=
  ∀ m first cap, s.job.segments = some m → (pendingSegments s.job).head? = some first → Unhalved c s m →
    cap = roundUp (max c.config.checkpointBytes c.config.minSegment) c.config.minSegment →
      cap < 2 ^ 64 ∧ (cap < first.range.len → first.range.start + cap < 2 ^ 64)

/-- **Every sum of splitting is one of `u64`**, over the whole life of every plan of this size. -/
def SumsFit (c : Coordinator) (total : ℕ) : Prop :=
  ∀ w, Works c total w → ∀ s : Session, s.Sees w →
    (w.begun = false → InitialSplitFits c s) ∧
      (w.begun = true → s.workers.length < s.connections → NextPendingFits c s ∧ CapLeaseFits c s)

/-- **The first cuts always fit**: they are made only where a piece is at most half of the whole. -/
theorem initialSplitFits (c : Coordinator) (s : Session) : InitialSplitFits c s := by
  intro m only _ _ _ _ pieces size hpieces htwo hsize
  have hpos := minSegment_pos c
  have hunit : 2 * c.config.minSegment ≤ only.range.stop :=
    (Nat.le_div_iff_mul_le hpos).1 (htwo.trans (hpieces ▸ min_le_left _ _))
  have hle := only.range.stop_le
  unfold i64Max at hle
  have hhalf := divCeil_two_le (a := only.range.stop) htwo
  have hlt := roundUp_lt (n := divCeil only.range.stop pieces) hpos
  rw [← hsize] at hlt
  exact ⟨by omega, fun at' hat ↦ by omega⟩

theorem nextPendingFits (hfit : c.config.SplitsFit) (h : Trim c total w) (hsees : s.Sees w) :
    NextPendingFits c s := by
  intro largest hlargest
  have ht := mem_of_maxByKey hlargest
  obtain ⟨hround, hsum⟩ := h.middle_fits (mem_of_pending hsees.segments ht).1
  refine ⟨hround, hsum, fun hidle ↦ ?_⟩
  have hsmall : c.config.minSegment < 2 ^ 63 := by
    refine hfit.1.resolve_left fun hone ↦ ?_
    have := List.length_pos_of_mem ht
    have := (hsees.connections ▸ h.grants).2
    omega
  omega

theorem capLeaseFits (hfit : c.config.SplitsFit) (s : Session) : CapLeaseFits c s := by
  rintro m first cap _ _ _ rfl
  refine ⟨hfit.2, fun hlong ↦ ?_⟩
  have hlen : first.range.len = first.range.stop - first.range.start := rfl
  have hle := first.range.stop_le
  unfold i64Max at hle
  omega

/-! ### What the sizes have to be -/

/-- **A plan that is not cut**, for fewer connections than could share it, is worked on in one piece. -/
theorem works_whole {connections : ℕ} (hgrant : c.Grants connections) (htotal : total ≠ 0)
    (hle : total ≤ i64Max) (hfew : min (total / c.config.minSegment) connections < 2) :
    ∃ m t, Works c total ⟨m, connections, true, [], [], []⟩ ∧ m.segments = [t] ∧ t.state = .pending := by
  have hvalid := c.config_valid
  simp only [CoordinatorConfig.valid, decide_eq_true_eq] at hvalid
  obtain ⟨m, hnew⟩ : ∃ m, SegmentMap.new ⟨1, Nat.one_ne_zero⟩ .initial total c.config.maxSegments = .ok m := by
    have hmax : 1 ≤ c.config.maxSegments ∧ c.config.maxSegments ≤ maxSegments := by
      unfold maxSegments
      omega
    rw [SegmentMap.new, if_neg (by omega), if_neg htotal, ByteRange.new, dif_neg (by omega)]
    exact ⟨_, rfl⟩
  obtain ⟨-, -, -, -, hseg⟩ := SegmentMap.new_eq_ok hnew
  obtain ⟨range, hstart, hstop, hone⟩ := hseg.resolve_left fun h ↦ htotal h.1
  have hfresh := Works.fresh hnew hgrant (Or.inl rfl)
  suffices hsplit : Ends (initialSplit c) (Work.session ⟨m, connections, false, [], [], []⟩) (.ok ())
      (Work.session ⟨m, connections, false, [], [], []⟩) from
    ⟨m, _, hfresh.begin rfl (Work.session_sees _) hsplit rfl, hone, rfl⟩
  refine Ends.get ?_
  simp only [Work.session, hone]
  show Ends (if _ then _ else pure ()) _ _ _
  rw [if_pos ⟨trivial, hstart⟩]
  show Ends (if 2 ≤ min (range.stop / c.config.minSegment) connections then _ else pure ()) _ _ _
  rw [hstop, if_neg (by omega)]
  exact Ends.pure

/-- Two connections on one piece compute twice the granularity. -/
theorem minSegment_lt_of_sumsFit (htotal : total ≠ 0) (hle : total ≤ i64Max) (hsums : SumsFit c total) :
    c.config.connections = 1 ∨ c.config.minSegment < 2 ^ 63 := by
  have hvalid := c.config_valid
  simp only [CoordinatorConfig.valid, decide_eq_true_eq] at hvalid
  by_contra! hlarge
  have hfew : total / c.config.minSegment = 0 := Nat.div_eq_of_lt (by unfold i64Max at hle; omega)
  obtain ⟨m, t, hw, hone, hpend⟩ := works_whole (c := c) (show c.Grants 2 from ⟨by omega, by omega⟩) htotal hle
    (by omega)
  have hpending : pendingSegments (Work.session ⟨m, 2, true, [], [], []⟩).job = [t] := by
    show m.segments.filter _ = _
    rw [hone, List.filter_cons_of_pos (by simpa using hpend), List.filter_nil]
  have htwice := ((hsums _ hw _ (Work.session_sees _)).2 rfl Nat.zero_lt_two).1 t (by rw [hpending]; rfl)
  have := htwice.2.2 (by rw [hpending]; exact Nat.one_lt_two)
  omega

/-- One connection on one piece computes the longest lease. -/
theorem leaseCap_lt_of_sumsFit (htotal : total ≠ 0) (hle : total ≤ i64Max) (hsums : SumsFit c total) :
    roundUp (max c.config.checkpointBytes c.config.minSegment) c.config.minSegment < 2 ^ 64 := by
  have hvalid := c.config_valid
  simp only [CoordinatorConfig.valid, decide_eq_true_eq] at hvalid
  obtain ⟨m, t, hw, hone, hpend⟩ := works_whole (c := c) (show c.Grants 1 from ⟨le_rfl, by omega⟩) htotal hle
    (by omega)
  have hpending : pendingSegments (Work.session ⟨m, 1, true, [], [], []⟩).job = [t] := by
    show m.segments.filter _ = _
    rw [hone, List.filter_cons_of_pos (by simpa using hpend), List.filter_nil]
  refine (((hsums _ hw _ (Work.session_sees _)).2 rfl Nat.one_pos).2 m t _ rfl (by rw [hpending]; rfl) ?_ rfl).1
  intro largest _ hhalves
  have hidle := hhalves.1
  rw [hpending] at hidle
  exact absurd hidle (lt_irrefl 1)

/-- **The sums of splitting fit if, and only if, the sizes do**, for every plan that holds anything. -/
theorem sums_fit_iff (c : Coordinator) (total : ℕ) :
    SumsFit c total ↔ (total ≠ 0 ∧ total ≤ i64Max → c.config.SplitsFit) := by
  refine ⟨fun hsums ⟨htotal, hle⟩ ↦ ⟨minSegment_lt_of_sumsFit htotal hle hsums,
    leaseCap_lt_of_sumsFit htotal hle hsums⟩, fun hfit w hw s hsees ↦ ⟨fun _ ↦ initialSplitFits c s,
      fun _ _ ↦ ?_⟩⟩
  have hplanned := hw.planned
  by_cases htotal : total = 0
  · -- nothing is ever pending
    have hnone : pendingSegments s.job = [] := List.eq_nil_iff_forall_not_mem.2 fun t ht ↦ by
      have hbounds := hplanned.inv.tiles.bounds (mem_of_pending hsees.segments ht).1
      have := hbounds.2.1
      have := hbounds.2.2
      rw [hplanned.total_eq] at this
      omega
    refine ⟨fun largest hlargest ↦ ?_, fun m first cap _ hfirst ↦ ?_⟩
    · rw [hnone] at hlargest
      cases hlargest
    · rw [hnone] at hfirst
      cases hfirst
  · have hsizes := hfit ⟨htotal, hplanned.total_eq ▸ hplanned.inv.total_le⟩
    exact ⟨nextPendingFits hsizes (hw.trim hsizes) hsees, capLeaseFits hsizes s⟩

/-- With two connections and a granularity of `2 ^ 63`, twice the granularity is no `u64`. -/
theorem sums_overflow : ¬∀ (c : Coordinator) (total : ℕ), total ≤ i64Max → SumsFit c total := by
  intro hclaim
  let c : Coordinator :=
    ⟨⟨2, 2, 2 ^ 63, 1, 1, Sample.retry, by decide, by decide⟩, 0, false, by decide, by decide⟩
  have := minSegment_lt_of_sumsFit Nat.one_ne_zero (by decide) (hclaim c 1 (by decide))
  exact absurd this (by decide)

end Session

end Fhd
