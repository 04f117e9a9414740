import FhdEngine.Runtime.SplitSums

/-!
# How long a lease gets

A lease is meant to be at most one bounded piece (`CoordinatorConfig.leaseBound`), so that a connection that
fails loses little. What `cap_lease` offers is, unless the map is full. What `next_pending` offers when it halves
the largest pending piece is the right half, however long it is: `LongHalf` says of a session when that is
longer than a lease is meant to be, and `lease_bounded_iff` that there is no other way to get such a lease.
-/

namespace Fhd

open Process (Ends)
open Session (Halves Picked Unhalved capAt middle nextPending nextPending_picked pendingSegments)

/-- The longest piece that is to be leased: a checkpoint's worth, on the grid. -/
def CoordinatorConfig.leaseBound (c : CoordinatorConfig) : ℕ :=
  roundUp (max c.checkpointBytes c.minSegment) c.minSegment

/-- **A bounded lease**, or a full map. -/
def Taken.Bounded (c : Coordinator) (x : Taken) : Prop :=
  x.lease.range.len ≤ c.config.leaseBound ∨ x.map.segments.length = x.map.maximum

/-- Idle connections outnumber the pending pieces, there is room for more than one piece, and the right half of
the largest pending piece is longer than a lease is to be. -/
def Session.LongHalf (c : Coordinator) (s : Session) : Prop :=
  ∃ m largest, s.job.segments = some m ∧ maxByKey (·.range.len) (pendingSegments s.job) = some largest ∧
    (pendingSegments s.job).length < s.connections - s.workers.length ∧
    m.segments.length + 1 < m.maximum ∧
    c.config.leaseBound <
      largest.range.stop - (largest.range.start + roundUp (largest.range.len / 2) c.config.minSegment)

section

variable {c : Coordinator} {total : ℕ} {w : Work} {m m' : SegmentMap} {s : Session}

theorem leaseCap_le (c : CoordinatorConfig) : c.leaseCap ≤ c.leaseBound := Nat.mod_le _ _

theorem minSegment_le_leaseBound (c : Coordinator) : c.config.minSegment ≤ c.config.leaseBound :=
  (le_max_right _ _).trans (le_roundUp (Session.minSegment_pos c))

/-- A cut is refused for want of room only where there is none. -/
theorem SegmentMap.full_of_capacity {id : SegmentId} {at' : ℕ}
    (hcut : m.splitPending id at' = (.error .capacity, m')) : m.segments.length = m.maximum := by
  have herror := congrArg Prod.fst hcut
  unfold splitPending at herror
  split at herror
  next e he =>
    unfold index at he
    split at he <;> cases he
    cases herror
  next i hi =>
    split at herror
    · cases herror
    split at herror
    next hfull => exact hfull
    · split at herror
      next e he =>
        obtain ⟨rfl, -⟩ := ByteRange.split_eq_error he
        cases herror
      · split at herror <;> cases herror

/-- What a cut makes of a map: one piece more, and the piece that was cut in two. -/
theorem SegmentMap.splitPending_pieces {t : Segment} {right : SegmentId} {at' : ℕ} (hinv : m.Inv)
    (ht : t ∈ m.segments) (hcut : m.splitPending t.id at' = (.ok right, m')) :
    m'.segments.length = m.segments.length + 1 ∧ m'.maximum = m.maximum ∧
      t.range.start < at' ∧ at' < t.range.stop ∧
      (∃ l : ByteRange, l.start = t.range.start ∧ l.stop = at' ∧ { t with range := l } ∈ m'.segments) ∧
      ∃ r : ByteRange, r.start = at' ∧ r.stop = t.range.stop ∧ ⟨right, r, .pending⟩ ∈ m'.segments := by
  rcases m.splitPending_cases t.id at' with ⟨e, he⟩ | ⟨pre, u, post, l, r, hseg, hid, -, -, hsplit, heq⟩
  · exact nomatch congrArg Prod.fst (hcut.symm.trans he)
  · obtain rfl : u = t := SegmentMap.eq_of_id_eq hinv.ids_nodup (by rw [hseg]; simp) ht hid
    obtain rfl := congrArg Prod.snd (hcut.symm.trans heq)
    obtain rfl := Except.ok.inj (congrArg Prod.fst (hcut.symm.trans heq))
    obtain ⟨hl₁, hl₂, hr₁, hr₂⟩ := ByteRange.split_eq_ok hsplit
    have hl := l.start_lt
    have hr := r.start_lt
    refine ⟨?_, rfl, by omega, by omega, ⟨l, hl₁, hl₂, by simp⟩, r, hr₁, hr₂, by simp⟩
    rw [hseg]
    simp only [List.length_append, List.length_cons]
    omega

/-- The lease of a piece is its range, and makes no other piece. -/
theorem SegmentMap.lease_range {t : Segment} {worker : ℕ} {l : Lease} (hinv : m.Inv) (ht : t ∈ m.segments)
    (hlease : m.lease t.id worker = (.ok l, m')) :
    l.range = t.range ∧ m'.segments.length = m.segments.length ∧ m'.maximum = m.maximum := by
  rcases m.lease_cases t.id worker with ⟨e, he⟩ | ⟨pre, u, post, hseg, hid, -, heq⟩
  · exact nomatch congrArg Prod.fst (hlease.symm.trans he)
  · obtain rfl : u = t := SegmentMap.eq_of_id_eq hinv.ids_nodup (by rw [hseg]; simp) ht hid
    obtain rfl := congrArg Prod.snd (hlease.symm.trans heq)
    obtain rfl := Except.ok.inj (congrArg Prod.fst (hlease.symm.trans heq))
    exact ⟨rfl, by rw [hseg]; simp, rfl⟩

/-! ### Where the largest piece is halved -/

/-- **A middle that is inside** was computed without overflow. -/
theorem middle_exact {range : ByteRange}
    (hinside : range.start < middle c range ∧ middle c range < range.stop) :
    middle c range = range.start + roundUp (range.len / 2) c.config.minSegment := by
  have hpos := Session.minSegment_pos c
  have hle := c.config.minSegment_le
  have hlt := roundUp_lt (n := range.len / 2) hpos
  have hlen : range.len = range.stop - range.start := rfl
  have hstop := range.stop_le
  unfold i64Max at hstop
  unfold u64Max at hle
  have hround : roundUp (range.len / 2) c.config.minSegment < 2 ^ 64 := by
    by_cases hshort : range.len / 2 ≤ c.config.minSegment
    · have := roundUp_le_unit hpos hshort
      omega
    · omega
  unfold middle at hinside ⊢
  rw [Session.wrap64_of_lt hround] at hinside ⊢
  by_cases hsum : range.start + roundUp (range.len / 2) c.config.minSegment < 2 ^ 64
  · exact Session.wrap64_of_lt hsum
  · -- a sum that overflows is before the start
    have hwrap : wrap64 (range.start + roundUp (range.len / 2) c.config.minSegment) =
        range.start + roundUp (range.len / 2) c.config.minSegment - 2 ^ 64 := by
      unfold wrap64
      omega
    omega

/-- **A right half that is longer than the granularity** is what the largest piece is halved for. -/
theorem halves_of_long {largest : Segment}
    (hidle : (pendingSegments s.job).length < s.connections - s.workers.length)
    (hlong : c.config.leaseBound <
      largest.range.stop - (largest.range.start + roundUp (largest.range.len / 2) c.config.minSegment)) :
    Halves c s largest ∧ largest.range.start < middle c largest.range ∧
      middle c largest.range < largest.range.stop := by
  have hpos := Session.minSegment_pos c
  have hunit := minSegment_le_leaseBound c
  have hge := le_roundUp (n := largest.range.len / 2) hpos
  have hlen : largest.range.len = largest.range.stop - largest.range.start := rfl
  have hstop := largest.range.stop_le
  unfold i64Max at hstop
  have hround : roundUp (largest.range.len / 2) c.config.minSegment < 2 ^ 64 := by omega
  have hmiddle : middle c largest.range =
      largest.range.start + roundUp (largest.range.len / 2) c.config.minSegment := by
    rw [middle, Session.wrap64_of_lt hround, Session.wrap64_of_lt (by omega)]
  have htwice : wrap64 (2 * c.config.minSegment) = 2 * c.config.minSegment :=
    Session.wrap64_of_lt (by omega)
  rw [Halves, hmiddle, htwice]
  exact ⟨⟨hidle, by omega, by omega⟩, by omega, by omega⟩

/-- Where nothing was halved, there is no long right half. -/
theorem not_longHalf_of_unhalved (hm : s.job.segments = some m) (hwhy : Unhalved c s m) : ¬s.LongHalf c := by
  rintro ⟨m₀, largest, hm₀, hlargest, hidle, hroom, hlong⟩
  obtain rfl := Option.some.inj (hm.symm.trans hm₀)
  have := SegmentMap.full_of_capacity (hwhy largest hlargest (halves_of_long hidle hlong).1)
  omega

/-- What `cap_lease` offers is bounded, unless the map is full. -/
theorem capAt_exact {range : ByteRange} (hlong : c.config.leaseCap < range.len) :
    capAt c range = range.start + c.config.leaseCap := by
  have hlen : range.len = range.stop - range.start := rfl
  have hstop := range.stop_le
  unfold i64Max at hstop
  exact Session.wrap64_of_lt (by omega)

/-- **Step lemma.** -/
theorem bounded_iff_of_lease (h : Planned c total w) (hsees : s.Sees w) {id : SegmentId} {worker : ℕ}
    {s' : Session} {l : Lease} (hnext : Ends (nextPending c) s (.ok (some id)) s')
    (hm : s'.job.segments = some m) (hlease : m.lease id worker = (.ok l, m')) :
    Taken.Bounded c ⟨s, l, m'⟩ ↔ ¬s.LongHalf c := by
  obtain ⟨r, m₁, hends, hpicked⟩ := nextPending_picked (c := c) h.inv hsees.state hsees.segments
  obtain ⟨rfl, rfl⟩ := hends.unique hnext
  obtain rfl := Option.some.inj hm
  have hinv := (hpicked.kept h.inv).1
  have hmem : ∀ {t : Segment}, t ∈ pendingSegments s.job → t ∈ w.map.segments := fun ht ↦
    (Session.mem_of_pending hsees.segments ht).1
  have hcap := leaseCap_le c.config
  cases hpicked with
  | @halved largest _ _ hlargest hhalves hcut =>
    obtain ⟨hlength, hmaximum, hlo, hhi, -, r, hr₁, hr₂, hr⟩ :=
      SegmentMap.splitPending_pieces h.inv (hmem (mem_of_maxByKey hlargest)) hcut
    obtain ⟨hrange, hlength', hmaximum'⟩ := SegmentMap.lease_range hinv hr hlease
    have hrange : l.range = r := hrange
    rw [middle_exact ⟨hlo, hhi⟩] at hr₁
    have hroom := hinv.length_le
    rw [Taken.Bounded, hrange, ByteRange.len, hlength', hmaximum', hlength, hmaximum]
    constructor
    · rintro hbounded ⟨m₀, largest₀, hm₀, hlargest₀, -, hfree, hlong⟩
      obtain rfl := Option.some.inj (hsees.segments.symm.trans hm₀)
      obtain rfl := Option.some.inj (hlargest.symm.trans hlargest₀)
      omega
    · intro hnot
      by_contra hlong
      exact hnot ⟨_, largest, hsees.segments, hlargest, hhalves.1, by omega, by omega⟩
  | @whole first hfirst hwhy hshort =>
    refine iff_of_true ?_ (not_longHalf_of_unhalved hsees.segments hwhy)
    obtain ⟨hrange, hlength, hmaximum⟩ :=
      SegmentMap.lease_range h.inv (hmem (List.mem_of_head? hfirst)) hlease
    rw [Taken.Bounded, hrange, hlength, hmaximum]
    exact hshort.imp (·.trans hcap) SegmentMap.full_of_capacity
  | @capped first _ _ hfirst hwhy hlong hcut =>
    refine iff_of_true (Or.inl ?_) (not_longHalf_of_unhalved hsees.segments hwhy)
    obtain ⟨-, -, -, -, ⟨left, hl₁, hl₂, hl⟩, -⟩ :=
      SegmentMap.splitPending_pieces h.inv (hmem (List.mem_of_head? hfirst)) hcut
    obtain ⟨hrange, -⟩ := SegmentMap.lease_range (t := { first with range := left }) hinv hl hlease
    have hrange : l.range = left := hrange
    rw [hrange, ByteRange.len, hl₁, hl₂, capAt_exact hlong]
    omega

/-- **Leases are bounded, except where a long piece is halved.** Over the whole life of a plan, a lease is at most
`leaseBound` long, or the map is full, if and only if it was not the long right half of the largest pending
piece. -/
theorem lease_bounded_iff (hw : Works c total w) :
    ∀ x ∈ w.taken, Taken.Bounded c x ↔ ¬x.session.LongHalf c := by
  induction hw with
  | fresh _ _ _ =>
    intro x hx
    cases hx
  | begin _ _ _ _ _ ih => exact ih
  | @lease w s s' id m m' worker l hw _ hsees _ hnext hm hlease ih =>
    have hlast := bounded_iff_of_lease hw.planned hsees hnext hm hlease
    intro x hx
    rcases List.mem_cons.1 hx with heq | hx
    · rw [heq]
      exact hlast
    · exact ih x hx
  | settle _ _ _ ih => exact ih
  | checkpoint _ _ ih => exact ih
  | commit _ _ _ ih => exact ih
  | resume _ _ _ ih => exact ih
  | restart _ _ _ _ ih => exact ih

end

namespace Sample

/-! Of eight bytes the first is leased to the only connection and committed. The engine starts again, and there
are two connections. -/

theorem zero_lt_eight : 0 < 8 := by decide
theorem one_lt_eight : 1 < 8 := by decide
theorem one_lt_four : 1 < 4 := by decide
theorem four_lt_eight : 4 < 8 := by decide

def eightBytes : SegmentMap :=
  ⟨⟨1, Nat.one_ne_zero⟩, .initial, 8, 8, [⟨⟨1⟩, ⟨0, 8, zero_lt_eight, eight_le_i64Max⟩, .pending⟩], 2, 1, 1, none⟩

/-- The first byte was cut off. -/
def firstCut (state : SegmentState) (attempt : ℕ) : SegmentMap :=
  { eightBytes with
    segments := [⟨⟨1⟩, firstByte, state⟩, ⟨⟨2⟩, ⟨1, 8, one_lt_eight, eight_le_i64Max⟩, .pending⟩]
    nextId := 3
    nextAttempt := attempt }

def firstLease : Lease := ⟨⟨1, Nat.one_ne_zero⟩, .initial, ⟨1⟩, 1, 1, firstByte⟩

theorem first_leased :
    ∃ taken, Works bytewise 8 ⟨firstCut (.inFlight 1 1) 2, 1, true, [firstLease], [], taken⟩ := by
  have hnew : SegmentMap.new ⟨1, Nat.one_ne_zero⟩ .initial 8 8 = .ok eightBytes := rfl
  have hfresh : Works bytewise 8 ⟨eightBytes, 1, false, [], [], []⟩ :=
    .fresh hnew ⟨le_rfl, by decide⟩ (Or.inl rfl)
  have hsplit : Ends (Session.initialSplit bytewise) (Work.session ⟨eightBytes, 1, false, [], [], []⟩) (.ok ())
      (Work.session ⟨eightBytes, 1, false, [], [], []⟩) := rfl
  have hbegun := hfresh.begin rfl (Work.session_sees _) hsplit rfl
  have hnext : Ends (nextPending bytewise) (Work.session ⟨eightBytes, 1, true, [], [], []⟩) (.ok (some ⟨1⟩))
      ((Work.session ⟨eightBytes, 1, true, [], [], []⟩).withMap (firstCut .pending 1)) := rfl
  have hlease : (firstCut .pending 1).lease ⟨1⟩ 1 = (.ok firstLease, firstCut (.inFlight 1 1) 2) := rfl
  exact ⟨_, hbegun.lease rfl (Work.session_sees _) Nat.zero_lt_one hnext rfl hlease⟩

/-- The ranges of the first checkpoint, and what it selects. -/
def firstTicket : SyncTicket := ⟨⟨1, Nat.one_ne_zero⟩, .initial, 1, [firstByte], [(⟨1⟩, firstByte, 1)]⟩

theorem first_stored : ∃ m taken, Works bytewise 8 ⟨m, 1, true, [], [firstByte], taken⟩ ∧
    m.job = ⟨1, Nat.one_ne_zero⟩ ∧ m.generation = .initial ∧ m.maximum = 8 := by
  obtain ⟨taken, hw⟩ := first_leased
  have hwritten := hw.settle (m := firstCut (.written 1) 2) List.mem_cons_self (Or.inl rfl)
  have hprepared := hwritten.checkpoint (show SegmentMap.Op.prepareSync.Settles from trivial)
  have hsynced := hprepared.checkpoint (show (SegmentMap.Op.acknowledgeSync firstTicket).Settles from trivial)
  exact ⟨_, taken, hsynced.commit rfl rfl, rfl, rfl, rfl⟩

/-- What is left was halved. -/
def restHalved (state : SegmentState) (attempt : ℕ) : SegmentMap :=
  { eightBytes with
    segments := [⟨⟨1⟩, firstByte, .durable⟩, ⟨⟨2⟩, ⟨1, 4, one_lt_four, four_le_i64Max⟩, .pending⟩,
      ⟨⟨3⟩, ⟨4, 8, four_lt_eight, eight_le_i64Max⟩, state⟩]
    nextId := 4
    nextAttempt := attempt }

def rightHalf : Lease := ⟨⟨1, Nat.one_ne_zero⟩, .initial, ⟨3⟩, 1, 1, ⟨4, 8, four_lt_eight, eight_le_i64Max⟩⟩

/-- Four bytes, in a map with room for five pieces more. -/
theorem right_half_unbounded (s : Session) :
    ¬Taken.Bounded bytewise ⟨s, rightHalf, restHalved (.inFlight 1 1) 2⟩ := by
  show ¬(rightHalf.range.len ≤ bytewise.config.leaseBound ∨
    (restHalved (.inFlight 1 1) 2).segments.length = (restHalved (.inFlight 1 1) 2).maximum)
  decide

theorem right_half_leased : ∃ w s, Works bytewise 8 w ∧ ⟨s, rightHalf, restHalved (.inFlight 1 1) 2⟩ ∈ w.taken := by
  obtain ⟨m, taken, hw, hjob, hgeneration, hmaximum⟩ := first_stored
  have hrestore : SegmentMap.restore m.job m.generation 8 m.maximum [firstByte] = .ok (firstCut .durable 1) := by
    rw [hjob, hgeneration, hmaximum]
    rfl
  have hgrant : bytewise.Grants 2 := ⟨by decide, by decide⟩
  have hrestarted := hw.restart (fun _ ↦ id) hgrant hrestore
  have hsplit : Ends (Session.initialSplit bytewise)
      (Work.session ⟨firstCut .durable 1, 2, false, [], [firstByte], taken⟩) (.ok ())
      (Work.session ⟨firstCut .durable 1, 2, false, [], [firstByte], taken⟩) := rfl
  have hbegun := hrestarted.begin rfl (Work.session_sees _) hsplit rfl
  have hnext : Ends (nextPending bytewise) (Work.session ⟨firstCut .durable 1, 2, true, [], [firstByte], taken⟩)
      (.ok (some ⟨3⟩)) ((Work.session ⟨firstCut .durable 1, 2, true, [], [firstByte], taken⟩).withMap
        (restHalved .pending 1)) := rfl
  have hlease : (restHalved .pending 1).lease ⟨3⟩ 1 = (.ok rightHalf, restHalved (.inFlight 1 1) 2) := rfl
  exact ⟨_, _, hbegun.lease rfl (Work.session_sees _) Nat.zero_lt_two hnext rfl hlease, List.mem_cons_self⟩

end Sample

open Sample in
theorem lease_bounded_iff_right_half : ∃ w s, Works bytewise 8 w ∧
    ⟨s, rightHalf, restHalved (.inFlight 1 1) 2⟩ ∈ w.taken ∧ s.LongHalf bytewise := by
  obtain ⟨w, s, hw, hx⟩ := right_half_leased
  refine ⟨w, s, hw, hx, not_not.1 fun hnot ↦ ?_⟩
  exact right_half_unbounded s ((lease_bounded_iff hw _ hx).2 hnot)

open Sample in
/-- A lease of four bytes, where a byte at a time was meant. -/
theorem lease_unbounded : ¬∀ (c : Coordinator) (total : ℕ) (w : Work), Works c total w →
    ∀ x ∈ w.taken, Taken.Bounded c x := by
  intro hclaim
  obtain ⟨w, s, hw, hx⟩ := right_half_leased
  exact right_half_unbounded s (hclaim bytewise 8 w hw _ hx)

end Fhd
