import FhdEngine.Runtime.SessionWork

/-!
# Where a plan is cut

`initial_split`, `next_pending` and `cap_lease` call nothing, so each ends in a session that differs from
the one before in its map only. `Picked` says everything `next_pending` may make of a map, and
`initialSplit_ends` what becomes of a fresh plan: equal pieces, and a rest.

A cut is **on the grid** if it is a multiple of the split granularity, or the end of the plan. All three
routines round what they add to a start that is on the grid, so as long as their sums fit in a word
(`CoordinatorConfig.SplitsFit`) every cut is on the grid again.
-/

namespace Fhd

open Process (Ends)

/-! ### Rounding up -/

/-- A number rounded up to a multiple of the unit. -/
def roundUp (n unit : ℕ) : ℕ := divCeil n unit * unit

section RoundUp

variable {n unit : ℕ}

theorem dvd_roundUp (n unit : ℕ) : unit ∣ roundUp n unit := Dvd.intro_left _ rfl

theorem le_roundUp (hunit : 0 < unit) : n ≤ roundUp n unit := Session.le_divCeil_mul hunit

theorem roundUp_lt (hunit : 0 < unit) : roundUp n unit < n + unit := Session.divCeil_mul_lt hunit

/-- What is no longer than the unit is rounded up to it. -/
theorem roundUp_le_unit (hunit : 0 < unit) (hle : n ≤ unit) : roundUp n unit ≤ unit := by
  have hlt := roundUp_lt (n := n) hunit
  obtain ⟨k, hk⟩ := dvd_roundUp n unit
  rcases Nat.lt_or_ge k 2 with hk₂ | hk₂
  · rw [hk]
    exact (Nat.mul_le_mul_left unit (by omega : k ≤ 1)).trans (by omega)
  · have := Nat.mul_le_mul_left unit hk₂
    omega

end RoundUp

/-- **The sizes of a configuration fit the arithmetic that is done with them**: twice the split granularity,
wherever it is computed, and the longest lease. -/
def CoordinatorConfig.SplitsFit (c : CoordinatorConfig) : Prop :=
  (c.connections = 1 ∨ c.minSegment < 2 ^ 63) ∧
    roundUp (max c.checkpointBytes c.minSegment) c.minSegment < 2 ^ 64

instance (c : CoordinatorConfig) : Decidable c.SplitsFit := inferInstanceAs (Decidable (_ ∧ _))

theorem CoordinatorConfig.leaseCap_eq {c : CoordinatorConfig} (hfit : c.SplitsFit) :
    c.leaseCap = roundUp (max c.checkpointBytes c.minSegment) c.minSegment :=
  Session.wrap64_of_lt hfit.2

/-- A cut of a transferring job is the cut of its map. -/
theorem Job.splitPending_eq {j : Job} {m m' : SegmentMap} {id : SegmentId} {at' : ℕ}
    {r : Except DomainError SegmentId} (hstate : j.state = .transferring) (hm : j.segments = some m)
    (heq : m.splitPending id at' = (r, m')) :
    j.splitPending id at' = (r, { j with segments := some m' }) := by
  rw [Job.splitPending, if_neg (by simp [hstate]), Job.onMap_eq (by rw [hstate]; rfl) hm heq]

/-! ### Cuts on the grid -/

/-- **Cut on the grid**, any number of times. -/
inductive SegmentMap.Cuts (unit : ℕ) (m : SegmentMap) : SegmentMap → Prop
  | refl : Cuts unit m m
  | cut {m' m'' : SegmentMap} {id right : SegmentId} {at' : ℕ} (hcuts : Cuts unit m m')
      (hgrid : unit ∣ at') (hcut : m'.splitPending id at' = (.ok right, m'')) : Cuts unit m m''

/-- **Equal pieces**, and a rest. -/
def SegmentMap.Even (size : ℕ) (m : SegmentMap) : Prop :=
  ∃ pre t, m.segments = pre ++ [t] ∧ t.range.start = pre.length * size ∧ ∀ x ∈ pre, x.range.len = size

/-- Identifiers are numbered as segments are made. -/
def SegmentMap.Numbered (m : SegmentMap) : Prop := m.nextId ≤ m.segments.length + 2

theorem SegmentMap.Numbered.room {m : SegmentMap} (hnumbered : m.Numbered) (hinv : m.Inv) : m.nextId + 1 ≤ u64Max := by
  have hlength := hinv.length_le
  have hmaximum := hinv.maximum_le
  unfold SegmentMap.Numbered at hnumbered
  unfold Fhd.maxSegments at hmaximum
  unfold u64Max
  omega

theorem SegmentMap.Cuts.trans {unit : ℕ} {m m' m'' : SegmentMap} (h : m.Cuts unit m')
    (h' : m'.Cuts unit m'') : m.Cuts unit m'' := by
  induction h' with
  | refl => exact h
  | cut _ hgrid hcut ih => exact ih.cut hgrid hcut

/-- What a cut leaves of a map. -/
theorem SegmentMap.splitPending_kept {m m' : SegmentMap} {id right : SegmentId} {at' : ℕ}
    (hcut : m.splitPending id at' = (.ok right, m')) (hinv : m.Inv) :
    m'.Inv ∧ m'.total = m.total ∧ m'.maximum = m.maximum ∧
      (m.Numbered → m'.Numbered) ∧ ∀ t ∈ m'.segments, t ∈ m.segments ∨ t.state = .pending := by
  have hkeeps := (SegmentMap.keeps_splitPending m id at').inv hinv
  rcases m.splitPending_cases id at' with ⟨e, he⟩ | ⟨pre, t, post, l, r, hseg, -, hpend, -, -, heq⟩
  · exact nomatch congrArg Prod.fst (hcut.symm.trans he)
  · obtain rfl := congrArg Prod.snd (hcut.symm.trans heq)
    rw [heq] at hkeeps
    refine ⟨hkeeps, rfl, rfl, fun hnumbered ↦ ?_, fun u hu ↦ ?_⟩
    · unfold SegmentMap.Numbered at hnumbered ⊢
      rw [hseg] at hnumbered
      simp only [List.length_append, List.length_cons] at hnumbered ⊢
      omega
    · rw [hseg]
      rcases List.mem_append.1 hu with hu | hu
      · exact Or.inl (List.mem_append_left _ hu)
      · rcases List.mem_cons.1 hu with rfl | hu
        · exact Or.inr hpend
        · rcases List.mem_cons.1 hu with rfl | hu
          · exact Or.inr rfl
          · exact Or.inl (List.mem_append_right _ (List.mem_cons_of_mem _ hu))

theorem SegmentMap.Cuts.kept {unit : ℕ} {m m' : SegmentMap} (h : m.Cuts unit m') (hinv : m.Inv) :
    m'.Inv ∧ m'.total = m.total ∧ m'.maximum = m.maximum ∧
      (m.Numbered → m'.Numbered) ∧ ∀ t ∈ m'.segments, t ∈ m.segments ∨ t.state = .pending := by
  induction h with
  | refl => exact ⟨hinv, rfl, rfl, id, fun _ ↦ Or.inl⟩
  | cut _ _ hcut ih =>
    obtain ⟨hinv', htotal, hmaximum, hnumbered, hmem⟩ := ih
    obtain ⟨hinv'', htotal', hmaximum', hnumbered', hmem'⟩ := splitPending_kept hcut hinv'
    exact ⟨hinv'', htotal'.trans htotal, hmaximum'.trans hmaximum, hnumbered' ∘ hnumbered,
      fun t ht ↦ (hmem' t ht).elim (hmem t) Or.inr⟩

/-- Cuts give out no attempts. -/
theorem SegmentMap.Cuts.nextAttempt {unit : ℕ} {m m' : SegmentMap} (h : m.Cuts unit m') :
    m'.nextAttempt = m.nextAttempt := by
  induction h with
  | refl => rfl
  | @cut m' _ id _ at' _ _ hcut ih =>
    rcases m'.splitPending_cases id at' with ⟨e, he⟩ | ⟨_, _, _, _, _, _, _, _, _, _, heq⟩
    · exact nomatch congrArg Prod.fst (hcut.symm.trans he)
    · obtain rfl := congrArg Prod.snd (hcut.symm.trans heq)
      exact ih

namespace Session

variable {c : Coordinator} {s : Session} {m m' : SegmentMap} {id right : SegmentId} {at' : ℕ}

/-! ### One cut -/

theorem domain_ends {α : Type} {f : Job → Except DomainError α × Job} {a : α} {job : Job}
    (heq : f s.job = (.ok a, job)) : Ends (domain f) s (.ok a) { s with job } := by
  show (domain f).run s = _
  rw [domain, ExceptT.run_mk, heq]

theorem splitPending_ends (hstate : s.job.state = .transferring) (hm : s.job.segments = some m)
    (heq : m.splitPending id at' = (.ok right, m')) :
    Ends (splitPending id at') s (.ok (some right)) (s.withMap m') := by
  refine Ends.get ?_
  rw [Job.splitPending_eq hstate hm heq]
  rfl

/-- A full map is left as it is. -/
theorem splitPending_ends_full (hstate : s.job.state = .transferring) (hm : s.job.segments = some m)
    (heq : m.splitPending id at' = (.error .capacity, m)) :
    Ends (splitPending id at') s (.ok none) (s.withMap m) := by
  refine Ends.get ?_
  rw [Job.splitPending_eq hstate hm heq]
  rfl

theorem splitPending_ends_error {e : DomainError} (hstate : s.job.state = .transferring)
    (hm : s.job.segments = some m) (heq : m.splitPending id at' = (.error e, m)) (he : e ≠ .capacity) :
    Ends (splitPending id at') s (.error (.domain e)) (s.withMap m) := by
  refine Ends.get ?_
  rw [Job.splitPending_eq hstate hm heq]
  cases e <;> first | exact absurd rfl he | rfl

/-! ### The next piece to lease -/

/-- Where the largest pending piece is halved. -/
def middle (c : Coordinator) (range : ByteRange) : ℕ :=
  wrap64 (range.start + wrap64 (roundUp (range.len / 2) c.config.minSegment))

/-- Idle connections outnumber the pending pieces, and the largest piece is long enough to be halved. -/
def Halves (c : Coordinator) (s : Session) (largest : Segment) : Prop :=
  (pendingSegments s.job).length < s.connections - s.workers.length ∧
    largest.range.len ≥ wrap64 (2 * c.config.minSegment) ∧ middle c largest.range < largest.range.stop

/-- Nothing was halved: it was not to be, or the map is full. -/
def Unhalved (c : Coordinator) (s : Session) (m : SegmentMap) : Prop :=
  ∀ largest, maxByKey (·.range.len) (pendingSegments s.job) = some largest → Halves c s largest →
    m.splitPending largest.id (middle c largest.range) = (.error .capacity, m)

/-- Where a piece is cut that is longer than a lease may be. -/
def capAt (c : Coordinator) (range : ByteRange) : ℕ := wrap64 (range.start + c.config.leaseCap)

/-- **Everything `next_pending` can do** with a map. -/
inductive Picked (c : Coordinator) (s : Session) (m : SegmentMap) :
    Except RunError (Option SegmentId) → SegmentMap → Prop
  | nothing (hnone : pendingSegments s.job = []) : Picked c s m (.ok none) m
  | halved {largest : Segment} {right : SegmentId} {m' : SegmentMap}
      (hlargest : maxByKey (·.range.len) (pendingSegments s.job) = some largest)
      (hhalves : Halves c s largest)
      (hcut : m.splitPending largest.id (middle c largest.range) = (.ok right, m')) :
      Picked c s m (.ok (some right)) m'
  | unhalvable {largest : Segment} {e : DomainError}
      (hlargest : maxByKey (·.range.len) (pendingSegments s.job) = some largest)
      (hhalves : Halves c s largest)
      (hcut : m.splitPending largest.id (middle c largest.range) = (.error e, m)) (he : e ≠ .capacity) :
      Picked c s m (.error (.domain e)) m
  | whole {first : Segment} (hfirst : (pendingSegments s.job).head? = some first) (hwhy : Unhalved c s m)
      (hshort : first.range.len ≤ c.config.leaseCap ∨
        m.splitPending first.id (capAt c first.range) = (.error .capacity, m)) :
      Picked c s m (.ok (some first.id)) m
  | capped {first : Segment} {right : SegmentId} {m' : SegmentMap}
      (hfirst : (pendingSegments s.job).head? = some first) (hwhy : Unhalved c s m)
      (hlong : c.config.leaseCap < first.range.len)
      (hcut : m.splitPending first.id (capAt c first.range) = (.ok right, m')) :
      Picked c s m (.ok (some first.id)) m'
  | uncappable {first : Segment} {e : DomainError} (hfirst : (pendingSegments s.job).head? = some first)
      (hlong : c.config.leaseCap < first.range.len)
      (hcut : m.splitPending first.id (capAt c first.range) = (.error e, m)) (he : e ≠ .capacity) :
      Picked c s m (.error (.domain e)) m

theorem mem_of_pending (hm : s.job.segments = some m) {t : Segment} (ht : t ∈ pendingSegments s.job) :
    t ∈ m.segments ∧ t.state = .pending := by
  obtain ⟨m₀, hm₀, hmem, hpend⟩ := mem_of_pendingSegments ht
  obtain rfl := Option.some.inj (hm.symm.trans hm₀)
  exact ⟨hmem, hpend⟩

/-- A refused cut leaves the map alone. -/
theorem splitPending_error {e : DomainError} (heq : m.splitPending id at' = (.error e, m')) : m' = m := by
  rcases m.splitPending_cases id at' with ⟨e', he⟩ | ⟨_, _, _, _, _, _, _, _, _, _, hok⟩
  · exact (congrArg Prod.snd (heq.symm.trans he))
  · exact nomatch congrArg Prod.fst (heq.symm.trans hok)

/-- `cap_lease` of the first pending piece. -/
theorem capLease_picked (hinv : m.Inv) (hstate : s.job.state = .transferring) (hm : s.job.segments = some m)
    {first : Segment} (hfirst : (pendingSegments s.job).head? = some first) (hwhy : Unhalved c s m) :
    ∃ r m', Ends (some <$> capLease c first.id) s r (s.withMap m') ∧ Picked c s m r m' := by
  obtain ⟨hmem, hpend⟩ := mem_of_pending hm (List.mem_of_head? hfirst)
  have hfind : m.segments.find? (·.id = first.id) = some first := by
    cases hf : m.segments.find? (·.id = first.id) with
    | none =>
      have := List.find?_eq_none.1 hf first hmem
      simp at this
    | some t =>
      exact congrArg some (SegmentMap.eq_of_id_eq hinv.ids_nodup (List.mem_of_find?_eq_some hf) hmem
        (by simpa using List.find?_some hf))
  have hsame : s.withMap m = s := withMap_self hm
  by_cases hlong : c.config.leaseCap < first.range.len
  · have hcap : ∀ {r : Option SegmentId} {m' : SegmentMap},
        Ends (splitPending first.id (capAt c first.range)) s (.ok r) (s.withMap m') →
        Ends (capLease c first.id) s (.ok first.id) (s.withMap m') := by
      intro r m' hends
      refine Ends.get ?_
      simp only [hm, Option.elim_some, hfind]
      rw [if_pos (by exact hlong)]
      exact Ends.bind hends Ends.pure
    cases hcut : m.splitPending first.id (capAt c first.range) with
    | mk r m' =>
      cases r with
      | ok right =>
        exact ⟨_, m', Ends.map (hcap (splitPending_ends hstate hm hcut)), .capped hfirst hwhy hlong hcut⟩
      | error e =>
        obtain rfl := splitPending_error hcut
        by_cases he : e = .capacity
        · subst he
          exact ⟨_, _, Ends.map (hcap (splitPending_ends_full hstate hm hcut)),
            .whole hfirst hwhy (Or.inr hcut)⟩
        · refine ⟨_, _, Ends.map_error (Ends.get ?_), .uncappable hfirst hlong hcut he⟩
          simp only [hm, Option.elim_some, hfind]
          rw [if_pos (by exact hlong)]
          exact Ends.bind_error (splitPending_ends_error hstate hm hcut he)
  · refine ⟨_, m, Ends.map (Ends.get ?_), .whole hfirst hwhy (Or.inl (Nat.le_of_not_lt hlong))⟩
    simp only [hm, Option.elim_some, hfind]
    rw [if_neg (by exact hlong), hsame]
    exact Ends.pure

theorem maxByKey_isSome {α : Type*} (key : α → ℕ) {l : List α} (hne : l ≠ []) :
    ∃ x, maxByKey key l = some x := by
  cases l with
  | nil => exact absurd rfl hne
  | cons x l => exact ⟨_, rfl⟩

/-- `next_pending` where the largest segment is to be halved. -/
theorem nextPending_halves {first largest : Segment} {r : Except RunError (Option SegmentId)} {t : Session}
    (hfirst : (pendingSegments s.job).head? = some first)
    (hlargest : maxByKey (·.range.len) (pendingSegments s.job) = some largest)
    (hhalves : Halves c s largest)
    (hends : Ends (do
      match ← splitPending largest.id (middle c largest.range) with
      | some right => pure (some right)
      | none => some <$> capLease c first.id) s r t) : Ends (nextPending c) s r t := by
  refine Ends.get ?_
  simp only [hfirst, hlargest]
  rw [if_pos (by exact hhalves)]
  exact hends

/-- **`next_pending` always ends**, and in one of these ways. -/
theorem nextPending_picked (hinv : m.Inv) (hstate : s.job.state = .transferring)
    (hm : s.job.segments = some m) :
    ∃ r m', Ends (nextPending c) s r (s.withMap m') ∧ Picked c s m r m' := by
  cases hpending : pendingSegments s.job with
  | nil =>
    refine ⟨_, m, Ends.get ?_, .nothing hpending⟩
    rw [hpending, withMap_self hm]
    exact Ends.pure
  | cons first rest =>
    have hfirst : (pendingSegments s.job).head? = some first := by rw [hpending]; rfl
    obtain ⟨largest, hlargest⟩ := maxByKey_isSome (fun t : Segment ↦ t.range.len)
      (l := pendingSegments s.job) (by rw [hpending]; exact (by rintro ⟨⟩))
    by_cases hhalves : Halves c s largest
    · have hnext {r t} := nextPending_halves (r := r) (t := t) hfirst hlargest hhalves
      cases hcut : m.splitPending largest.id (middle c largest.range) with
      | mk r m' =>
        cases r with
        | ok right =>
          exact ⟨_, m', hnext (Ends.bind (splitPending_ends hstate hm hcut) Ends.pure),
            .halved hlargest hhalves hcut⟩
        | error e =>
          obtain rfl := splitPending_error hcut
          by_cases he : e = .capacity
          · subst he
            have hwhy : Unhalved c s m' := by
              intro largest' hlargest' _
              obtain rfl := Option.some.inj (hlargest.symm.trans hlargest')
              exact hcut
            have hfull := splitPending_ends_full hstate hm hcut
            rw [withMap_self hm] at hfull
            obtain ⟨r, m'', hends, hpicked⟩ := capLease_picked hinv hstate hm hfirst hwhy
            exact ⟨r, m'', hnext (Ends.bind hfull hends), hpicked⟩
          · exact ⟨_, _, hnext (Ends.bind_error (splitPending_ends_error hstate hm hcut he)),
              .unhalvable hlargest hhalves hcut he⟩
    · have hwhy : Unhalved c s m := by
        intro largest' hlargest' hhalves'
        obtain rfl := Option.some.inj (hlargest.symm.trans hlargest')
        exact absurd hhalves' hhalves
      obtain ⟨r, m', hends, hpicked⟩ := capLease_picked hinv hstate hm hfirst hwhy
      refine ⟨r, m', Ends.get ?_, hpicked⟩
      simp only [hfirst, hlargest]
      rw [if_neg (by exact hhalves)]
      exact hends

/-! ### A fresh plan -/

/-- **A cut that is inside a pending segment** is made, or the map is full. -/
theorem splitPending_inside (hinv : m.Inv) (hnumbered : m.Numbered) {pre post : List Segment} {t : Segment}
    (hseg : m.segments = pre ++ t :: post) (hpend : t.state = .pending)
    (hinside : t.range.start < at' ∧ at' < t.range.stop) :
    m.splitPending t.id at' = (.error .capacity, m) ∨
      ∃ left right m', t.range.split at' = .ok (left, right) ∧
        m.splitPending t.id at' = (.ok ⟨m.nextId⟩, m') ∧ m'.Inv ∧ m'.Numbered ∧
        m'.segments = pre ++ { t with range := left } :: ⟨⟨m.nextId⟩, right, .pending⟩ :: post := by
  have hmem : t ∈ m.segments := by rw [hseg]; simp
  rcases SegmentMap.splitPending_of_pending hinv hmem hpend at' with
    heq | ⟨-, hroom⟩ | ⟨-, hout⟩ | ⟨pre', post', left, right, hseg', -, hsplit, heq⟩
  · exact Or.inl heq
  · have := hnumbered.room hinv
    omega
  · exact absurd hinside hout
  · have hnodup : m.segments.Nodup := List.Nodup.of_map _ hinv.ids_nodup
    rw [hseg] at hnodup
    obtain ⟨-, hpost, hacross⟩ := List.nodup_append.1 hnodup
    obtain ⟨rfl, -, rfl⟩ := (List.append_cons_inj_of_notMem (fun h ↦ hacross t h t List.mem_cons_self rfl)
      (List.nodup_cons.1 hpost).1).1 (hseg.symm.trans hseg')
    have hinv' := (SegmentMap.keeps_splitPending m t.id at').inv hinv
    rw [heq] at hinv'
    refine Or.inr ⟨left, right, _, hsplit, heq, hinv', ?_, rfl⟩
    unfold SegmentMap.Numbered at hnumbered ⊢
    rw [hseg] at hnumbered
    simp only [List.length_append, List.length_cons] at hnumbered ⊢
    omega

/-- **Run lemma** for the cuts of a fresh plan. -/
theorem splitFrom_ends {total size unit : ℕ} (hsize : 0 < size) (hunit : unit ∣ size)
    (hfit : total + size < 2 ^ 64) (fuel : ℕ) {pre : List Segment} {t : Segment}
    (hstate : s.job.state = .transferring) (hm : s.job.segments = some m) (hinv : m.Inv)
    (hnumbered : m.Numbered) (hseg : m.segments = pre ++ [t]) (hpend : t.state = .pending)
    (hstop : t.range.stop = total) (hstart : t.range.start = pre.length * size)
    (hpre : ∀ x ∈ pre, x.range.len = size) (hat : at' = t.range.start + size) :
    ∃ m', Ends (splitFrom total size fuel t.id at') s (.ok ()) (s.withMap m') ∧ m.Cuts unit m' ∧
      m'.Even size := by
  have hdone : m.Even size := ⟨pre, t, hseg, hstart, hpre⟩
  induction fuel generalizing s m pre t at' with
  | zero => exact ⟨m, by rw [withMap_self hm]; rfl, .refl, hdone⟩
  | succ fuel ih =>
    rw [splitFrom]
    split
    next hlt =>
      have hinside : t.range.start < at' ∧ at' < t.range.stop := by omega
      rcases splitPending_inside hinv hnumbered hseg hpend hinside with
        hfull | ⟨left, right, m', hsplit, hcut, hinv', hnumbered', hseg'⟩
      · exact ⟨m, Ends.bind (splitPending_ends_full hstate hm hfull) Ends.pure, .refl, hdone⟩
      · obtain ⟨hl₁, hl₂, hr₁, hr₂⟩ := ByteRange.split_eq_ok hsplit
        have hseg'' : m'.segments = (pre ++ [{ t with range := left }]) ++ [⟨⟨m.nextId⟩, right, .pending⟩] := by
          rw [hseg', List.append_assoc]
          rfl
        have hpre' : ∀ x ∈ pre ++ [{ t with range := left }], x.range.len = size := by
          intro x hx
          rcases List.mem_append.1 hx with hx | hx
          · exact hpre x hx
          · rw [List.mem_singleton.1 hx, ByteRange.len, hl₁, hl₂]
            omega
        have hgrid : unit ∣ at' := by
          rw [hat, hstart]
          exact Nat.dvd_add (hunit.mul_left _) hunit
        have hright : right.start = (pre ++ [{ t with range := left }]).length * size := by
          rw [hr₁, hat, hstart, List.length_append, List.length_singleton, Nat.add_mul, Nat.one_mul]
        have hnext : at' + size = right.start + size := by rw [hr₁]
        obtain ⟨m'', hends, hcuts, heven⟩ := ih (s := s.withMap m') hstate rfl hinv'
          hnumbered' hseg'' rfl (hr₂.trans hstop) hright hpre' hnext ⟨_, _, hseg'', hright, hpre'⟩
        refine ⟨m'', Ends.bind (splitPending_ends hstate hm hcut) ?_, ?_, heven⟩
        · rw [wrap64_of_lt (by omega)]
          exact hends
        · exact (SegmentMap.Cuts.refl.cut hgrid hcut).trans hcuts
    · exact ⟨m, by rw [withMap_self hm]; rfl, .refl, hdone⟩

/-- The pieces of a fresh plan are fewer than what they would be too many for. -/
theorem length_of_even {size pieces : ℕ} (hinv : m.Inv) (heven : m.Even size)
    (hcover : m.total ≤ pieces * size) : m.segments.length ≤ pieces := by
  obtain ⟨pre, t, hseg, hstart, -⟩ := heven
  have hbounds := hinv.tiles.bounds (x := t) (by rw [hseg]; simp)
  have hlt : pre.length * size < pieces * size := by
    have := hbounds.2.1
    have := hbounds.2.2
    omega
  have := Nat.lt_of_mul_lt_mul_right hlt
  rw [hseg, List.length_append, List.length_singleton]
  omega

/-- What `initial_split` does with a plan. -/
theorem splitPlan_ends (hinv : m.Inv) (hnumbered : m.Numbered) (hstate : s.job.state = .transferring)
    (hm : s.job.segments = some m) :
    ∃ m', Ends (match m.segments with
      | [only] => if only.state = .pending ∧ only.range.start = 0 then
          if 2 ≤ min (only.range.stop / c.config.minSegment) s.connections then
            splitFrom only.range.stop (wrap64 (roundUp (divCeil only.range.stop
              (min (only.range.stop / c.config.minSegment) s.connections)) c.config.minSegment))
              only.range.stop only.id (wrap64 (roundUp (divCeil only.range.stop
              (min (only.range.stop / c.config.minSegment) s.connections)) c.config.minSegment))
          else pure ()
        else pure ()
      | _ => pure ()) s (.ok ()) (s.withMap m') ∧ m.Cuts c.config.minSegment m' ∧
        (m' = m ∨ ∃ size, c.config.minSegment ∣ size ∧ m'.Even size ∧
          m'.segments.length ≤ s.connections) := by
  have hdone : Ends (Pure.pure () : SessionM Unit) s (.ok ()) (s.withMap m) := by
    rw [withMap_self hm]
    exact Ends.pure
  split
  next only honly =>
    split
    next hfresh =>
      split
      next hpieces =>
        have hpos := minSegment_pos c
        generalize hunit : c.config.minSegment = unit at hpieces hpos ⊢
        have htotal : only.range.stop = m.total := by
          have htiles := hinv.tiles
          rw [honly] at htiles
          exact htiles.2.2
        have hunit₂ : 2 * unit ≤ only.range.stop :=
          (Nat.le_div_iff_mul_le hpos).1 (hpieces.trans (min_le_left _ _))
        have hle := only.range.stop_le
        unfold i64Max at hle
        have hle_pieces : min (only.range.stop / unit) s.connections ≤ s.connections := min_le_right _ _
        generalize min (only.range.stop / unit) s.connections = pieces at hpieces hle_pieces ⊢
        -- each piece is at most half of the whole, rounded up to the unit
        have hhalf := divCeil_two_le (a := only.range.stop) hpieces
        have hcover := le_divCeil_mul (a := only.range.stop) (b := pieces) (by omega)
        have hlt := roundUp_lt (n := divCeil only.range.stop pieces) hpos
        have hge := le_roundUp (n := divCeil only.range.stop pieces) hpos
        have hgrid := dvd_roundUp (divCeil only.range.stop pieces) unit
        have hpiece : 0 < divCeil only.range.stop pieces := by
          have := only.range.start_lt
          by_contra hzero
          rw [Nat.eq_zero_of_not_pos hzero] at hcover
          omega
        generalize roundUp (divCeil only.range.stop pieces) unit = size at hlt hge hgrid ⊢
        rw [wrap64_of_lt (by omega)]
        have hfirst : size = only.range.start + size := by rw [hfresh.2, Nat.zero_add]
        have hstart : only.range.start = ([] : List Segment).length * size := by rw [hfresh.2]; simp
        obtain ⟨m', hends, hcuts, heven⟩ := splitFrom_ends (s := s) (m := m) (by omega) hgrid
          (by omega : only.range.stop + size < 2 ^ 64) only.range.stop hstate hm hinv hnumbered honly hfresh.1 rfl
          hstart (by rintro _ ⟨⟩) hfirst
        refine ⟨m', hends, hcuts, Or.inr ⟨size, hgrid, heven, ?_⟩⟩
        obtain ⟨hinv', htotal', -⟩ := hcuts.kept hinv
        have hcovers : m'.total ≤ pieces * size := by
          rw [htotal', ← htotal, Nat.mul_comm]
          exact hcover.trans (Nat.mul_le_mul_right _ hge)
        exact (length_of_even hinv' heven hcovers).trans hle_pieces
      · exact ⟨m, hdone, .refl, Or.inl rfl⟩
    · exact ⟨m, hdone, .refl, Or.inl rfl⟩
  · exact ⟨m, hdone, .refl, Or.inl rfl⟩

/-- **`initial_split` always succeeds**. What it makes of a plan in one piece are equal pieces and a rest,
no more than there are connections. -/
theorem initialSplit_ends (hinv : m.Inv) (hnumbered : m.Numbered) (hstate : s.job.state = .transferring)
    (hm : s.job.segments = some m) (hconnections : 1 ≤ s.connections) :
    ∃ m', Ends (initialSplit c) s (.ok ()) (s.withMap m') ∧ m.Cuts c.config.minSegment m' ∧
      ∀ t, m.segments = [t] → ∃ size, c.config.minSegment ∣ size ∧ m'.Even size ∧
        m'.segments.length ≤ s.connections := by
  have hwhole : ∀ t, m.segments = [t] → ∃ size, c.config.minSegment ∣ size ∧ m.Even size ∧
      m.segments.length ≤ s.connections := by
    intro t ht
    have htiles := hinv.tiles
    rw [ht] at htiles
    exact ⟨0, Nat.dvd_zero _, ⟨[], t, ht, htiles.1, (by rintro _ ⟨⟩)⟩, by rw [ht]; exact hconnections⟩
  suffices h : ∃ m', Ends (initialSplit c) s (.ok ()) (s.withMap m') ∧ m.Cuts c.config.minSegment m' ∧
      (m' = m ∨ ∃ size, c.config.minSegment ∣ size ∧ m'.Even size ∧ m'.segments.length ≤ s.connections) by
    obtain ⟨m', hends, hcuts, rfl | hcut⟩ := h
    · exact ⟨m', hends, hcuts, hwhole⟩
    · exact ⟨m', hends, hcuts, fun _ _ ↦ hcut⟩
  obtain ⟨m', hends, hrest⟩ := splitPlan_ends (c := c) hinv hnumbered hstate hm
  refine ⟨m', Ends.get ?_, hrest⟩
  simp only [hm]
  exact hends

end Session

end Fhd
