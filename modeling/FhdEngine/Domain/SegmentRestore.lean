import FhdEngine.Domain.Segments
import FhdEngine.Library.Tiling
import Mathlib.Data.List.Chain

/-!
# What `SegmentMap::restore` builds

`restore` runs two loops over the persisted ranges: `mergeDurable` joins touching ranges and refuses
overlapping or descending ones, `buildSegments` lays the merged ranges out with the gaps between
them pending. `Restored` says what comes out: a tiling of `[0, total)` by pending and durable pieces
that **alternate**, numbered from one, whose durable pieces are exactly the persisted bytes.

Alternation is what makes the result canonical. The number of pieces then depends only on the *set*
of durable bytes (`Laid.length_eq`), not on the ranges it was persisted as, and it is the least
number of pieces any partition respecting that set can have.
-/

namespace Fhd

open Tiling

/-- Ranges in ascending order that do not overlap; touching is allowed. -/
def Ascending (l : List ByteRange) : Prop := l.Pairwise fun a b ↦ a.stop ≤ b.start

/-- Ranges in ascending order with at least one byte between neighbours. -/
def Separated (l : List ByteRange) : Prop := l.Pairwise fun a b ↦ a.stop < b.start

/-- The bytes covered by a list of ranges. -/
def Covered (l : List ByteRange) (p : ℕ) : Prop := ∃ r ∈ l, p ∈ r

instance (l : List ByteRange) (p : ℕ) : Decidable (Covered l p) :=
  inferInstanceAs (Decidable (∃ r ∈ l, p ∈ r))

@[simp] theorem covered_nil {p : ℕ} : ¬Covered [] p := by simp [Covered]

theorem covered_cons {r : ByteRange} {l : List ByteRange} {p : ℕ} :
    Covered (r :: l) p ↔ p ∈ r ∨ Covered l p := by simp [Covered]

theorem covered_append {l₁ l₂ : List ByteRange} {p : ℕ} :
    Covered (l₁ ++ l₂) p ↔ Covered l₁ p ∨ Covered l₂ p := by
  simp only [Covered, List.mem_append]
  constructor
  · rintro ⟨r, h | h, hp⟩
    exacts [Or.inl ⟨r, h, hp⟩, Or.inr ⟨r, h, hp⟩]
  · rintro (⟨r, h, hp⟩ | ⟨r, h, hp⟩)
    exacts [⟨r, Or.inl h, hp⟩, ⟨r, Or.inr h, hp⟩]

theorem covered_perm {l l' : List ByteRange} (h : l.Perm l') (p : ℕ) : Covered l p ↔ Covered l' p := by
  simp only [Covered, h.mem_iff]

namespace SegmentMap

/-- The pieces of a map tile `[a, b)`. -/
abbrev SegmentTiles : ℕ → List Segment → ℕ → Prop :=
  Tiles (fun s : Segment ↦ s.range.start) (fun s ↦ s.range.stop)

/-- A byte is durable in a map. -/
def DurableAt (m : SegmentMap) (p : ℕ) : Prop := ∃ s ∈ m.segments, s.state = .durable ∧ p ∈ s.range

instance (m : SegmentMap) (p : ℕ) : Decidable (m.DurableAt p) :=
  inferInstanceAs (Decidable (∃ s ∈ m.segments, s.state = .durable ∧ p ∈ s.range))

/-! ### The merging loop -/

/-- Joining the last two pushed ranges covers what they covered. -/
theorem mem_join {last range joined : ByteRange} {p : ℕ} (htouch : range.start = last.stop)
    (h : ByteRange.new last.start range.stop = .ok joined) : p ∈ joined ↔ p ∈ last ∨ p ∈ range := by
  obtain ⟨h₁, h₂⟩ := ByteRange.new_eq_ok.1 h
  have := last.start_lt
  have := range.start_lt
  simp only [ByteRange.mem_def, h₁, h₂]
  omega

/-- **What the merging loop returns**: separated ranges inside the plan, covering what was pushed
before and what it was given. The pushed ranges are kept last first, so they are separated in
reverse. -/
theorem mergeDurable_eq_ok {total : ℕ} {pushed durable out : List ByteRange}
    (h : mergeDurable total pushed durable = .ok out)
    (hsep : pushed.Pairwise fun a b ↦ b.stop < a.start) (hle : ∀ r ∈ pushed, r.stop ≤ total) :
    Separated out ∧ (∀ r ∈ out, r.stop ≤ total) ∧
      ∀ p, Covered out p ↔ Covered pushed p ∨ Covered durable p := by
  induction durable generalizing pushed with
  | nil =>
    cases h
    refine ⟨List.pairwise_reverse.2 hsep, fun r hr ↦ hle r (List.mem_reverse.1 hr), fun p ↦ ?_⟩
    simp [Covered]
  | cons range durable ih =>
    cases pushed with
    | nil =>
      rw [mergeDurable] at h
      split at h
      · cases h
      next hstop =>
        obtain ⟨h₁, h₂, h₃⟩ := ih h (List.pairwise_singleton _ _) (by simpa using hstop)
        exact ⟨h₁, h₂, fun p ↦ by rw [h₃, covered_cons, covered_cons]; simp⟩
    | cons last before =>
      rw [mergeDurable] at h
      split at h
      · cases h
      next hstop =>
        have hlast := List.pairwise_cons.1 hsep
        have hbefore : ∀ r ∈ before, r.stop ≤ total := fun r hr ↦ hle r (List.mem_cons_of_mem _ hr)
        split at h
        · cases h
        next hlt =>
          split at h
          next htouch =>
            split at h
            · cases h
            next joined hjoined =>
              obtain ⟨hs, he⟩ := ByteRange.new_eq_ok.1 hjoined
              obtain ⟨h₁, h₂, h₃⟩ := ih h
                (List.pairwise_cons.2 ⟨fun r hr ↦ hs ▸ hlast.1 r hr, hlast.2⟩)
                (List.forall_mem_cons.2 ⟨by omega, hbefore⟩)
              refine ⟨h₁, h₂, fun p ↦ ?_⟩
              rw [h₃, covered_cons, covered_cons, covered_cons, mem_join htouch hjoined]
              tauto
          next hne =>
            have hgap : ∀ r ∈ last :: before, r.stop < range.start := by
              refine List.forall_mem_cons.2 ⟨by omega, fun r hr ↦ ?_⟩
              have := hlast.1 r hr
              have := last.start_lt
              omega
            obtain ⟨h₁, h₂, h₃⟩ := ih h (List.pairwise_cons.2 ⟨hgap, hsep⟩)
              (List.forall_mem_cons.2 ⟨by omega, hle⟩)
            refine ⟨h₁, h₂, fun p ↦ ?_⟩
            rw [h₃]
            simp only [covered_cons]
            tauto

/-- The merging loop accepts every ascending list inside the plan. -/
theorem mergeDurable_isOk {total : ℕ} {durable : List ByteRange} (pushed : List ByteRange)
    (hasc : Ascending durable) (hle : ∀ r ∈ durable, r.stop ≤ total)
    (hpushed : ∀ last ∈ pushed.head?, ∀ r ∈ durable, last.stop ≤ r.start) :
    ∃ out, mergeDurable total pushed durable = .ok out := by
  induction durable generalizing pushed with
  | nil => cases pushed <;> exact ⟨_, rfl⟩
  | cons range durable ih =>
    obtain ⟨hnext, hasc'⟩ := List.pairwise_cons.1 hasc
    have hstop := hle range List.mem_cons_self
    have hle' : ∀ r ∈ durable, r.stop ≤ total := fun r hr ↦ hle r (List.mem_cons_of_mem _ hr)
    cases pushed with
    | nil =>
      rw [mergeDurable, if_neg (by omega)]
      exact ih _ hasc' hle' (by simpa using hnext)
    | cons last before =>
      have hlast : last.stop ≤ range.start := hpushed last rfl range List.mem_cons_self
      rw [mergeDurable, if_neg (by omega), if_neg (by omega)]
      split
      next htouch =>
        have hnew : ByteRange.new last.start range.stop =
            .ok ⟨last.start, range.stop, by have := last.start_lt; have := range.start_lt; omega,
              range.stop_le⟩ := ByteRange.new_eq_ok.2 ⟨rfl, rfl⟩
        rw [hnew]
        exact ih _ hasc' hle' (by simpa using hnext)
      · exact ih _ hasc' hle' (by simpa using hnext)

/-! ### The building loop -/

theorem push_append (segments tail : List Segment) (range : ByteRange) (state : SegmentState) :
    push segments range state ++ tail =
      segments ++ ⟨⟨segments.length + 1⟩, range, state⟩ :: tail := by
  simp [push]

@[simp] theorem length_push (segments : List Segment) (range : ByteRange) (state : SegmentState) :
    (push segments range state).length = segments.length + 1 := by
  simp [push]

/-- The pieces laid out from `cursor` on: they tile the rest of the plan, are numbered from `first`,
are durable exactly on the merged ranges, and alternate. -/
structure Laid (first cursor total : ℕ) (merged : List ByteRange) (tail : List Segment) : Prop where
  tiles : SegmentTiles cursor tail total
  ids : tail.map (·.id.get) = List.range' first tail.length
  states : ∀ s ∈ tail, s.state = .pending ∨ s.state = .durable
  durable : ∀ p, (∃ s ∈ tail, s.state = .durable ∧ p ∈ s.range) ↔ Covered merged p
  alternates : tail.IsChain fun s t ↦ ¬(s.state = .durable ↔ t.state = .durable)
  head : (∀ r ∈ merged.head?, cursor < r.start) → ∀ s ∈ tail.head?, s.state = .pending

namespace Laid

variable {first total : ℕ} {merged : List ByteRange} {tail : List Segment}

theorem nil (n total : ℕ) : Laid n total total [] [] :=
  ⟨rfl, rfl, by simp, by simp, List.isChain_nil, by simp⟩

/-- A durable piece goes in front of what starts strictly behind it. -/
theorem cons_durable {range : ByteRange} (h : Laid (first + 1) range.stop total merged tail)
    (hnext : ∀ r ∈ merged.head?, range.stop < r.start) :
    Laid first range.start total (range :: merged) (⟨⟨first⟩, range, .durable⟩ :: tail) := by
  refine ⟨⟨rfl, range.start_lt, h.tiles⟩, ?_, ?_, fun p ↦ ?_, ?_, fun hlt ↦ ?_⟩
  · rw [List.map_cons, h.ids, List.length_cons, List.range'_succ]
  · exact List.forall_mem_cons.2 ⟨Or.inr rfl, h.states⟩
  · rw [covered_cons, ← h.durable]
    simp
  · refine List.isChain_cons.2 ⟨fun s hs ↦ ?_, h.alternates⟩
    simp [h.head hnext s hs]
  · exact absurd (hlt range rfl) (lt_irrefl _)

/-- A gap goes in front of a durable piece or of nothing. -/
theorem cons_pending (gap : ByteRange) (h : Laid (first + 1) gap.stop total merged tail)
    (hdur : ∀ s ∈ tail.head?, s.state = .durable) :
    Laid first gap.start total merged (⟨⟨first⟩, gap, .pending⟩ :: tail) := by
  refine ⟨⟨rfl, gap.start_lt, h.tiles⟩, ?_, ?_, fun p ↦ ?_, ?_, ?_⟩
  · rw [List.map_cons, h.ids, List.length_cons, List.range'_succ]
  · exact List.forall_mem_cons.2 ⟨Or.inl rfl, h.states⟩
  · rw [← h.durable]
    simp
  · refine List.isChain_cons.2 ⟨fun s hs ↦ ?_, h.alternates⟩
    simp [hdur s hs]
  · intro _ s hs
    obtain rfl : _ = s := by simpa using hs
    rfl

end Laid

/-- **What the building loop returns**, on separated ranges that start at or behind the cursor. It
never fails there. -/
theorem buildSegments_eq_ok {total : ℕ} (htotal : total ≤ i64Max) {merged : List ByteRange} :
    ∀ (segments : List Segment) {cursor : ℕ}, Separated merged → (∀ r ∈ merged, r.stop ≤ total) →
      (∀ r ∈ merged.head?, cursor ≤ r.start) → cursor ≤ total →
      ∃ tail, buildSegments total segments cursor merged = .ok (segments ++ tail) ∧
        Laid (segments.length + 1) cursor total merged tail := by
  induction merged with
  | nil =>
    intro segments cursor _ _ _ hcursor
    rw [buildSegments]
    rcases hcursor.lt_or_eq with hlt | rfl
    · have hnew : ByteRange.new cursor total = .ok ⟨cursor, total, hlt, htotal⟩ :=
        ByteRange.new_eq_ok.2 ⟨rfl, rfl⟩
      rw [if_pos hlt, hnew]
      refine ⟨[⟨⟨segments.length + 1⟩, ⟨cursor, total, hlt, htotal⟩, .pending⟩], rfl, ?_⟩
      exact Laid.cons_pending ⟨cursor, total, hlt, htotal⟩ (Laid.nil _ total) (by simp)
    · rw [if_neg (lt_irrefl _)]
      exact ⟨[], by simp, Laid.nil _ _⟩
  | cons range merged ih =>
    intro segments cursor hsep hle hcursor hct
    obtain ⟨hnext, hsep'⟩ := List.pairwise_cons.1 hsep
    have hle' : ∀ r ∈ merged, r.stop ≤ total := fun r hr ↦ hle r (List.mem_cons_of_mem _ hr)
    have hstop := hle range List.mem_cons_self
    have hstart : cursor ≤ range.start := hcursor range rfl
    have hhead : ∀ r ∈ merged.head?, range.stop < r.start :=
      fun r hr ↦ hnext r (List.mem_of_mem_head? hr)
    have hhead' : ∀ r ∈ merged.head?, range.stop ≤ r.start := fun r hr ↦ (hhead r hr).le
    rw [buildSegments]
    rcases hstart.lt_or_eq with hlt | rfl
    · have hnew : ByteRange.new cursor range.start =
          .ok ⟨cursor, range.start, hlt, by have := range.start_lt; omega⟩ :=
        ByteRange.new_eq_ok.2 ⟨rfl, rfl⟩
      rw [if_pos hlt, hnew]
      obtain ⟨tail, hbuild, hlaid⟩ := ih (push (push segments _ .pending) range .durable) hsep' hle'
        hhead' hstop
      rw [push_append, push_append, length_push] at hbuild
      rw [length_push, length_push] at hlaid
      exact ⟨_, hbuild, Laid.cons_pending ⟨cursor, range.start, hlt, _⟩ (hlaid.cons_durable hhead)
        (by simp)⟩
    · rw [if_neg (lt_irrefl _)]
      obtain ⟨tail, hbuild, hlaid⟩ := ih (push segments range .durable) hsep' hle' hhead' hstop
      rw [push_append] at hbuild
      rw [length_push] at hlaid
      exact ⟨_, hbuild, hlaid.cons_durable hhead⟩

/-- The number of pieces laid out is one for each maximal run of durable or of missing bytes. -/
theorem Laid.length_eq {first total : ℕ} {merged : List ByteRange} {tail : List Segment}
    (h : Laid first 0 total merged tail) :
    (runStarts total (Covered merged)).card = tail.length := by
  have hside : ∀ s ∈ tail, ∀ p ∈ s.range, (Covered merged p ↔ s.state = .durable) := by
    intro s hs p hp
    rw [← h.durable]
    constructor
    · rintro ⟨t, ht, hdur, hpt⟩
      rwa [h.tiles.eq_of_mem hs ht hp hpt]
    · exact fun hdur ↦ ⟨s, hs, hdur, hp⟩
  refine card_runStarts_eq h.tiles (fun s hs p q hp hp' hq hq' ↦ ?_) ?_
  · rw [hside s hs p ⟨hp, hp'⟩, hside s hs q ⟨hq, hq'⟩]
  · refine List.IsChain.imp_of_mem_imp (fun s t hs ht hne ↦ ?_) h.alternates
    rwa [hside s hs _ ⟨le_rfl, s.range.start_lt⟩, hside t ht _ ⟨le_rfl, t.range.start_lt⟩]

/-! ### The restored map -/

/-- **What `restore` returns** when it accepts. -/
structure Restored (job : JobId) (generation : Generation) (total maximum : ℕ)
    (durable : List ByteRange) (m : SegmentMap) : Prop where
  eq : m = ⟨job, generation, total, maximum, m.segments, m.segments.length + 1, 1, 1, none⟩
  total_le : total ≤ i64Max
  maximum_pos : 1 ≤ maximum
  maximum_le : maximum ≤ maxSegments
  length_le : m.segments.length ≤ maximum
  tiles : SegmentTiles 0 m.segments total
  ids : m.segments.map (·.id.get) = List.range' 1 m.segments.length
  states : ∀ s ∈ m.segments, s.state = .pending ∨ s.state = .durable
  durable_iff : ∀ p, m.DurableAt p ↔ Covered durable p

variable {job : JobId} {generation : Generation} {total maximum : ℕ} {durable : List ByteRange}
  {m : SegmentMap}

theorem restore_eq_ok (h : restore job generation total maximum durable = .ok m) :
    Restored job generation total maximum durable m := by
  unfold restore at h
  split at h
  · cases h
  next m₀ hnew =>
    obtain ⟨htotal, hpos, hmax, hm₀, -⟩ := new_eq_ok hnew
    split at h
    · cases h
    next merged hmerge =>
      obtain ⟨hsep, hle, hcov⟩ := mergeDurable_eq_ok hmerge List.Pairwise.nil (by simp)
      obtain ⟨tail, hbuild, hlaid⟩ := buildSegments_eq_ok htotal [] hsep hle
        (fun _ _ ↦ Nat.zero_le _) (Nat.zero_le total)
      rw [hbuild] at h
      simp only [List.nil_append] at h
      split at h
      · cases h
      next hlen =>
        cases h
        rw [hm₀]
        refine ⟨rfl, htotal, hpos, hmax, not_lt.1 hlen, hlaid.tiles, hlaid.ids, hlaid.states,
          fun p ↦ (hlaid.durable p).trans ?_⟩
        rw [hcov]
        simp

/-! ### Where a restored map is cut -/

section Bounds

variable {Q : ℕ → Prop}

theorem mergeDurable_bounds {pushed out : List ByteRange} (h : mergeDurable total pushed durable = .ok out)
    (hpushed : ∀ r ∈ pushed, Q r.start ∧ Q r.stop) (hdurable : ∀ r ∈ durable, Q r.start ∧ Q r.stop) :
    ∀ r ∈ out, Q r.start ∧ Q r.stop := by
  induction durable generalizing pushed with
  | nil =>
    cases h
    exact fun r hr ↦ hpushed r (List.mem_reverse.1 hr)
  | cons range durable ih =>
    obtain ⟨hrange, hrest⟩ := List.forall_mem_cons.1 hdurable
    cases pushed with
    | nil =>
      rw [mergeDurable] at h
      split at h
      · cases h
      · exact ih h (by simpa using hrange) hrest
    | cons last before =>
      obtain ⟨hlast, hbefore⟩ := List.forall_mem_cons.1 hpushed
      rw [mergeDurable] at h
      split at h
      · cases h
      · split at h
        · cases h
        · split at h
          · split at h
            · cases h
            next joined hjoined =>
              obtain ⟨hs, he⟩ := ByteRange.new_eq_ok.1 hjoined
              exact ih h (List.forall_mem_cons.2 ⟨⟨hs ▸ hlast.1, he ▸ hrange.2⟩, hbefore⟩) hrest
          · exact ih h (List.forall_mem_cons.2 ⟨hrange, hpushed⟩) hrest

theorem push_bounds {segments : List Segment} {range : ByteRange} {state : SegmentState}
    (hsegments : ∀ s ∈ segments, Q s.range.start ∧ Q s.range.stop) (hrange : Q range.start ∧ Q range.stop) :
    ∀ s ∈ push segments range state, Q s.range.start ∧ Q s.range.stop := by
  intro s hs
  rcases List.mem_append.1 hs with hs | hs
  · exact hsegments s hs
  · rw [List.mem_singleton.1 hs]
    exact hrange

theorem buildSegments_bounds {merged : List ByteRange} {segments out : List Segment} {cursor : ℕ}
    (h : buildSegments total segments cursor merged = .ok out)
    (hsegments : ∀ s ∈ segments, Q s.range.start ∧ Q s.range.stop) (hcursor : Q cursor) (htotal : Q total)
    (hmerged : ∀ r ∈ merged, Q r.start ∧ Q r.stop) : ∀ s ∈ out, Q s.range.start ∧ Q s.range.stop := by
  induction merged generalizing segments cursor with
  | nil =>
    rw [buildSegments] at h
    split at h
    · split at h
      · cases h
      next tail htail =>
        cases h
        obtain ⟨hs, he⟩ := ByteRange.new_eq_ok.1 htail
        exact push_bounds hsegments ⟨hs ▸ hcursor, he ▸ htotal⟩
    · cases h
      exact hsegments
  | cons range merged ih =>
    obtain ⟨hrange, hrest⟩ := List.forall_mem_cons.1 hmerged
    rw [buildSegments] at h
    split at h
    · split at h
      · cases h
      next gap hgap =>
        obtain ⟨hs, he⟩ := ByteRange.new_eq_ok.1 hgap
        exact ih h (push_bounds (push_bounds hsegments ⟨hs ▸ hcursor, he ▸ hrange.1⟩) hrange) hrange.2 hrest
    · exact ih h (push_bounds hsegments hrange) hrange.2 hrest

/-- **A restored map is cut** only where the durable ranges begin and end. -/
theorem restore_bounds (h : restore job generation total maximum durable = .ok m) (hzero : Q 0)
    (htotal : Q total) (hdurable : ∀ r ∈ durable, Q r.start ∧ Q r.stop) :
    ∀ s ∈ m.segments, Q s.range.start ∧ Q s.range.stop := by
  unfold restore at h
  split at h
  · cases h
  · split at h
    · cases h
    next merged hmerge =>
      split at h
      · cases h
      next segments hbuild =>
        split at h
        · cases h
        · cases h
          exact buildSegments_bounds hbuild nofun hzero htotal (mergeDurable_bounds hmerge nofun hdurable)

end Bounds

/-- A fresh map exists for every legal plan. -/
theorem new_isOk (job : JobId) (generation : Generation) (htotal : total ≤ i64Max)
    (hpos : 1 ≤ maximum) (hmax : maximum ≤ maxSegments) :
    ∃ m, new job generation total maximum = .ok m := by
  unfold new
  rw [if_neg (by omega)]
  split
  · exact ⟨_, rfl⟩
  next hne =>
    have hrange : ByteRange.new 0 total = .ok ⟨0, total, by omega, htotal⟩ :=
      ByteRange.new_eq_ok.2 ⟨rfl, rfl⟩
    rw [hrange]
    exact ⟨_, rfl⟩

/-- **`restore` accepts** every ascending list inside a legal plan whose runs fit the maximum. -/
theorem restore_isOk (job : JobId) (generation : Generation) (htotal : total ≤ i64Max)
    (hpos : 1 ≤ maximum) (hmax : maximum ≤ maxSegments) (hasc : Ascending durable) (hle : ∀ r ∈ durable, r.stop ≤ total)
    (hfit : (runStarts total (Covered durable)).card ≤ maximum) :
    ∃ m, restore job generation total maximum durable = .ok m := by
  obtain ⟨m₀, hnew⟩ := new_isOk job generation htotal hpos hmax
  obtain ⟨merged, hmerge⟩ := mergeDurable_isOk [] hasc hle (by simp)
  obtain ⟨hsep, hle', hcov⟩ := mergeDurable_eq_ok hmerge List.Pairwise.nil (by simp)
  obtain ⟨tail, hbuild, hlaid⟩ := buildSegments_eq_ok htotal [] hsep hle'
    (fun _ _ ↦ Nat.zero_le _) (Nat.zero_le total)
  have hlen : tail.length ≤ maximum := by
    have hcongr : runStarts total (Covered merged) = runStarts total (Covered durable) :=
      runStarts_congr fun p _ ↦ by rw [hcov]; simp
    rw [← hlaid.length_eq, hcongr]
    exact hfit
  unfold restore
  rw [hnew, hmerge]
  simp only [hbuild, List.nil_append]
  rw [if_neg (not_lt.2 hlen)]
  exact ⟨_, rfl⟩

end SegmentMap

end Fhd
