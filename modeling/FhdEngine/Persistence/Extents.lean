import FhdEngine.Application.Ports
import FhdEngine.Domain.SegmentRestore
import Mathlib.Data.List.Sort

/-!
# Admitting durable extents

The two pure functions of `transfer.rs` that decide whether a batch of extents may be written.
`admit` refuses every overlap that is not an identical retry, so what is stored stays pairwise
disjoint (`admit_eq_some`). `restoredSegments` predicts how many segments `SegmentMap::restore` will
build from the stored ranges; `restoredSegments_eq` says that it predicts the exact number, which is
the number of runs of the covered set.
-/

namespace Fhd

open Tiling

namespace Persistence

def overlaps (a b : ByteRange) : Bool := a.start < b.stop ∧ b.start < a.stop

theorem overlaps_comm (a b : ByteRange) : overlaps a b = overlaps b a := by
  simp [overlaps, and_comm]

/-- Two overlapping ranges share a byte. -/
theorem overlaps_iff {a b : ByteRange} : overlaps a b = true ↔ ∃ p, p ∈ a ∧ p ∈ b := by
  have ha := a.start_lt
  have hb := b.start_lt
  simp only [overlaps, decide_eq_true_eq, ByteRange.mem_def]
  constructor
  · rintro ⟨h₁, h₂⟩
    exact ⟨max a.start b.start, by omega, by omega⟩
  · rintro ⟨p, h₁, h₂⟩
    omega

/-- No two ranges of the list overlap. -/
def Apart (l : List ByteRange) : Prop := l.Pairwise fun a b ↦ overlaps a b = false

/-! ### `admit` -/

/-- The loop of `admit`; the second list holds the extents to insert so far. -/
def admitLoop (existing : List DurableExtent) :
    List DurableExtent → List DurableExtent → Option (List DurableExtent)
  | fresh, [] => some fresh
  | fresh, extent :: incoming =>
    if extent ∈ existing ∨ extent ∈ fresh then admitLoop existing fresh incoming
    else if (existing ++ fresh).any fun e ↦ overlaps e.range extent.range then none
    else admitLoop existing (fresh ++ [extent]) incoming

/-- Extents to insert. An identical extent is a no-op retry; any other overlap, with durable rows or
within the batch, is refused. -/
def admitExtents (existing incoming : List DurableExtent) : Option (List DurableExtent) :=
  admitLoop existing [] incoming

/-- The ranges of a list of extents. -/
def ranges (extents : List DurableExtent) : List ByteRange := extents.map (·.range)

variable {existing fresh fresh' incoming : List DurableExtent}

theorem admitLoop_eq_some (h : admitLoop existing fresh incoming = some fresh')
    (hdis : Apart (ranges (existing ++ fresh))) :
    Apart (ranges (existing ++ fresh')) ∧ fresh ⊆ fresh' ∧
      (∀ e ∈ fresh', e ∈ fresh ∨ e ∈ incoming) ∧ ∀ e ∈ incoming, e ∈ existing ∨ e ∈ fresh' := by
  induction incoming generalizing fresh with
  | nil =>
    cases h
    exact ⟨hdis, List.Subset.refl _, fun e he ↦ Or.inl he, by simp⟩
  | cons extent incoming ih =>
    rw [admitLoop] at h
    split at h
    next hknown =>
      obtain ⟨h₁, h₂, h₃, h₄⟩ := ih h hdis
      refine ⟨h₁, h₂, fun e he ↦ (h₃ e he).imp_right (List.mem_cons_of_mem _), fun e he ↦ ?_⟩
      rcases List.mem_cons.1 he with rfl | he'
      · exact hknown.imp_right fun hf ↦ h₂ hf
      · exact h₄ e he'
    next hnew =>
      split at h
      · cases h
      next hfree =>
        have hdis' : Apart (ranges (existing ++ (fresh ++ [extent]))) := by
          rw [← List.append_assoc, ranges, List.map_append]
          refine List.pairwise_append.2 ⟨hdis, List.pairwise_singleton _ _, fun a ha b hb ↦ ?_⟩
          obtain ⟨e, he, rfl⟩ := List.mem_map.1 ha
          obtain rfl : b = extent.range := by simpa using hb
          by_contra hover
          exact hfree (List.any_eq_true.2 ⟨e, he, by simpa using hover⟩)
        obtain ⟨h₁, h₂, h₃, h₄⟩ := ih h hdis'
        refine ⟨h₁, fun e he ↦ h₂ (List.mem_append_left _ he), fun e he ↦ ?_, fun e he ↦ ?_⟩
        · rcases h₃ e he with h' | h'
          · rcases List.mem_append.1 h' with h'' | h''
            · exact Or.inl h''
            · exact Or.inr (List.mem_singleton.1 h'' ▸ List.mem_cons_self)
          · exact Or.inr (List.mem_cons_of_mem _ h')
        · rcases List.mem_cons.1 he with rfl | he'
          · exact Or.inr (h₂ (by simp))
          · exact h₄ e he'

/-- **What `admit` grants**: extents of the batch that leave everything disjoint, and nothing of the
batch is lost. -/
theorem admit_eq_some (h : admitExtents existing incoming = some fresh)
    (hdis : Apart (ranges existing)) :
    Apart (ranges (existing ++ fresh)) ∧ (∀ e ∈ fresh, e ∈ incoming) ∧
      ∀ e ∈ incoming, e ∈ existing ∨ e ∈ fresh := by
  obtain ⟨h₁, -, h₃, h₄⟩ := admitLoop_eq_some h (by simpa using hdis)
  exact ⟨h₁, fun e he ↦ (h₃ e he).resolve_left List.not_mem_nil, h₄⟩

/-- **What `admit` grants without fail**: extents that are each known already or overlap nothing. -/
theorem admitLoop_isSome (hfresh : ∀ e ∈ incoming, e ∈ existing ∨
      ∀ e' ∈ existing, overlaps e'.range e.range = false)
    (hbatch : incoming.Pairwise fun a b ↦ a = b ∨ overlaps a.range b.range = false)
    (hcross : ∀ a ∈ fresh, ∀ b ∈ incoming, a = b ∨ overlaps a.range b.range = false) :
    ∃ fresh', admitLoop existing fresh incoming = some fresh' := by
  induction incoming generalizing fresh with
  | nil => exact ⟨fresh, rfl⟩
  | cons extent incoming ih =>
    obtain ⟨hnext, hbatch'⟩ := List.pairwise_cons.1 hbatch
    have hfresh' : ∀ e ∈ incoming, e ∈ existing ∨
        ∀ e' ∈ existing, overlaps e'.range e.range = false :=
      fun e he ↦ hfresh e (List.mem_cons_of_mem _ he)
    rw [admitLoop]
    split
    · exact ih hfresh' hbatch' fun a ha b hb ↦ hcross a ha b (List.mem_cons_of_mem _ hb)
    next hnew =>
      rw [not_or] at hnew
      have hfree : ¬(existing ++ fresh).any (fun e ↦ overlaps e.range extent.range) = true := by
        rw [List.any_eq_true]
        rintro ⟨e, he, hover⟩
        rcases List.mem_append.1 he with he' | he'
        · have := (hfresh extent List.mem_cons_self).resolve_left hnew.1 e he'
          rw [this] at hover
          cases hover
        · rcases hcross e he' extent List.mem_cons_self with rfl | h
          · exact hnew.2 he'
          · rw [h] at hover
            cases hover
      rw [if_neg hfree]
      refine ih hfresh' hbatch' fun a ha b hb ↦ ?_
      rcases List.mem_append.1 ha with ha' | ha'
      · exact hcross a ha' b (List.mem_cons_of_mem _ hb)
      · obtain rfl := List.mem_singleton.1 ha'
        exact hnext b hb

/-! ### `restored_segments` -/

/-- The loop of `restored_segments`. -/
def restoredLoop : ℕ → ℕ → List ByteRange → ℕ × ℕ
  | count, cursor, [] => (count, cursor)
  | count, cursor, range :: durable =>
    if count > 0 ∧ range.start = cursor then restoredLoop count range.stop durable
    else restoredLoop (count + ((if range.start > cursor then 1 else 0) + 1)) range.stop durable

/-- `durable.sort_by_key(|r| r.start())`. -/
def sortByStart (durable : List ByteRange) : List ByteRange :=
  durable.insertionSort fun a b ↦ a.start ≤ b.start

/-- Segments `SegmentMap::restore` would build: touching durable ranges merge, plus gaps. -/
def restoredSegments (durable : List ByteRange) (total : ℕ) : ℕ :=
  let r := restoredLoop 0 0 (sortByStart durable)
  r.1 + if r.2 < total then 1 else 0

theorem sortByStart_perm (durable : List ByteRange) : (sortByStart durable).Perm durable :=
  List.perm_insertionSort _ durable

theorem Apart.perm {l l' : List ByteRange} (h : l.Perm l') (hl : Apart l) : Apart l' :=
  (h.pairwise_iff fun {a b} hab ↦ by rw [overlaps_comm]; exact hab).1 hl

/-- Sorted disjoint ranges ascend. -/
theorem ascending_sortByStart {l : List ByteRange} (h : Apart l) : Ascending (sortByStart l) := by
  have hsorted : (sortByStart l).Pairwise fun a b ↦ a.start ≤ b.start :=
    List.pairwise_insertionSort (fun a b : ByteRange ↦ a.start ≤ b.start) l
  have hdis := h.perm (sortByStart_perm l).symm
  refine (hsorted.and hdis).imp ?_
  rintro a b ⟨hle, hno⟩
  by_contra hlt
  have hover : overlaps a b = true := by
    have := b.start_lt
    exact decide_eq_true ⟨by omega, by omega⟩
  rw [hno] at hover
  cases hover

/-- The number of pieces the building loop lays out from `cursor` on. -/
def pieces (total : ℕ) : ℕ → List ByteRange → ℕ
  | cursor, [] => if cursor < total then 1 else 0
  | cursor, range :: merged =>
    ((if range.start > cursor then 1 else 0) + 1) + pieces total range.stop merged

theorem length_buildSegments {total : ℕ} {merged : List ByteRange} {segments out : List Segment}
    {cursor : ℕ} (h : SegmentMap.buildSegments total segments cursor merged = .ok out) :
    out.length = segments.length + pieces total cursor merged := by
  induction merged generalizing segments cursor with
  | nil =>
    rw [SegmentMap.buildSegments] at h
    rw [pieces]
    split at h
    next hlt =>
      split at h
      · cases h
      · cases h
        simp [hlt]
    next hge =>
      cases h
      simp [hge]
  | cons range merged ih =>
    rw [SegmentMap.buildSegments] at h
    rw [pieces]
    split at h
    next hgap =>
      split at h
      · cases h
      · rw [ih h, SegmentMap.length_push, SegmentMap.length_push, if_pos hgap]
        omega
    next hnogap =>
      rw [ih h, SegmentMap.length_push, if_neg hnogap]
      omega

/-- The prediction follows the merging loop: touching ranges extend the last merged one, and every
other range adds a piece and the gap before it. -/
theorem restoredLoop_merge {total : ℕ} {durable before out : List ByteRange} {last : ByteRange}
    (count : ℕ) (hcount : count > 0)
    (h : SegmentMap.mergeDurable total (last :: before) durable = .ok out) :
    ∃ last' rest, out = before.reverse ++ last' :: rest ∧ last'.start = last.start ∧
      (restoredLoop count last.stop durable).1 +
          (if (restoredLoop count last.stop durable).2 < total then 1 else 0) =
        count + pieces total last'.stop rest := by
  induction durable generalizing last before count with
  | nil =>
    cases h
    exact ⟨last, [], by simp, rfl, rfl⟩
  | cons range durable ih =>
    rw [SegmentMap.mergeDurable] at h
    split at h
    · cases h
    split at h
    · cases h
    next hge =>
      split at h
      next htouch =>
        split at h
        · cases h
        next joined hjoined =>
          obtain ⟨hs, he⟩ := ByteRange.new_eq_ok.1 hjoined
          obtain ⟨last', rest, hout, hstart, hsum⟩ := ih count hcount h
          refine ⟨last', rest, hout, hstart.trans hs, ?_⟩
          rw [restoredLoop, if_pos ⟨hcount, htouch⟩, ← he]
          exact hsum
      next hne =>
        have hgap : range.start > last.stop := by omega
        obtain ⟨last', rest, hout, hstart, hsum⟩ := ih (count + (1 + 1)) (by omega) h
        refine ⟨last, last' :: rest, by simpa using hout, rfl, ?_⟩
        rw [restoredLoop, if_neg (by tauto), if_pos hgap, pieces, hstart, if_pos hgap]
        omega

/-- **The prediction is exact**: one segment for each run of the covered set. -/
theorem restoredSegments_eq {durable : List ByteRange} {total : ℕ} (htotal : total ≤ i64Max)
    (hdis : Apart durable) (hle : ∀ r ∈ durable, r.stop ≤ total) :
    restoredSegments durable total = (runStarts total (Covered durable)).card := by
  have hasc := ascending_sortByStart hdis
  have hle' : ∀ r ∈ sortByStart durable, r.stop ≤ total :=
    fun r hr ↦ hle r ((sortByStart_perm durable).mem_iff.1 hr)
  obtain ⟨merged, hmerge⟩ := SegmentMap.mergeDurable_isOk [] hasc hle' (by simp)
  obtain ⟨hsep, hmerged, hcov⟩ := SegmentMap.mergeDurable_eq_ok hmerge List.Pairwise.nil (by simp)
  obtain ⟨tail, hbuild, hlaid⟩ := SegmentMap.buildSegments_eq_ok htotal [] hsep hmerged
    (fun _ _ ↦ Nat.zero_le _) (Nat.zero_le total)
  have hcongr : runStarts total (Covered merged) = runStarts total (Covered durable) := by
    refine runStarts_congr fun p _ ↦ ?_
    rw [hcov, covered_perm (sortByStart_perm durable)]
    simp
  have hpieces : restoredSegments durable total = pieces total 0 merged := by
    unfold restoredSegments
    rcases hsort : sortByStart durable with - | ⟨range, rest⟩
    · rw [hsort] at hmerge
      cases hmerge
      exact Nat.zero_add _
    · rw [hsort, SegmentMap.mergeDurable] at hmerge
      split at hmerge
      · cases hmerge
      · obtain ⟨last', rest', hout, hstart, hsum⟩ :=
          restoredLoop_merge (0 + ((if range.start > 0 then 1 else 0) + 1)) (by omega) hmerge
        obtain rfl : merged = last' :: rest' := by simpa using hout
        rw [restoredLoop, if_neg (by simp), pieces, hstart]
        dsimp only
        rw [hsum]
        omega
  have hlen := length_buildSegments hbuild
  rw [hpieces, ← hcongr, hlaid.length_eq]
  simpa using hlen.symm

/-! ### The bytes of disjoint ranges -/

open Classical in
/-- Disjoint ranges inside the plan have as many bytes as they cover. -/
theorem sum_len_eq {l : List ByteRange} {total : ℕ} (hdis : Apart l)
    (hle : ∀ r ∈ l, r.stop ≤ total) :
    (l.map ByteRange.len).sum = ((Finset.Ico 0 total).filter (Covered l)).card := by
  induction l with
  | nil => simp
  | cons r l ih =>
    obtain ⟨hr, hl⟩ := List.pairwise_cons.1 hdis
    have hstop := hle r List.mem_cons_self
    have hown : (Finset.Ico 0 total).filter (· ∈ r) = Finset.Ico r.start r.stop := by
      ext p
      simp only [Finset.mem_filter, Finset.mem_Ico, ByteRange.mem_def]
      omega
    have hsplit : (Finset.Ico 0 total).filter (Covered (r :: l)) =
        (Finset.Ico 0 total).filter (· ∈ r) ∪ (Finset.Ico 0 total).filter (Covered l) := by
      rw [← Finset.filter_or]
      exact Finset.filter_congr fun p _ ↦ covered_cons
    have hapart : Disjoint ((Finset.Ico 0 total).filter (· ∈ r))
        ((Finset.Ico 0 total).filter (Covered l)) := by
      rw [Finset.disjoint_filter]
      rintro p - hp ⟨x, hx, hpx⟩
      have := hr x hx
      rw [overlaps_iff.2 ⟨p, hp, hpx⟩] at this
      cases this
    rw [hsplit, Finset.card_union_of_disjoint hapart, hown, Nat.card_Ico, List.map_cons,
      List.sum_cons, ih hl fun x hx ↦ hle x (List.mem_cons_of_mem _ hx)]
    rfl

/-- As many bytes as the plan has leave none uncovered. -/
theorem covered_of_total_le_sum {l : List ByteRange} {total : ℕ} (hdis : Apart l)
    (hle : ∀ r ∈ l, r.stop ≤ total) (hsum : total ≤ (l.map ByteRange.len).sum) {p : ℕ}
    (hp : p < total) : Covered l p := by
  classical
  rw [sum_len_eq hdis hle] at hsum
  have hall : (Finset.Ico 0 total).filter (Covered l) = Finset.Ico 0 total := by
    refine Finset.eq_of_subset_of_card_le (Finset.filter_subset _ _) ?_
    rw [Nat.card_Ico, Nat.sub_zero]
    exact hsum
  have hmem : p ∈ (Finset.Ico 0 total).filter (Covered l) := by
    rw [hall]
    exact Finset.mem_Ico.2 ⟨Nat.zero_le p, hp⟩
  exact (Finset.mem_filter.1 hmem).2

end Persistence

end Fhd
