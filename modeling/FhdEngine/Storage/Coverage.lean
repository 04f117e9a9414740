import FhdEngine.Storage.Part
import FhdEngine.Domain.SegmentRestore
import Mathlib.Data.List.TakeWhile

/-!
# What the coverage of a part is

`coverage_plan` and `add_coverage` keep the ranges of a part in order with a gap between neighbours, so
that a range can only touch a run of neighbours, and replacing that run by one range adds exactly the
range and nothing else (`coveragePlan_eq_ok`). A part is complete exactly when every byte is covered
(`complete_iff`).
-/

namespace Fhd.FilePart

variable {h : FilePart} {range : ByteRange} {plan : ℕ × ℕ × ByteRange}

/-- Two ranges that overlap or touch make one. -/
theorem union_iff {a b a' b' p : ℕ} (h : a < b) (h' : a' < b') (hleft : a' ≤ b) (hright : a ≤ b') :
    min a a' ≤ p ∧ p < max b b' ↔ (a ≤ p ∧ p < b) ∨ (a' ≤ p ∧ p < b') := by
  omega

/-- **What the loop swallows**: a run of neighbours that grows the range into its union with them, and
leaves only entries that lie beyond it. -/
theorem swallow_eq {l : List ByteRange} (last start stop : ℕ) (hsep : Separated l)
    (hlt : start < stop) (hstart : ∀ e ∈ l, start ≤ e.stop) (hmax : stop ≤ i64Max) :
    ∃ run rest start' stop', l = run ++ rest ∧
      swallow l last start stop = (last + run.length, start', stop') ∧
      start' ≤ start ∧ (start' = start ∨ ∃ e ∈ run, start' = e.start) ∧
      start' < stop' ∧ stop' ≤ i64Max ∧
      (∀ p, start' ≤ p ∧ p < stop' ↔ (start ≤ p ∧ p < stop) ∨ Covered run p) ∧
      ∀ e ∈ rest, stop' < e.start := by
  induction l generalizing last start stop with
  | nil => exact ⟨[], [], start, stop, rfl, rfl, le_rfl, Or.inl rfl, hlt, hmax, by simp, nofun⟩
  | cons e l ih =>
    obtain ⟨hfirst, hsep'⟩ := List.pairwise_cons.1 hsep
    rw [swallow]
    split
    next hbeyond =>
      refine ⟨[], e :: l, start, stop, rfl, rfl, le_rfl, Or.inl rfl, hlt, hmax, by simp, ?_⟩
      intro e' he'
      rcases List.mem_cons.1 he' with rfl | he'
      · exact hbeyond
      · have := hfirst e' he'
        have := e.start_lt
        omega
    next htouch =>
      have htouch' := hstart e List.mem_cons_self
      have := e.start_lt
      have := e.stop_le
      obtain ⟨run, rest, start', stop', rfl, heq, hle, hfrom, hlt', hmax', hp, hrest⟩ :=
        ih (last + 1) (min start e.start) (max stop e.stop) hsep'
          (by omega)
          (fun e' he' ↦ by
            have := hstart e' (List.mem_cons_of_mem _ he')
            omega)
          (by omega)
      refine ⟨e :: run, rest, start', stop', rfl, ?_, by omega, ?_, hlt', hmax', fun p ↦ ?_, hrest⟩
      · rw [heq, List.length_cons]
        congr 1
        omega
      · rcases hfrom with hfrom | ⟨e', he', hfrom⟩
        · rcases Nat.le_total start e.start with hmin | hmin
          · exact Or.inl (by omega)
          · exact Or.inr ⟨e, List.mem_cons_self, by omega⟩
        · exact Or.inr ⟨e', List.mem_cons_of_mem _ he', hfrom⟩
      · rw [hp p, covered_cons, ByteRange.mem_def, ← or_assoc,
          union_iff hlt e.start_lt (Nat.le_of_not_lt htouch) htouch']

/-- The entries that end before the range, and the others. -/
theorem coverage_split (hsep : Separated h.coverage) (range : ByteRange) :
    ∃ before after, h.coverage = before ++ after ∧
      (h.coverage.takeWhile (·.stop < range.start)).length = before.length ∧
      (∀ e ∈ before, e.stop < range.start) ∧ (∀ e ∈ after, range.start ≤ e.stop) := by
  have hbefore : ∀ e ∈ h.coverage.takeWhile (fun e ↦ e.stop < range.start), e.stop < range.start := by
    intro e he
    simpa using List.mem_takeWhile_imp he
  refine ⟨_, _, (List.takeWhile_append_dropWhile (p := fun e : ByteRange ↦ e.stop < range.start)
    (l := h.coverage)).symm, rfl, hbefore, ?_⟩
  have hdrop := List.head?_dropWhile_not (fun e : ByteRange ↦ decide (e.stop < range.start)) h.coverage
  have hsep' : Separated (h.coverage.dropWhile fun e ↦ e.stop < range.start) :=
    hsep.sublist (List.dropWhile_sublist _)
  rcases hafter : h.coverage.dropWhile (fun e : ByteRange ↦ e.stop < range.start) with - | ⟨e, l⟩
  · exact nofun
  · rw [hafter] at hdrop hsep'
    have hhead : range.start ≤ e.stop := by simpa using hdrop
    intro e' he'
    rcases List.mem_cons.1 he' with rfl | he'
    · exact hhead
    · have := (List.pairwise_cons.1 hsep').1 e' he'
      have := e'.start_lt
      omega

/-- **What a plan does**: coverage stays separated, and grows by the range. -/
theorem coveragePlan_eq_ok (hsep : Separated h.coverage) (hplan : h.coveragePlan range = .ok plan) :
    Separated (h.addCoverage plan).coverage ∧
      ∀ p, Covered (h.addCoverage plan).coverage p ↔ Covered h.coverage p ∨ p ∈ range := by
  obtain ⟨before, after, heq, hlength, hbefore, hafter⟩ := coverage_split hsep range
  have hsplit := hsep
  rw [heq] at hsplit
  obtain ⟨hsep₁, hsep₂, hacross⟩ := List.pairwise_append.1 hsplit
  obtain ⟨run, rest, start, stop, rfl, hswallow, hle, hfrom, hlt, hmax, hp, hrest⟩ :=
    swallow_eq before.length range.start range.stop hsep₂ range.start_lt hafter range.stop_le
  obtain ⟨merged, hnew⟩ : ∃ merged, ByteRange.new start stop = .ok merged :=
    ⟨⟨start, stop, hlt, hmax⟩, ByteRange.new_eq_ok.2 ⟨rfl, rfl⟩⟩
  obtain ⟨hstart, hstop⟩ := ByteRange.new_eq_ok.1 hnew
  have hdrop : h.coverage.drop before.length = run ++ rest := by
    rw [heq, List.drop_left]
  have hplan' : plan = (before.length, before.length + run.length, merged) := by
    unfold coveragePlan at hplan
    simp only [hlength, hdrop, hswallow, hnew] at hplan
    split at hplan
    · cases hplan
    · exact (Except.ok.inj hplan).symm
  have hcoverage : (h.addCoverage plan).coverage = before ++ merged :: rest := by
    rw [hplan', addCoverage, heq, List.take_left, ← List.append_assoc, List.drop_left'
      (by rw [List.length_append])]
  rw [hcoverage]
  refine ⟨List.pairwise_append.2 ⟨hsep₁, List.pairwise_cons.2 ⟨fun e he ↦ ?_, ?_⟩, fun a ha b hb ↦ ?_⟩,
    fun p ↦ ?_⟩
  · rw [hstop]
    exact hrest e he
  · exact (List.pairwise_append.1 hsep₂).2.1
  · rcases List.mem_cons.1 hb with rfl | hb
    · rcases hfrom with hfrom | ⟨e, he, hfrom⟩
      · rw [hstart, hfrom]
        exact hbefore a ha
      · rw [hstart, hfrom]
        exact hacross a ha e (List.mem_append_left _ he)
    · exact hacross a ha b (List.mem_append_right _ hb)
  · rw [heq, covered_append, covered_append, covered_append, covered_cons, ByteRange.mem_def,
      ByteRange.mem_def, hstart, hstop, hp p]
    tauto

theorem covered_of_complete (hcomplete : h.complete = true) {p : ℕ} (hp : p < h.spec.size) :
    Covered h.coverage p := by
  rw [complete, decide_eq_true_iff] at hcomplete
  rcases hcomplete with hzero | hone
  · omega
  · obtain ⟨r, hr, hrange⟩ := List.map_eq_singleton_iff.1 hone
    obtain ⟨hstart, hstop⟩ := Prod.mk.inj hrange
    rw [hr]
    exact ⟨r, List.mem_singleton_self r, by rw [ByteRange.mem_def]; omega⟩

/-- **Complete** means that every byte is covered. -/
theorem complete_iff (hsep : Separated h.coverage) (hle : ∀ r ∈ h.coverage, r.stop ≤ h.spec.size) :
    h.complete = true ↔ ∀ p < h.spec.size, Covered h.coverage p := by
  refine ⟨fun hcomplete p ↦ covered_of_complete hcomplete, fun hall ↦ ?_⟩
  · rw [complete, decide_eq_true_iff]
    refine or_iff_not_imp_left.2 fun hzero ↦ ?_
    rcases hcoverage : h.coverage with - | ⟨e, l⟩
    · have hcovered := hall 0 (Nat.pos_of_ne_zero hzero)
      rw [hcoverage] at hcovered
      exact absurd hcovered covered_nil
    · rw [hcoverage] at hall hsep hle
      obtain ⟨hfirst, -⟩ := List.pairwise_cons.1 hsep
      -- whatever lies before the end of the first entry can only be covered by it
      have hown : ∀ p < h.spec.size, p ≤ e.stop → p ∈ e := by
        intro p hp hpe
        obtain ⟨e', he', hpe'⟩ := hall p hp
        rcases List.mem_cons.1 he' with rfl | he'
        · exact hpe'
        · have := hfirst e' he'
          rw [ByteRange.mem_def] at hpe'
          omega
      have hstart : e.start = 0 := Nat.le_zero.1 (hown 0 (Nat.pos_of_ne_zero hzero) (Nat.zero_le _)).1
      have hstop : e.stop = h.spec.size := by
        have hle' := hle e List.mem_cons_self
        by_contra hne
        exact absurd (hown e.stop (by omega) le_rfl).2 (lt_irrefl _)
      have hnone : l = [] := by
        refine List.eq_nil_iff_forall_not_mem.2 fun e' he' ↦ ?_
        have := hfirst e' he'
        have := hle e' (List.mem_cons_of_mem _ he')
        have := e'.start_lt
        omega
      rw [hnone, List.map_singleton, hstart, hstop]

end Fhd.FilePart
