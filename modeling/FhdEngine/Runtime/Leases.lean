import FhdEngine.Domain.JobInvariant
import FhdEngine.Domain.SegmentProgress
import FhdEngine.Runtime.Session

/-!
# The leases of a session

A session keeps a set of running workers and the lease of each. `Held` says that this bookkeeping and
the segment map agree: every running worker has a lease that the map still honours, and every segment
in flight is held by a running worker. It is why a session's own calls on the map are never refused,
and why the map is quiescent once the workers are joined.

An operation on the map that leaves the segments in flight alone leaves the agreement alone
(`Held.congr`); the two that do not are taking a lease (`Held.taken`) and settling one (`Held.settle`).
-/

namespace Fhd

open SegmentMap

/-! ### Calls on the job that are accepted -/

namespace Job

variable {j : Job} {m m' : SegmentMap}

theorem plan_of (hm : j.segments = some m) : j.plan = some (m.total, m.maximum) := by
  rw [plan, hm]
  rfl

/-- A call on the segments of an active job is the call on its map. -/
theorem onMap_eq {α : Type*} {f : SegmentMap → Except DomainError α × SegmentMap} {r : Except DomainError α}
    (hactive : isActive j.state = true) (hm : j.segments = some m) (hf : f m = (r, m')) :
    j.onMap f = (r, { j with segments := some m' }) := by
  have hstate : j.state = .transferring ∨ j.state = .stopping ∨ j.state = .cancelling := by
    revert hactive
    cases j.state <;> simp [isActive]
  simp only [onMap, if_neg (not_not.2 hstate), hm, hf]

/-- **A held lease is settled one way or the other.** -/
theorem markWritten_of_holding (hj : j.Inv) (hactive : isActive j.state = true)
    (hm : j.segments = some m) {lease : Lease} (hold : m.Holding lease) :
    ∃ pre s post, m.segments = pre ++ s :: post ∧ Holds s lease ∧
      j.markWritten lease = (.ok (),
        { j with
          segments := some
            { m with segments := pre ++ { s with state := .written lease.attempt } :: post } }) := by
  obtain ⟨pre, s, post, hseg, hs, heq⟩ := SegmentMap.markWritten_of_holding (hj.map m hm) hold
  exact ⟨pre, s, post, hseg, hs, onMap_eq hactive hm heq⟩

theorem release_of_holding (hj : j.Inv) (hactive : isActive j.state = true)
    (hm : j.segments = some m) {lease : Lease} (hold : m.Holding lease) :
    ∃ pre s post, m.segments = pre ++ s :: post ∧ Holds s lease ∧
      j.release lease = (.ok (),
        { j with
          segments := some
            { m with segments := pre ++ { s with state := .pending } :: post } }) := by
  obtain ⟨pre, s, post, hseg, hs, heq⟩ := SegmentMap.release_of_holding (hj.map m hm) hold
  exact ⟨pre, s, post, hseg, hs, onMap_eq hactive hm heq⟩

end Job

variable {job job' : Job} {m m' : SegmentMap} {workers : List ℕ} {leases : List (ℕ × Lease)} {next : ℕ}

/-- **The bookkeeping of a session and its segment map agree.** -/
structure Held (job : Job) (workers : List ℕ) (leases : List (ℕ × Lease)) (next : ℕ) : Prop where
  nodup : workers.Nodup
  le : ∀ w ∈ workers, w ≤ next
  lease : ∀ w ∈ workers, ∃ l, leases.lookup w = some l ∧ l.worker = w ∧
    ∃ m ∈ job.segments, m.Holding l
  flight : ∀ m ∈ job.segments, ∀ s ∈ m.segments, ∀ w a, s.state = .inFlight w a →
    w ∈ workers ∧ ∃ l, leases.lookup w = some l ∧ Holds s l

namespace Held

/-- Without workers nothing is in flight. -/
theorem quiet (h : Held job [] leases next) {m : SegmentMap} (hm : m ∈ job.segments) {s : Segment}
    (hs : s ∈ m.segments) : s.state.isInFlight = false := by
  by_contra hin
  cases hstate : s.state with
  | inFlight w a => exact absurd (h.flight m hm s hs w a hstate).1 List.not_mem_nil
  | _ => simp [hstate] at hin

/-- A map in which nothing is in flight needs no worker. -/
theorem of_quiet (h : ∀ m ∈ job.segments, ∀ s ∈ m.segments, s.state.isInFlight = false) :
    Held job [] leases next where
  nodup := List.nodup_nil
  le := fun _ hw ↦ absurd hw List.not_mem_nil
  lease := fun _ hw ↦ absurd hw List.not_mem_nil
  flight := fun m hm s hs w a hstate ↦ by
    have := h m hm s hs
    rw [hstate] at this
    cases this

/-- **What leaves the segments in flight alone leaves the leases alone.** -/
theorem congr (h : Held job workers leases next) (hm : job.segments = some m)
    (hm' : job'.segments = some m') (hjob : m'.job = m.job) (hgen : m'.generation = m.generation)
    (hsame : ∀ s : Segment, s.state.isInFlight = true → (s ∈ m'.segments ↔ s ∈ m.segments)) :
    Held job' workers leases next where
  nodup := h.nodup
  le := h.le
  lease := fun w hw ↦ by
    obtain ⟨l, hl, hworker, m₁, hm₁, hj, hg, s, hs, hold⟩ := h.lease w hw
    obtain rfl : m = m₁ := Option.some.inj (hm.symm.trans hm₁)
    refine ⟨l, hl, hworker, m', hm', hj.trans hjob.symm, hg.trans hgen.symm, s, ?_, hold⟩
    exact (hsame s (by rw [hold.2.2]; rfl)).2 hs
  flight := fun m₁ hm₁ s hs w a hstate ↦ by
    obtain rfl : m' = m₁ := Option.some.inj (hm'.symm.trans hm₁)
    exact h.flight m hm s ((hsame s (by rw [hstate]; rfl)).1 hs) w a hstate

/-- The same map under another state of the job. -/
theorem moved (h : Held job workers leases next) (hseg : job'.segments = job.segments) :
    Held job' workers leases next :=
  ⟨h.nodup, h.le, by rw [hseg]; exact h.lease, by rw [hseg]; exact h.flight⟩

/-- Written segments leave that state all at once. -/
theorem mapped (h : Held job workers leases next) (hm : job.segments = some m)
    (hm' : job'.segments = some m') (hjob : m'.job = m.job) (hgen : m'.generation = m.generation)
    {f : Segment → Segment}
    (hseg : m'.segments = m.segments.map fun s ↦ if s.state.isWritten then f s else s)
    (hf : ∀ s, (f s).state.isInFlight = false) : Held job' workers leases next := by
  refine h.congr hm hm' hjob hgen fun s hin ↦ ?_
  rw [hseg, List.mem_map]
  constructor
  · rintro ⟨t, ht, rfl⟩
    split at hin
    · rw [hf] at hin
      cases hin
    next hw => rwa [if_neg hw]
  · intro hs
    refine ⟨s, hs, if_neg ?_⟩
    revert hin
    cases s.state <;> simp

/-- A cut of a pending segment. -/
theorem cut (h : Held job workers leases next) (hm : job.segments = some m)
    {pre post : List Segment} {s t u : Segment} {n : ℕ} (hseg : m.segments = pre ++ s :: post)
    (hs : s.state = .pending) (ht : t.state = .pending) (hu : u.state = .pending) :
    Held { job with segments := some { m with segments := pre ++ t :: u :: post, nextId := n } }
      workers leases next := by
  refine h.congr hm rfl rfl rfl fun x hx ↦ ?_
  have hne : ∀ {y : Segment}, y.state = .pending → x ≠ y := by
    rintro y hy rfl
    rw [hy] at hx
    cases hx
  simp only [hseg, List.mem_append, List.mem_cons, hne hs, hne ht, hne hu, false_or]

/-- A worker takes a pending segment. -/
theorem taken (h : Held job workers leases next) (hm : job.segments = some m)
    {pre post : List Segment} {s : Segment} (hseg : m.segments = pre ++ s :: post)
    (hpend : s.state = .pending) :
    Held
      { job with
        segments := some
          { m with
            segments := pre ++ { s with state := .inFlight (next + 1) m.nextAttempt } :: post
            nextAttempt := m.nextAttempt + 1 } }
      (workers ++ [next + 1])
      ((next + 1, ⟨m.job, m.generation, s.id, m.nextAttempt, next + 1, s.range⟩) :: leases)
      (next + 1) := by
  have hfresh : next + 1 ∉ workers := fun hmem ↦ by
    have := h.le _ hmem
    omega
  have hlookup : ∀ w ∈ workers, ((next + 1, (⟨m.job, m.generation, s.id, m.nextAttempt, next + 1,
      s.range⟩ : Lease)) :: leases).lookup w = leases.lookup w := by
    intro w hw
    have hne : w ≠ next + 1 := by
      rintro rfl
      exact hfresh hw
    rw [List.lookup_cons, beq_eq_false_iff_ne.2 hne]
  refine ⟨?_, fun w hw ↦ ?_, fun w hw ↦ ?_, fun m₁ hm₁ x hx w a hstate ↦ ?_⟩
  · rw [List.nodup_append]
    exact ⟨h.nodup, List.nodup_singleton _, fun a ha b hb ↦ by
      rw [List.mem_singleton] at hb
      rintro rfl
      exact hfresh (hb ▸ ha)⟩
  · rcases List.mem_append.1 hw with hw' | hw'
    · exact (h.le w hw').trans (Nat.le_succ _)
    · rw [List.mem_singleton.1 hw']
  · rcases List.mem_append.1 hw with hw' | hw'
    · obtain ⟨l, hl, hworker, m₁, hm₁, hj, hg, x, hx, hold⟩ := h.lease w hw'
      obtain rfl : m = m₁ := Option.some.inj (hm.symm.trans hm₁)
      refine ⟨l, (hlookup w hw').trans hl, hworker, _, rfl, hj, hg, x, ?_, hold⟩
      have hne : x ≠ s := by
        rintro rfl
        have := hpend.symm.trans hold.2.2
        cases this
      rw [hseg] at hx
      simp only [List.mem_append, List.mem_cons, hne, false_or] at hx ⊢
      tauto
    · obtain rfl := List.mem_singleton.1 hw'
      exact ⟨_, by rw [List.lookup_cons, beq_self_eq_true], rfl, _, rfl, rfl, rfl,
        { s with state := .inFlight (next + 1) m.nextAttempt }, by simp, rfl, rfl, rfl⟩
  · obtain rfl := Option.some.inj hm₁
    simp only [List.mem_append, List.mem_cons] at hx
    rcases hx with hx | rfl | hx
    · obtain ⟨hw, l, hl, hold⟩ := h.flight m hm x (by rw [hseg]; simp [hx]) w a hstate
      exact ⟨List.mem_append_left _ hw, l, (hlookup w hw).trans hl, hold⟩
    · cases hstate
      exact ⟨by simp, _, by rw [List.lookup_cons, beq_self_eq_true], rfl, rfl, rfl⟩
    · obtain ⟨hw, l, hl, hold⟩ := h.flight m hm x (by rw [hseg]; simp [hx]) w a hstate
      exact ⟨List.mem_append_left _ hw, l, (hlookup w hw).trans hl, hold⟩

end Held

/-- Looking up another key is not disturbed by a removal. -/
theorem lookup_filter_ne {w w' : ℕ} (hne : w' ≠ w) :
    (leases.filter (·.1 ≠ w)).lookup w' = leases.lookup w' := by
  induction leases with
  | nil => rfl
  | cons e leases ih =>
    obtain ⟨k, l⟩ := e
    by_cases hk : k = w
    · subst hk
      rw [List.filter_cons_of_neg (by simp), ih, List.lookup_cons, beq_eq_false_iff_ne.2 hne]
    · rw [List.filter_cons_of_pos (by simpa using hk), List.lookup_cons, List.lookup_cons, ih]

/-- **A lease is settled**: its segment leaves the flight, and its worker is gone. -/
theorem Held.settle (h : Held job workers leases next) (hm : job.segments = some m) (hinv : m.Inv)
    {w : ℕ} (hw : w ∈ workers) {l : Lease} (hl : leases.lookup w = some l)
    {pre post : List Segment} {s s' : Segment} (hseg : m.segments = pre ++ s :: post)
    (hold : Holds s l) (hs' : s'.state.isInFlight = false) :
    Held { job with segments := some { m with segments := pre ++ s' :: post } } (workers.erase w)
      (leases.filter (·.1 ≠ w)) next := by
  have hmem : ∀ {w'}, w' ∈ workers.erase w ↔ w' ≠ w ∧ w' ∈ workers := h.nodup.mem_erase_iff
  have hs : s ∈ m.segments := by rw [hseg]; simp
  -- a segment in flight other than the settled one belongs to another worker
  have hother : ∀ x ∈ m.segments, ∀ w' a, x.state = .inFlight w' a → x ≠ s → w' ≠ w := by
    rintro x hx w' a hstate hne rfl
    obtain ⟨-, l', hl', hold'⟩ := h.flight m hm x hx w' a hstate
    obtain rfl : l = l' := Option.some.inj (hl.symm.trans hl')
    exact hne (holds_unique hinv hx hs hold' hold)
  refine ⟨h.nodup.erase w, fun w' hw' ↦ h.le w' (hmem.1 hw').2, fun w' hw' ↦ ?_,
    fun m₁ hm₁ x hx w' a hstate ↦ ?_⟩
  · obtain ⟨hne, hw''⟩ := hmem.1 hw'
    obtain ⟨l', hl', hworker, m₁, hm₁, hj, hg, x, hx, hold'⟩ := h.lease w' hw''
    obtain rfl : m = m₁ := Option.some.inj (hm.symm.trans hm₁)
    refine ⟨l', (lookup_filter_ne hne).trans hl', hworker, _, rfl, hj, hg, x, ?_, hold'⟩
    have hxs : x ≠ s := by
      rintro rfl
      obtain ⟨l₀, hl₀, hworker₀, -⟩ := h.lease w hw
      obtain rfl : l = l₀ := Option.some.inj (hl.symm.trans hl₀)
      have := hold'.2.2.symm.trans hold.2.2
      rw [hworker, hworker₀] at this
      exact hne (SegmentState.inFlight.inj this).1
    rw [hseg] at hx
    simp only [List.mem_append, List.mem_cons, hxs, false_or] at hx ⊢
    tauto
  · obtain rfl := Option.some.inj hm₁
    have hne' : x ≠ s' := by
      rintro rfl
      rw [hstate] at hs'
      cases hs'
    simp only [List.mem_append, List.mem_cons, hne', false_or] at hx
    have hx' : x ∈ m.segments := by
      rw [hseg]
      simp only [List.mem_append, List.mem_cons]
      tauto
    have hxs : x ≠ s := by
      rintro rfl
      -- the settled segment occurs once
      have hnodup := hinv.ids_nodup
      rw [hseg, List.map_append, List.map_cons, List.nodup_append] at hnodup
      obtain ⟨-, hcons, hdisj⟩ := hnodup
      rcases hx with hpre | hpost
      · exact hdisj _ (List.mem_map_of_mem hpre) _ List.mem_cons_self rfl
      · exact (List.nodup_cons.1 hcons).1 (List.mem_map_of_mem hpost)
    obtain ⟨hw', l', hl', hold'⟩ := h.flight m hm x hx' w' a hstate
    have hne := hother x hx' w' a hstate hxs
    exact ⟨hmem.2 ⟨hne, hw'⟩, l', (lookup_filter_ne hne).trans hl', hold'⟩

end Fhd
