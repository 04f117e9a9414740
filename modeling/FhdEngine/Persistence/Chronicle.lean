import FhdEngine.Persistence.Tables
import FhdEngine.Domain.JobRestore

/-!
# The chronicle of a job

The row of a job keeps its newest header only, but owners hold copies of any age. The **chronicle**
is the ghost record of every header a job has had, by version. A copy is **current at its version**
when its header is the one the chronicle has there; that is how a copy that an owner made long ago is
related to a row that has moved on.

Consecutive headers follow each other (`Header.Follows`): the plan and the validator of a generation
are set once and never change, and the only other move is to the next generation, with both dropped.
-/

namespace Fhd

namespace Job

variable {j j' : Job} {command : JobCommand}

/-- **Representations in memory.** A step either stays in its generation, where an existing map and
its validator are kept as they are, or moves to the next one and drops both. -/
theorem Step.representation (h : Step j command j') :
    (j'.generation = j.generation ∧ (j.segments.isSome →
        j'.segments = j.segments ∧ j'.validator = j.validator) ∧
      (j.segments = none → command.probes = false → j'.segments = none)) ∨
    (j.generation.next = .ok j'.generation ∧ j'.segments = none ∧ j'.validator = none) := by
  cases h with
  | probeFresh hstate hle hnone hnew =>
    refine Or.inl ⟨rfl, fun h ↦ ?_, fun _ hprobes ↦ by cases hprobes⟩
    rw [hnone] at h
    cases h
  | @drained target _ _ _ _ =>
    obtain ⟨state, retryAt, reason, hland⟩ := land_eq { j with stop := none } target
    rw [hland]
    exact Or.inl ⟨rfl, fun _ ↦ ⟨rfl, rfl⟩, fun h _ ↦ h⟩
  | @replacedOnDrain target next _ _ _ hnext =>
    obtain ⟨state, retryAt, reason, hland⟩ := land_eq
      { j with
        stop := none, replaceOnDrain := false, generation := next, segments := none
        validator := none } target
    rw [hland]
    exact Or.inr ⟨hnext, rfl, rfl⟩
  | replaced hfrom hnext => exact Or.inr ⟨hnext, rfl, rfl⟩
  | _ => exact Or.inl ⟨rfl, fun _ ↦ ⟨rfl, rfl⟩, fun h _ ↦ h⟩

/-- The end of a probe: an existing map survives only if the total is the same and the validator is
present and the same; otherwise there was none, and the plan is the one the command carries. -/
theorem Step.probed {total maxSegments : ℕ} {validator : Option Digest}
    (h : Step j (.probeSucceeded total maxSegments validator) j') : j'.generation = j.generation ∧
      (j.plan = none ∧ j'.plan = some (total, maxSegments) ∧ j'.validator = validator ∨
        (∃ m, j.segments = some m ∧ m.total = total) ∧ validator.isSome ∧ validator = j.validator ∧
          j'.segments = j.segments ∧ j'.validator = j.validator) := by
  generalize hc : JobCommand.probeSucceeded total maxSegments validator = command at h
  have hprobes : command.probes = true := by rw [← hc]; rfl
  cases h with
  | probeKept hstate hle hm htotal hgen hvalidator =>
    cases hc
    exact ⟨rfl, Or.inr ⟨⟨_, hm, htotal⟩, hvalidator, rfl, rfl, rfl⟩⟩
  | probeFresh hstate hle hnone hnew =>
    cases hc
    obtain ⟨-, -, -, hm, -⟩ := SegmentMap.new_eq_ok hnew
    refine ⟨rfl, Or.inl ⟨?_, ?_, rfl⟩⟩
    · rw [plan, hnone]
      rfl
    · rw [plan, hm]
      rfl
  | stop target replace hstate hcommand =>
    rcases hcommand with ⟨h, -⟩ | ⟨rfl, -⟩ | ⟨rfl, -⟩
    · rw [probes_of_cause h] at hprobes
      cases hprobes
    all_goals cases hc
  | retarget target replace attempts hstate hreplace hcommand =>
    rw [hcommand] at hprobes
    cases hprobes
  | park attempts hfrom hstate hcommand =>
    rw [hcommand] at hprobes
    cases hprobes
  | _ => cases hc

end Job

namespace Persistence

/-! ### Headers -/

namespace Header

/-- One header may come right after another. -/
def Follows (h h' : Header) : Prop :=
  (h'.generation = h.generation ∧ (h.plan.isSome → h'.plan = h.plan ∧ h'.validator = h.validator)) ∨
  (h.generation.next = .ok h'.generation ∧ h'.plan = none ∧ h'.validator = none)

/-- Any number of steps later: still the same representation, or a later generation. -/
def Reaches (h h' : Header) : Prop :=
  (h'.generation = h.generation ∧ (h.plan.isSome → h'.plan = h.plan ∧ h'.validator = h.validator)) ∨
  h.generation.get < h'.generation.get

theorem Reaches.refl (h : Header) : h.Reaches h := Or.inl ⟨rfl, fun _ ↦ ⟨rfl, rfl⟩⟩

theorem Reaches.follows {h h' h'' : Header} (hr : h.Reaches h') (hf : h'.Follows h'') :
    h.Reaches h'' := by
  rcases hr with ⟨hgen, hkeep⟩ | hlt
  · rcases hf with ⟨hgen', hkeep'⟩ | ⟨hnext, -⟩
    · refine Or.inl ⟨hgen'.trans hgen, fun hplan ↦ ?_⟩
      obtain ⟨hp, hv⟩ := hkeep hplan
      obtain ⟨hp', hv'⟩ := hkeep' (by rw [hp]; exact hplan)
      exact ⟨hp'.trans hp, hv'.trans hv⟩
    · right
      have := Generation.get_of_next hnext
      rw [hgen] at this
      omega
  · right
    rcases hf with ⟨hgen', -⟩ | ⟨hnext, -⟩
    · rw [hgen']
      exact hlt
    · have := Generation.get_of_next hnext
      omega

end Header

/-- **Headers follow each other** along the steps of a job. -/
theorem follows_of_step {j j' : Job} {command : JobCommand} (h : Job.Step j command j') :
    (Header.of j).Follows (Header.of j') := by
  rcases h.representation with ⟨hgen, hkeep, -⟩ | ⟨hnext, hnone, hval⟩
  · refine Or.inl ⟨hgen, fun hplan ↦ ?_⟩
    have hsome : j.segments.isSome := by simpa [Header.of, Job.plan] using hplan
    obtain ⟨hseg, hval⟩ := hkeep hsome
    exact ⟨by simp only [Header.of, Job.plan, hseg], hval⟩
  · exact Or.inr ⟨hnext, by simp [Header.of, Job.plan, hnone], hval⟩

/-! ### Chronicles -/

/-- Every header each job has had, by version. -/
abbrev Chronicle := ℤ → List Header

namespace Chronicle

/-- Every job starts out freshly admitted, and its headers follow each other. -/
structure Lawful (H : Chronicle) : Prop where
  initial : ∀ id, (H id)[0]? = some Header.initial
  follows : ∀ id v h h', (H id)[v]? = some h → (H id)[v + 1]? = some h' → h.Follows h'

/-- The chronicle before anything happened. -/
def start : Chronicle := fun _ ↦ [Header.initial]

theorem lawful_start : start.Lawful := by
  refine ⟨fun _ ↦ rfl, fun id v h h' _ h₂ ↦ ?_⟩
  simp [start] at h₂

/-- One more header for a job. -/
def record (H : Chronicle) (id : ℤ) (h : Header) : Chronicle := Function.update H id (H id ++ [h])

/-- Nothing that was recorded is lost. -/
def Extends (H H' : Chronicle) : Prop :=
  ∀ (id : ℤ) (v : ℕ) (h : Header), (H id)[v]? = some h → (H' id)[v]? = some h

variable {H : Chronicle} {id : ℤ} {h : Header}

theorem record_self : H.record id h id = H id ++ [h] := Function.update_self ..

theorem record_of_ne {id' : ℤ} (hne : id' ≠ id) : H.record id h id' = H id' :=
  Function.update_of_ne hne ..

theorem Extends.refl (H : Chronicle) : Extends H H := fun _ _ _ h ↦ h

theorem extends_record (H : Chronicle) (id : ℤ) (h : Header) : Extends H (H.record id h) := by
  intro id' v h' hv
  by_cases hid : id' = id
  · rw [hid] at hv ⊢
    rw [record_self, List.getElem?_append_left (List.getElem?_eq_some_iff.1 hv).1]
    exact hv
  · rwa [record_of_ne hid]

/-- A header that follows the newest one may be recorded. -/
theorem Lawful.record (hH : H.Lawful) {newest : Header} (hlast : (H id).getLast? = some newest)
    (hf : newest.Follows h) : (H.record id h).Lawful := by
  refine ⟨fun id' ↦ extends_record H id h id' 0 _ (hH.initial id'), fun id' v h₁ h₂ hv₁ hv₂ ↦ ?_⟩
  by_cases hid : id' = id
  · rw [hid, record_self] at hv₁ hv₂
    rw [List.getLast?_eq_getElem?] at hlast
    have hlen : 0 < (H id).length := (List.getElem?_eq_some_iff.1 (hH.initial id)).1
    have hv := (List.getElem?_eq_some_iff.1 hv₂).1
    rw [List.length_append, List.length_singleton] at hv
    rw [List.getElem?_append_left (by omega)] at hv₁
    by_cases hnew : v + 1 = (H id).length
    · rw [hnew, List.getElem?_concat_length] at hv₂
      have hv' : v = (H id).length - 1 := by omega
      rw [hv', hlast] at hv₁
      cases hv₁
      cases hv₂
      exact hf
    · rw [List.getElem?_append_left (by omega)] at hv₂
      exact hH.follows id v h₁ h₂ hv₁ hv₂
  · rw [record_of_ne hid] at hv₁ hv₂
    exact hH.follows id' v h₁ h₂ hv₁ hv₂

/-- **A representation is fixed for its generation.** -/
theorem Lawful.reaches (hH : H.Lawful) {v w : ℕ} (hvw : v ≤ w) {h h' : Header}
    (hv : (H id)[v]? = some h) (hw : (H id)[w]? = some h') : h.Reaches h' := by
  induction w, hvw using Nat.le_induction generalizing h' with
  | base =>
    cases hv.symm.trans hw
    exact Header.Reaches.refl h
  | succ w _ ih =>
    have hlt := (List.getElem?_eq_some_iff.1 hw).1
    have hmid : (H id)[w]? = some ((H id)[w]) := List.getElem?_eq_getElem (by omega)
    exact (ih hmid).follows (hH.follows id w _ _ hmid hw)

end Chronicle

end Persistence

end Fhd
