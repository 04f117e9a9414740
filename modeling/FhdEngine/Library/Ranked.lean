import Mathlib.Data.List.Induction
import Mathlib.Order.Lattice

/-!
# Merging by rank

Values are merged one after another and each has a rank. A merge returns the value of the higher rank, and between
equals it returns some value of that rank. The result of a list then has the greatest rank in it whatever the order,
and which value of that rank it is depends on the ties alone: it is the first if ties keep what is there
(`find?_combine`), and it is greatest in a measure if ties join it (`measure_combine`).
-/

namespace Fhd

variable {α β γ : Type*} [LinearOrder β] [LinearOrder γ]

/-- A merge that respects a rank. -/
structure Ranked (rank : α → β) (merge : α → α → α) : Prop where
  rank_merge : ∀ a b, rank (merge a b) = max (rank a) (rank b)
  merge_of_lt : ∀ {a b}, rank a < rank b → merge a b = b
  merge_of_gt : ∀ {a b}, rank b < rank a → merge a b = a

/-- The first value, merged with those after it. -/
def combine (merge : α → α → α) : List α → Option α
  | [] => none
  | a :: as => some (as.foldl merge a)

section combine

variable {merge : α → α → α} {as : List α} {a t : α}

@[simp] theorem combine_nil : combine merge [] = none := rfl

theorem combine_concat (merge : α → α → α) (as : List α) (a : α) :
    combine merge (as ++ [a]) = some ((combine merge as).elim a fun t ↦ merge t a) := by
  cases as with
  | nil => rfl
  | cons b bs => simp [combine]

theorem combine_eq_none : combine merge as = none ↔ as = [] := by
  cases as <;> simp [combine]

end combine

namespace Ranked

variable {rank : α → β} {merge : α → α → α} {as : List α} {t : α}

/-- **Induction** on the values merged, by what the last one is to those before it. -/
theorem induction (h : Ranked rank merge) {P : List α → α → Prop} (single : ∀ a, P [a] a)
    (higher : ∀ {as t a}, combine merge as = some t → P as t → rank t < rank a → P (as ++ [a]) a)
    (tie : ∀ {as t a}, combine merge as = some t → P as t → rank t = rank a → P (as ++ [a]) (merge t a))
    (lower : ∀ {as t a}, combine merge as = some t → P as t → rank a < rank t → P (as ++ [a]) t)
    (ht : combine merge as = some t) : P as t := by
  induction as using List.reverseRecOn generalizing t with
  | nil => cases ht
  | append_singleton as a ih =>
    rw [combine_concat, Option.some.injEq] at ht
    subst ht
    cases hcombine : combine merge as with
    | none =>
      rw [combine_eq_none.1 hcombine]
      exact single a
    | some t =>
      show P (as ++ [a]) (merge t a)
      rcases lt_trichotomy (rank t) (rank a) with hlt | heq | hgt
      · rw [h.merge_of_lt hlt]
        exact higher hcombine (ih hcombine) hlt
      · exact tie hcombine (ih hcombine) heq
      · rw [h.merge_of_gt hgt]
        exact lower hcombine (ih hcombine) hgt

theorem rank_tie (h : Ranked rank merge) {a b : α} (htie : rank a = rank b) : rank (merge a b) = rank a := by
  rw [h.rank_merge, htie, max_self]

/-- **The rank of a combination** is the greatest of its values, in any order. -/
theorem rank_combine (h : Ranked rank merge) (ht : combine merge as = some t) :
    (∀ a ∈ as, rank a ≤ rank t) ∧ ∃ a ∈ as, rank a = rank t := by
  refine h.induction (P := fun as t ↦ (∀ a ∈ as, rank a ≤ rank t) ∧ ∃ a ∈ as, rank a = rank t)
    (by simp) ?_ ?_ ?_ ht
  · rintro as t a - ⟨hle, -⟩ hlt
    refine ⟨fun b hb ↦ ?_, a, by simp, rfl⟩
    rcases List.mem_append.1 hb with hb | hb
    · exact (hle b hb).trans hlt.le
    · rw [List.mem_singleton.1 hb]
  · rintro as t a - ⟨hle, b, hb, hrank⟩ htie
    rw [h.rank_tie htie]
    refine ⟨fun c hc ↦ ?_, b, List.mem_append_left _ hb, hrank⟩
    rcases List.mem_append.1 hc with hc | hc
    · exact hle c hc
    · rw [List.mem_singleton.1 hc, htie]
  · rintro as t a - ⟨hle, b, hb, hrank⟩ hgt
    refine ⟨fun c hc ↦ ?_, b, List.mem_append_left _ hb, hrank⟩
    rcases List.mem_append.1 hc with hc | hc
    · exact hle c hc
    · rw [List.mem_singleton.1 hc]
      exact hgt.le

/-- The rank does not depend on the order. -/
theorem rank_combine_perm (h : Ranked rank merge) {bs : List α} {u : α} (hperm : as.Perm bs)
    (ht : combine merge as = some t) (hu : combine merge bs = some u) : rank t = rank u := by
  obtain ⟨hle, a, ha, hrank⟩ := h.rank_combine ht
  obtain ⟨hle', b, hb, hrank'⟩ := h.rank_combine hu
  apply le_antisymm
  · rw [← hrank]
    exact hle' a (hperm.mem_iff.1 ha)
  · rw [← hrank']
    exact hle b (hperm.mem_iff.2 hb)

/-- **Ties that keep what is there** make the combination the first value of its rank. -/
theorem find?_combine (h : Ranked rank merge) (ht : combine merge as = some t)
    (hties : ∀ a b, rank a = rank t → rank b = rank t → merge a b = a) :
    as.find? (fun a ↦ rank a = rank t) = some t := by
  refine h.induction (P := fun as t ↦ (∀ a b, rank a = rank t → rank b = rank t → merge a b = a) →
    as.find? (fun a ↦ rank a = rank t) = some t) (by simp) ?_ ?_ ?_ ht hties
  · intro as t a hcombine _ hlt _
    -- nothing before has this rank
    have hnone : as.find? (fun b ↦ decide (rank b = rank a)) = none := by
      refine List.find?_eq_none.2 fun b hb hrank ↦ ?_
      exact absurd (of_decide_eq_true hrank) (((h.rank_combine hcombine).1 b hb).trans_lt hlt).ne
    rw [List.find?_append, hnone]
    simp
  · intro as t a _ ih htie hties
    have hrank := h.rank_tie htie
    rw [hrank] at hties
    rw [hties t a rfl htie.symm, List.find?_append, ih hties]
    rfl
  · intro as t a _ ih _ hties
    rw [List.find?_append, ih hties]
    rfl

/-- **Ties that join a measure** make the combination greatest in it among the values of its rank. -/
theorem measure_combine (h : Ranked rank merge) (measure : α → γ) (ht : combine merge as = some t)
    (hties : ∀ a b, rank a = rank t → rank b = rank t → measure (merge a b) = max (measure a) (measure b)) :
    (∀ a ∈ as, rank a = rank t → measure a ≤ measure t) ∧ ∃ a ∈ as, rank a = rank t ∧ measure a = measure t := by
  refine h.induction (P := fun as t ↦
    (∀ a b, rank a = rank t → rank b = rank t → measure (merge a b) = max (measure a) (measure b)) →
    (∀ a ∈ as, rank a = rank t → measure a ≤ measure t) ∧ ∃ a ∈ as, rank a = rank t ∧ measure a = measure t)
    (by simp) ?_ ?_ ?_ ht hties
  · intro as t a hcombine _ hlt _
    refine ⟨fun b hb hrank ↦ ?_, a, by simp, rfl, rfl⟩
    rcases List.mem_append.1 hb with hb | hb
    · exact absurd hrank (((h.rank_combine hcombine).1 b hb).trans_lt hlt).ne
    · rw [List.mem_singleton.1 hb]
  · intro as t a _ ih htie hties
    rw [h.rank_tie htie] at hties ⊢
    obtain ⟨hle, b, hb, hrank, hmeasure⟩ := ih hties
    have hjoin := hties t a rfl htie.symm
    constructor
    · intro c hc hrank
      rw [hjoin]
      rcases List.mem_append.1 hc with hc | hc
      · exact (hle c hc hrank).trans (le_max_left _ _)
      · rw [List.mem_singleton.1 hc]
        exact le_max_right _ _
    · rcases le_total (measure a) (measure t) with hge | hge
      · exact ⟨b, List.mem_append_left _ hb, hrank, by rw [hjoin, max_eq_left hge, hmeasure]⟩
      · exact ⟨a, by simp, htie.symm, by rw [hjoin, max_eq_right hge]⟩
  · intro as t a _ ih hgt hties
    obtain ⟨hle, b, hb, hrank, hmeasure⟩ := ih hties
    refine ⟨fun c hc hc' ↦ ?_, b, List.mem_append_left _ hb, hrank, hmeasure⟩
    rcases List.mem_append.1 hc with hc | hc
    · exact hle c hc hc'
    · rw [List.mem_singleton.1 hc] at hc'
      exact absurd hc' hgt.ne

end Ranked

end Fhd
