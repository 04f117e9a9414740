import Mathlib.Data.List.Basic
import Mathlib.Tactic.Common

/-!
# Journals

A journal is the list of what happened, oldest first, and only grows. What is required of an entry is said by what
stands before it (`Guarded`), so it never has to be shown again; that an entry has been followed by one of some
kind (`Followed`) stays true too.
-/

namespace Journal

variable {α : Type*} {G : List α → α → Prop} {S : α → Prop} {log log' before after : List α} {x y : α}

/-- Every entry is allowed by what stands before it. -/
def Guarded (G : List α → α → Prop) (log : List α) : Prop :=
  ∀ before x after, log = before ++ x :: after → G before x

theorem guarded_concat : Guarded G (log ++ [x]) ↔ Guarded G log ∧ G log x := by
  constructor
  · refine fun h ↦ ⟨fun before y after hlog ↦ h before y (after ++ [x]) (by simp [hlog]), h log x [] rfl⟩
  · rintro ⟨hlog, hx⟩ before y after h
    rcases List.eq_nil_or_concat after with rfl | ⟨after, z, rfl⟩
    · obtain ⟨rfl, heq⟩ := List.append_inj' h rfl
      rwa [(List.cons.inj heq).1] at hx
    · rw [List.concat_eq_append, ← List.cons_append, ← List.append_assoc] at h
      exact hlog before y after (List.append_inj' h rfl).1

theorem Guarded.append (h : Guarded G log)
    (hnew : ∀ before x after, log' = before ++ x :: after → G (log ++ before) x) : Guarded G (log ++ log') := by
  induction log' generalizing log with
  | nil => rwa [List.append_nil]
  | cons x log' ih =>
    have hx := hnew [] x log' rfl
    rw [List.append_nil] at hx
    have hrest := ih (guarded_concat.2 ⟨h, hx⟩) fun before y after hlog ↦ by
      have := hnew (x :: before) y after (by rw [hlog, List.cons_append])
      rwa [List.append_assoc, List.singleton_append]
    rwa [List.append_assoc, List.singleton_append] at hrest

/-- Entries that are allowed everywhere. -/
theorem Guarded.append_free (h : Guarded G log) (hfree : ∀ x ∈ log', ∀ before, G before x) : Guarded G (log ++ log') :=
  h.append fun _ x _ hlog ↦ hfree x (hlog ▸ List.mem_append_right _ List.mem_cons_self) _

/-- The entry stands before one of this kind. -/
def Followed (log : List α) (x : α) (S : α → Prop) : Prop :=
  ∃ before y after, log = before ++ y :: after ∧ x ∈ before ∧ S y

theorem followed_concat (hx : x ∈ log) (hy : S y) : Followed (log ++ [y]) x S := ⟨log, y, [], rfl, hx, hy⟩

theorem Followed.append (h : Followed log x S) (log' : List α) : Followed (log ++ log') x S := by
  obtain ⟨before, y, after, rfl, hx, hy⟩ := h
  exact ⟨before, y, after ++ log', by simp, hx, hy⟩

/-- **What stands before one of a kind stands before the last one of it.** -/
theorem Followed.mem_of_last (h : Followed log x S) (hlog : log = before ++ y :: after) (hlast : ∀ z ∈ after, ¬S z) :
    x ∈ before := by
  obtain ⟨before', z, after', hlog', hx, hz⟩ := h
  rw [hlog] at hlog'
  rcases List.append_eq_append_iff.1 hlog' with ⟨mid, rfl, hmid⟩ | ⟨mid, rfl, -⟩
  · cases mid with
    | nil => simpa using hx
    | cons w mid =>
      rw [List.cons_append] at hmid
      have hmem : z ∈ after := by
        rw [(List.cons.inj hmid).2]
        exact List.mem_append_right _ List.mem_cons_self
      exact absurd hz (hlast z hmem)
  · exact List.mem_append_left _ hx

end Journal
