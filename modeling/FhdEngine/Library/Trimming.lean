import Mathlib.Data.List.DropRight
import Mathlib.Data.List.SplitOn
import Mathlib.Tactic.Common

/-!
# Trimmed lists

What stands between the elements that may be dropped from both ends of a list.
-/

namespace Trimming

variable {α : Type*} {p : α → Bool} {l left core right : List α}

/-- Without the elements of `p` at both ends. -/
def trim (p : α → Bool) (l : List α) : List α := (l.dropWhile p).rdropWhile p

theorem dropWhile_append_of_forall (h : ∀ x ∈ left, p x = true) : (left ++ l).dropWhile p = l.dropWhile p := by
  induction left with
  | nil => rfl
  | cons x left ih =>
    rw [List.cons_append, List.dropWhile_cons_of_pos (h x List.mem_cons_self)]
    exact ih fun y hy ↦ h y (List.mem_cons_of_mem _ hy)

theorem rdropWhile_append_of_forall (h : ∀ x ∈ right, p x = true) :
    (l ++ right).rdropWhile p = l.rdropWhile p := by
  induction right using List.reverseRecOn with
  | nil => rw [List.append_nil]
  | append_singleton right x ih =>
    rw [← List.append_assoc, List.rdropWhile_concat_pos p _ x (h x (by simp))]
    exact ih fun y hy ↦ h y (List.mem_append_left _ hy)

theorem dropWhile_eq_self_of_head (h : ∀ x ∈ l.head?, p x = false) : l.dropWhile p = l := by
  cases l with
  | nil => rfl
  | cons x l => exact List.dropWhile_cons_of_neg (by simp [h x rfl])

theorem rdropWhile_eq_self_of_last (h : ∀ x ∈ l.getLast?, p x = false) : l.rdropWhile p = l :=
  List.rdropWhile_eq_self_iff.2 fun hne ↦ by
    rw [h _ (List.getLast?_eq_getLast_of_ne_nil hne)]
    exact Bool.false_ne_true

/-- A list is its core with something that is dropped on either side. -/
theorem exists_eq_append (p : α → Bool) (l : List α) : ∃ left right,
    l = left ++ trim p l ++ right ∧ (∀ x ∈ left, p x = true) ∧ ∀ x ∈ right, p x = true := by
  refine ⟨l.takeWhile p, (l.dropWhile p).rtakeWhile p, ?_, fun x ↦ List.mem_takeWhile_imp,
    fun x ↦ List.mem_rtakeWhile_imp⟩
  rw [trim, List.append_assoc, List.rdropWhile_append_rtakeWhile, List.takeWhile_append_dropWhile]

/-- **The core is the only one** with these ends. -/
theorem trim_eq (hhead : ∀ x ∈ core.head?, p x = false) (hlast : ∀ x ∈ core.getLast?, p x = false)
    (hleft : ∀ x ∈ left, p x = true) (hright : ∀ x ∈ right, p x = true) :
    trim p (left ++ core ++ right) = core := by
  rcases List.eq_nil_or_concat core with rfl | ⟨front, last, rfl⟩
  · rw [List.append_nil, trim, dropWhile_append_of_forall hleft,
      List.dropWhile_eq_nil_iff.2 hright, List.rdropWhile_nil]
  · rw [trim, List.append_assoc, dropWhile_append_of_forall hleft, dropWhile_eq_self_of_head,
      rdropWhile_append_of_forall hright, rdropWhile_eq_self_of_last hlast]
    intro x hx
    refine hhead x ?_
    rwa [List.head?_append_of_ne_nil] at hx
    simp

theorem trim_eq_iff (hhead : ∀ x ∈ core.head?, p x = false) (hlast : ∀ x ∈ core.getLast?, p x = false) :
    trim p l = core ↔ ∃ left right, l = left ++ core ++ right ∧ (∀ x ∈ left, p x = true) ∧
      ∀ x ∈ right, p x = true := by
  constructor
  · rintro rfl
    exact exists_eq_append p l
  · rintro ⟨left, right, rfl, hleft, hright⟩
    exact trim_eq hhead hlast hleft hright

theorem trim_eq_self (hhead : ∀ x ∈ l.head?, p x = false) (hlast : ∀ x ∈ l.getLast?, p x = false) :
    trim p l = l := by
  rw [trim, dropWhile_eq_self_of_head hhead, rdropWhile_eq_self_of_last hlast]

end Trimming
