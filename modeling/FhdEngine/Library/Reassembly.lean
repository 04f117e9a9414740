import Mathlib.Data.List.Basic

/-!
# Items in a stream

A **cutter** takes one item off the front of a buffer, waits for more, or refuses. What it has said of a buffer
it says of every longer one. So it does not matter in which pieces a stream arrives: draining the buffer after
every piece comes to what draining the whole stream comes to (`drain_append`).
-/

/-- Takes items off the front of a buffer. -/
structure Cutter (α β ε : Type) where
  next : List α → Except ε (Option (β × List α))
  shrinks : ∀ {l item rest}, next l = .ok (some (item, rest)) → rest.length < l.length
  item_append : ∀ {l item rest} (more : List α), next l = .ok (some (item, rest)) →
    next (l ++ more) = .ok (some (item, rest ++ more))
  error_append : ∀ {l e} (more : List α), next l = .error e → next (l ++ more) = .error e

namespace Cutter

variable {α β ε : Type} (C : Cutter α β ε)

/-- The items at the front of a buffer, and what is left of it unless it is refused. -/
def drain (l : List α) : List β × Except ε (List α) :=
  match _hnext : C.next l with
  | .error e => ([], .error e)
  | .ok none => ([], .ok l)
  | .ok (some (item, rest)) => (item :: (drain rest).1, (drain rest).2)
termination_by l.length
decreasing_by all_goals exact C.shrinks _hnext

variable {C} {l : List α}

theorem drain_error {e : ε} (h : C.next l = .error e) : C.drain l = ([], .error e) := by
  rw [drain]
  split
  next hnext => rw [Except.error.inj (h.symm.trans hnext)]
  next hnext => cases h.symm.trans hnext
  next hnext => cases h.symm.trans hnext

theorem drain_none (h : C.next l = .ok none) : C.drain l = ([], .ok l) := by
  rw [drain]
  split
  next hnext => cases h.symm.trans hnext
  next => rfl
  next hnext => cases h.symm.trans hnext

theorem drain_item {item : β} {rest : List α} (h : C.next l = .ok (some (item, rest))) :
    C.drain l = (item :: (C.drain rest).1, (C.drain rest).2) := by
  rw [drain]
  split
  next hnext => cases h.symm.trans hnext
  next hnext => cases h.symm.trans hnext
  next hnext =>
    cases h.symm.trans hnext
    rfl

/-- What is left of a buffer waits for more. -/
theorem next_of_drain {rest : List α} (h : (C.drain l).2 = .ok rest) : C.next rest = .ok none := by
  induction l using drain.induct C with
  | case1 l e hnext =>
    rw [drain_error hnext] at h
    cases h
  | case2 l hnext =>
    rw [drain_none hnext] at h
    cases h
    exact hnext
  | case3 l item left hnext ih =>
    rw [drain_item hnext] at h
    exact ih h

/-- What was refused is refused for good. -/
theorem drain_append_error {e : ε} (more : List α) (h : (C.drain l).2 = .error e) :
    C.drain (l ++ more) = ((C.drain l).1, .error e) := by
  induction l using drain.induct C with
  | case1 l e' hnext =>
    rw [drain_error hnext] at h ⊢
    cases h
    exact drain_error (C.error_append more hnext)
  | case2 l hnext =>
    rw [drain_none hnext] at h
    cases h
  | case3 l item rest hnext ih =>
    rw [drain_item hnext] at h ⊢
    rw [drain_item (C.item_append more hnext), ih h]

/-- **Draining goes on where it stopped.** -/
theorem drain_append {rest : List α} (more : List α) (h : (C.drain l).2 = .ok rest) :
    C.drain (l ++ more) = ((C.drain l).1 ++ (C.drain (rest ++ more)).1, (C.drain (rest ++ more)).2) := by
  induction l using drain.induct C with
  | case1 l e hnext =>
    rw [drain_error hnext] at h
    cases h
  | case2 l hnext =>
    rw [drain_none hnext] at h ⊢
    cases h
    rfl
  | case3 l item left hnext ih =>
    rw [drain_item hnext] at h ⊢
    rw [drain_item (C.item_append more hnext), ih h]
    rfl

/-- Nothing is refused at the front of a stream that is not refused. -/
theorem drain_ok_of_append {more rest : List α} (h : (C.drain (l ++ more)).2 = .ok rest) :
    ∃ left, (C.drain l).2 = .ok left := by
  match hdrain : (C.drain l).2 with
  | .ok left => exact ⟨left, rfl⟩
  | .error e =>
    rw [drain_append_error more hdrain] at h
    cases h

end Cutter
