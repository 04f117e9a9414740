import Mathlib.Data.Nat.Basic
import Mathlib.Data.List.Basic
import Mathlib.Order.Basic
import Mathlib.Tactic.Common

/-!
# Histories of a machine that answers calls

A **machine** is a function `step : σ → ι → ρ × σ`: it is called with an input, answers, and moves to
its next state. A history is the list of inputs it was called with, oldest first. What was answered
is not recorded anywhere: `Call step s l k x r` says that call number `k` of the history `l` from `s`
was `x` and was answered `r`, and it is determined by the prefix of `l` before `k`, so it never
changes when the history grows (`Call.concat`).

Three rules carry every argument about whole histories:

* `after_induction`, for what holds of every reachable state;
* `after_take_induction`, for what holds from some moment on;
* `Quiet`, for "nothing of that kind happened strictly between `a` and `b`", which a further call
  extends (`Quiet.extend`) unless it is of that kind.

`call_unique` and `not_call_after` combine the second rule with a **spent** predicate: once a state
is spent it stays spent, a spent state refuses, and acceptance spends.
-/

namespace History

variable {σ ι ρ : Type*} (step : σ → ι → ρ × σ)

/-- The state after a list of calls. -/
def after (s : σ) (l : List ι) : σ := l.foldl (fun s x ↦ (step s x).2) s

/-- Call number `k` of the history `l` from `s` was `x`, and it was answered `r`. -/
def Call (s : σ) (l : List ι) (k : ℕ) (x : ι) (r : ρ) : Prop :=
  l[k]? = some x ∧ (step (after step s (l.take k)) x).1 = r

/-- No call satisfying `P` happened strictly between `a` and `b`. -/
def Quiet (P : ι → ρ → Prop) (s : σ) (l : List ι) (a b : ℕ) : Prop :=
  ∀ k x r, a < k → k < b → Call step s l k x r → ¬P x r

variable {step} {s : σ} {l : List ι} {x y : ι} {r r' : ρ} {k i j a b : ℕ} {P : ι → ρ → Prop}

@[simp] theorem after_nil : after step s [] = s := rfl

@[simp] theorem after_cons : after step s (x :: l) = after step (step s x).2 l := rfl

@[simp] theorem after_concat : after step s (l ++ [x]) = (step (after step s l) x).2 := by
  simp [after]

/-- **What every step preserves holds after every history.** -/
theorem after_induction {I : σ → Prop} (hstep : ∀ s x, I s → I (step s x).2) (h : I s)
    (l : List ι) : I (after step s l) := by
  induction l generalizing s with
  | nil => exact h
  | cons x l ih => exact ih (hstep s x h)

theorem after_take_succ (hk : l[k]? = some x) :
    after step s (l.take (k + 1)) = (step (after step s (l.take k)) x).2 := by
  rw [List.take_add_one, hk]
  exact after_concat

/-- **What every step preserves holds from then on.** The invariant `I` may be used for it. -/
theorem after_take_induction {I D : σ → Prop} (hI : ∀ s x, I s → I (step s x).2) (hs : I s)
    (hD : ∀ s x, I s → D s → D (step s x).2) (hij : i ≤ j) (h : D (after step s (l.take i))) :
    D (after step s (l.take j)) := by
  induction j, hij using Nat.le_induction with
  | base => exact h
  | succ j _ ih =>
    rcases hx : l[j]? with - | x
    · rw [List.take_add_one, hx]
      simpa using ih
    · rw [after_take_succ hx]
      exact hD _ _ (after_induction hI hs _) ih

namespace Call

theorem lt (h : Call step s l k x r) : k < l.length :=
  (List.getElem?_eq_some_iff.1 h.1).1

/-- The past does not change. -/
theorem concat (h : Call step s l k x r) (y : ι) : Call step s (l ++ [y]) k x r := by
  have hk := h.lt
  refine ⟨by rw [List.getElem?_append_left hk]; exact h.1, ?_⟩
  rw [List.take_append_of_le_length hk.le]
  exact h.2

theorem of_concat (h : Call step s (l ++ [y]) k x r) (hk : k < l.length) :
    Call step s l k x r := by
  refine ⟨by rw [← h.1, List.getElem?_append_left hk], ?_⟩
  rw [← h.2, List.take_append_of_le_length hk.le]

theorem last : Call step s (l ++ [x]) l.length x (step (after step s l) x).1 :=
  ⟨by simp, by simp⟩

/-- A call of an extended history is an old one or the new one. -/
theorem concat_cases (h : Call step s (l ++ [y]) k x r) :
    Call step s l k x r ∨ k = l.length ∧ x = y ∧ (step (after step s l) y).1 = r := by
  rcases Nat.lt_or_ge k l.length with hk | hk
  · exact Or.inl (h.of_concat hk)
  · obtain rfl : k = l.length := by
      have := h.lt
      rw [List.length_append, List.length_singleton] at this
      omega
    obtain ⟨hx, hr⟩ := h
    obtain rfl : y = x := by simpa using hx
    exact Or.inr ⟨rfl, rfl, by simpa using hr⟩

end Call

namespace Quiet

/-- A closed interval of the past stays quiet. -/
theorem concat (h : Quiet step P s l a b) (hb : b ≤ l.length) (y : ι) :
    Quiet step P s (l ++ [y]) a b :=
  fun k x r hak hkb hcall ↦ h k x r hak hkb (hcall.of_concat (hkb.trans_le hb))

/-- **One more call**: the interval up to now stays quiet unless the call is of the kind. -/
theorem extend (h : Quiet step P s l a l.length) (hy : ¬P y (step (after step s l) y).1) :
    Quiet step P s (l ++ [y]) a (l ++ [y]).length := by
  intro k x r hak _ hcall
  rcases hcall.concat_cases with hold | ⟨-, rfl, rfl⟩
  · exact h k x r hak hold.lt hold
  · exact hy

/-- A call that has just been made is followed by nothing. -/
theorem last : Quiet step P s (l ++ [x]) l.length (l ++ [x]).length := by
  intro k y r hak hkb _
  rw [List.length_append, List.length_singleton] at hkb
  omega

end Quiet

/-! ### Calls that are accepted at most once -/

section Spent

variable {I D : σ → Prop} (hI : ∀ s x, I s → I (step s x).2) (hs : I s)
  (hstable : ∀ s x, I s → D s → D (step s x).2)
  (hrefuse : ∀ s x, I s → D s → ¬P x (step s x).1)
include hI hs hstable hrefuse

/-- Once call `i` has left a spent state behind, no later one is accepted. -/
theorem not_call_after (hspent : D (after step s (l.take (i + 1)))) (hij : i < j)
    (hy : Call step s l j y r') : ¬P y r' := by
  have hD := after_take_induction hI hs hstable hij hspent
  rw [← hy.2]
  exact hrefuse _ _ (after_induction hI hs _) hD

/-- **At most once**: acceptance spends, so two accepted calls are the same call. -/
theorem call_unique (hspend : ∀ s x, I s → P x (step s x).1 → D (step s x).2)
    (hx : Call step s l i x r) (hxP : P x r) (hy : Call step s l j y r') (hyP : P y r') : i = j := by
  have hspent : ∀ {k z t}, Call step s l k z t → P z t → D (after step s (l.take (k + 1))) := by
    intro k z t hz hzP
    rw [after_take_succ hz.1]
    exact hspend _ _ (after_induction hI hs _) (hz.2 ▸ hzP)
  rcases lt_trichotomy i j with h | h | h
  · exact absurd hyP (not_call_after hI hs hstable hrefuse (hspent hx hxP) h hy)
  · exact h
  · exact absurd hxP (not_call_after hI hs hstable hrefuse (hspent hy hyP) h hx)

end Spent

end History
