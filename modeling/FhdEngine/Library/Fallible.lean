import Mathlib.Data.List.Basic
import Mathlib.Tactic.Common

/-!
# Steps that may fail

What a sequence of fallible steps came to, read off what each of them came to.
-/

namespace Fallible

variable {ε α β : Type}

/-- A sequence of two steps succeeds when both do. -/
theorem bind_eq_ok {x : Except ε α} {f : α → Except ε β} {b : β} :
    x >>= f = .ok b ↔ ∃ a, x = .ok a ∧ f a = .ok b := by
  rcases x with e | a <;> simp [bind, Except.bind]

/-- A sequence of two steps fails with the error of the first that does. -/
theorem bind_eq_error {x : Except ε α} {f : α → Except ε β} {e : ε} :
    x >>= f = .error e ↔ x = .error e ∨ ∃ a, x = .ok a ∧ f a = .error e := by
  rcases x with e' | a <;> simp [bind, Except.bind]

/-- An error that is thrown on a condition, as the `do` notation writes it. -/
theorem throwIf_eq_ok {p : Prop} [Decidable p] {e : ε} {f : PUnit → Except ε β} {b : β} :
    (if p then throw e >>= f else f ⟨⟩) = .ok b ↔ ¬p ∧ f ⟨⟩ = .ok b := by
  split
  next hp => exact ⟨nofun, fun h ↦ absurd hp h.1⟩
  next hp => exact ⟨fun h ↦ ⟨hp, h⟩, fun h ↦ h.2⟩

theorem map_eq_ok {g : α → β} {x : Except ε α} {b : β} : g <$> x = .ok b ↔ ∃ a, x = .ok a ∧ g a = b := by
  rcases x with e | a <;> simp [Functor.map, Except.map]

/-- A loop that collects succeeds when every iteration does. -/
theorem mapM_isOk {f : α → Except ε β} {l : List α}
    (h : ∀ a ∈ l, ∃ b, f a = .ok b) : ∃ bs, l.mapM f = .ok bs := by
  induction l with
  | nil => exact ⟨[], rfl⟩
  | cons a l ih =>
    obtain ⟨b, hb⟩ := h a List.mem_cons_self
    obtain ⟨bs, hbs⟩ := ih fun x hx ↦ h x (List.mem_cons_of_mem _ hx)
    exact ⟨b :: bs, by rw [List.mapM_cons, hb, hbs]; rfl⟩

theorem mem_of_mapM_eq_ok {f : α → Except ε β} {l : List α} {bs : List β}
    (h : l.mapM f = .ok bs) {b : β} : b ∈ bs ↔ ∃ a ∈ l, f a = .ok b := by
  induction l generalizing bs with
  | nil =>
    cases h
    simp
  | cons a l ih =>
    rw [List.mapM_cons] at h
    obtain ⟨b', hb', h⟩ := bind_eq_ok.1 h
    obtain ⟨bs', hbs', h⟩ := bind_eq_ok.1 h
    cases h
    rw [List.mem_cons, ih hbs', List.exists_mem_cons_iff, hb', Except.ok.injEq, eq_comm]

/-- What a loop collects, as far as each iteration determines it. -/
theorem map_of_mapM_eq_ok {γ : Type} {f : α → Except ε β} {g : β → γ} {k : α → γ} (hf : ∀ a b, f a = .ok b → g b = k a)
    {l : List α} {bs : List β} (h : l.mapM f = .ok bs) : bs.map g = l.map k := by
  induction l generalizing bs with
  | nil =>
    cases h
    rfl
  | cons a l ih =>
    rw [List.mapM_cons] at h
    obtain ⟨b, hb, h⟩ := bind_eq_ok.1 h
    obtain ⟨bs', hbs', h⟩ := bind_eq_ok.1 h
    cases h
    rw [List.map_cons, List.map_cons, hf a b hb, ih hbs']

/-- A loop of checks succeeds when every check does. -/
theorem forM_eq_ok {f : α → Except ε Unit} {l : List α} : l.forM f = .ok () ↔ ∀ a ∈ l, f a = .ok () := by
  induction l with
  | nil => exact ⟨fun _ ↦ List.forall_mem_nil _, fun _ ↦ rfl⟩
  | cons a l ih =>
    have hcons : (a :: l).forM f = f a >>= fun _ ↦ l.forM f := rfl
    rw [hcons, bind_eq_ok, List.forall_mem_cons, ← ih]
    exact ⟨fun ⟨_, ha, hl⟩ ↦ ⟨ha, hl⟩, fun ⟨ha, hl⟩ ↦ ⟨⟨⟩, ha, hl⟩⟩

end Fallible
