import Mathlib.Data.List.Lookmap
import Mathlib.Data.List.Nodup
import Mathlib.Tactic.Common

/-!
# Tables in order

Lists of keyed values whose order counts, looked up by key. Where the keys are distinct, an entry is looked up
exactly if it is there, and what is changed under a key is changed there and nowhere else.
-/

namespace Table

variable {κ ν : Type*}

/-- The keys, in order. -/
def keys (l : List (κ × ν)) : List κ := l.map Prod.fst

section Keys

variable {l : List (κ × ν)} {k : κ} {v : ν} {e : κ × ν}

@[simp] theorem keys_nil : keys ([] : List (κ × ν)) = [] := rfl

@[simp] theorem keys_cons (e : κ × ν) (l : List (κ × ν)) : keys (e :: l) = e.1 :: keys l := rfl

@[simp] theorem keys_append (l l' : List (κ × ν)) : keys (l ++ l') = keys l ++ keys l' := List.map_append

theorem mem_keys : k ∈ keys l ↔ ∃ v, (k, v) ∈ l := by simp [keys]

theorem mem_keys_of_mem (h : e ∈ l) : e.1 ∈ keys l := List.mem_map_of_mem h

theorem eq_of_mem (hl : (keys l).Nodup) {v' : ν} (h : (k, v) ∈ l) (h' : (k, v') ∈ l) : v = v' :=
  (Prod.mk.inj (List.inj_on_of_nodup_map hl h h' rfl)).2

/-- A change that keeps the keys keeps their order. -/
theorem keys_map {f : κ × ν → κ × ν} (h : ∀ e ∈ l, (f e).1 = e.1) : keys (l.map f) = keys l := by
  rw [keys, keys, List.map_map]
  exact List.map_congr_left h

end Keys

variable [DecidableEq κ] {l : List (κ × ν)} {key k : κ} {v : ν} {f : ν → ν} {e : κ × ν} {p : κ × ν → Bool}

/-- Changes the first value under a key. -/
def adjust (key : κ) (f : ν → ν) (l : List (κ × ν)) : List (κ × ν) :=
  l.lookmap fun e ↦ if e.1 = key then some (e.1, f e.2) else none

theorem adjust_cons (e : κ × ν) (l : List (κ × ν)) :
    adjust key f (e :: l) = if e.1 = key then (e.1, f e.2) :: l else e :: adjust key f l := by
  rw [adjust]
  split
  next h => exact List.lookmap_cons_some _ _ (if_pos h)
  next h => exact List.lookmap_cons_none _ _ (if_neg h)

@[simp] theorem keys_adjust (key : κ) (f : ν → ν) (l : List (κ × ν)) : keys (adjust key f l) = keys l := by
  induction l with
  | nil => rfl
  | cons e l ih =>
    rw [adjust_cons]
    split
    · rfl
    · rw [keys_cons, keys_cons, ih]

theorem mem_of_lookup (h : l.lookup k = some v) : (k, v) ∈ l := by
  obtain ⟨before, after, rfl, -⟩ := List.lookup_eq_some_iff.1 h
  exact List.mem_append_right _ List.mem_cons_self

theorem lookup_eq_none : l.lookup k = none ↔ k ∉ keys l := by
  rw [List.lookup_eq_none_iff, mem_keys]
  exact ⟨fun h ⟨v, hv⟩ ↦ by simpa using h _ hv, fun h e he ↦ by
    simpa using fun hk : k = e.1 ↦ h ⟨e.2, hk ▸ he⟩⟩

/-- **What is changed under a key is changed there and nowhere else.** -/
theorem adjust_eq_map (hl : (keys l).Nodup) :
    adjust key f l = l.map fun e ↦ if e.1 = key then (e.1, f e.2) else e := by
  induction l with
  | nil => rfl
  | cons e l ih =>
    obtain ⟨hnew, hrest⟩ := List.nodup_cons.1 (show (e.1 :: keys l).Nodup from hl)
    rw [adjust_cons, List.map_cons]
    split
    next he =>
      have hsame : (l.map fun x ↦ if x.1 = key then (x.1, f x.2) else x) = l.map id :=
        List.map_congr_left fun x hx ↦ if_neg fun hk : x.1 = key ↦ hnew (he ▸ hk ▸ mem_keys_of_mem hx)
      rw [hsame, List.map_id]
    next => rw [ih hrest]

theorem mem_adjust (hl : (keys l).Nodup) :
    e ∈ adjust key f l ↔ e.1 ≠ key ∧ e ∈ l ∨ ∃ v, (key, v) ∈ l ∧ e = (key, f v) := by
  rw [adjust_eq_map hl, List.mem_map]
  constructor
  · rintro ⟨e', he', rfl⟩
    by_cases hk : e'.1 = key
    · rw [if_pos hk]
      exact .inr ⟨e'.2, hk ▸ he', by rw [hk]⟩
    · rw [if_neg hk]
      exact .inl ⟨hk, he'⟩
  · rintro (⟨hk, he⟩ | ⟨v, hv, rfl⟩)
    · exact ⟨e, he, if_neg hk⟩
    · exact ⟨(key, v), hv, if_pos rfl⟩

theorem lookup_adjust (key k : κ) (f : ν → ν) (l : List (κ × ν)) :
    (adjust key f l).lookup k = if k = key then (l.lookup k).map f else l.lookup k := by
  induction l with
  | nil => simp [adjust]
  | cons e l ih =>
    obtain ⟨key', v⟩ := e
    rw [adjust_cons]
    by_cases hkey : key' = key <;> by_cases hk : k = key' <;> grind

theorem lookup_map (g : κ × ν → ν) (k : κ) (l : List (κ × ν)) :
    (l.map fun e ↦ (e.1, g e)).lookup k = (l.lookup k).map fun v ↦ g (k, v) := by
  induction l with
  | nil => rfl
  | cons e l ih =>
    obtain ⟨key', v⟩ := e
    by_cases hk : k = key' <;> grind

theorem lookup_of_mem (hl : (keys l).Nodup) (h : (k, v) ∈ l) : l.lookup k = some v := by
  cases hv : l.lookup k with
  | none => exact absurd (mem_keys_of_mem h) (lookup_eq_none.1 hv)
  | some v' => rw [eq_of_mem hl h (mem_of_lookup hv)]

theorem eraseP_eq_filter (hl : (keys l).Nodup) : l.eraseP (·.1 = key) = l.filter (·.1 ≠ key) := by
  induction l with
  | nil => rfl
  | cons e l ih =>
    obtain ⟨hnew, hrest⟩ := List.nodup_cons.1 (show (e.1 :: keys l).Nodup from hl)
    by_cases he : e.1 = key
    · rw [List.eraseP_cons_of_pos (by simpa using he), List.filter_cons_of_neg (by simpa using he)]
      exact (List.filter_eq_self.2 fun x hx ↦ decide_eq_true fun hk : x.1 = key ↦
        hnew (he ▸ hk ▸ mem_keys_of_mem hx)).symm
    · rw [List.eraseP_cons_of_neg (by simpa using he), List.filter_cons_of_pos (by simpa using he), ih hrest]

/-! ### Counting -/

theorem countP_adjust_le (h : ∀ v, (key, v) ∈ l → p (key, f v) → p (key, v)) :
    (adjust key f l).countP p ≤ l.countP p := by
  induction l with
  | nil => exact Nat.zero_le _
  | cons e l ih =>
    have hrest := ih fun v hv ↦ h v (List.mem_cons_of_mem _ hv)
    rw [adjust_cons]
    split
    next he =>
      have := h e.2 (by simp [← he])
      grind
    next => grind

/-- **Counting after a change**: one entry more or less, or none. -/
theorem countP_adjust (h : l.lookup key = some v) :
    (adjust key f l).countP p + (p (key, v)).toNat = l.countP p + (p (key, f v)).toNat := by
  induction l with
  | nil => cases h
  | cons e l ih =>
    obtain ⟨key', v'⟩ := e
    rw [adjust_cons]
    by_cases hkey : key' = key
    · subst hkey
      obtain rfl : v' = v := by simpa using h
      rw [if_pos rfl, List.countP_cons, List.countP_cons]
      cases p (key', v') <;> cases p (key', f v') <;> simp
    · have hrest : l.lookup key = some v := by
        rwa [List.lookup_cons, beq_false_of_ne (Ne.symm hkey)] at h
      rw [if_neg hkey, List.countP_cons, List.countP_cons]
      have := ih hrest
      omega

theorem countP_adjust_le_succ : (adjust key f l).countP p ≤ l.countP p + 1 := by
  induction l with
  | nil => exact Nat.zero_le _
  | cons e l ih =>
    rw [adjust_cons]
    split <;> grind

end Table
