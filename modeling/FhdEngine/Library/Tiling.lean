import Mathlib.Algebra.GroupWithZero.Nat
import Mathlib.Order.Basic
import Mathlib.Data.List.Pairwise
import Mathlib.Data.List.Sort
import Mathlib.Data.Finset.Card
import Mathlib.Order.Interval.Finset.Nat
import Mathlib.Algebra.BigOperators.Group.List.Basic
import Mathlib.Tactic.Common

/-!
# Tilings of an interval by a list of pieces

A list of pieces **tiles** the interval from `a` to `b` when each piece starts where the previous
one stopped, none is empty, the first starts at `a` and the last stops at `b`. The pieces are of
any type `ι`; two functions `lo` and `hi` read their ends in a linear order. A development whose
pieces carry more than their ends (a state, an identifier) therefore never projects its list to a
list of pairs first.

The definition is a recursion on the list, so an operation that replaces one piece is handled by
`Tiles.replace`, and everything a reader expects of a partition is derived: the pieces are bounded
(`Tiles.bounds`), ordered and disjoint (`Tiles.pairwise`), and each point lies in exactly one of
them (`Tiles.exists_mem`, `Tiles.eq_of_mem`).

## Counting runs

The second half counts how often membership in a set changes along `[0, n)`. `runStarts n D` is
the set of points at which a maximal run of `D` or of its complement begins. A tiling whose pieces
do not straddle the boundary of `D` has at least that many pieces (`card_runStarts_le`), and
exactly that many when neighbouring pieces lie on different sides (`card_runStarts_eq`). So the
coarsest such tiling is characterised by the set alone. `Tiles.sum_filter` counts the points of some
of the pieces by adding up their lengths.
-/

namespace Tiling

section Order

variable {ι α : Type*} [LinearOrder α] (lo hi : ι → α)

/-- The list tiles the interval from the first argument to the last. -/
def Tiles : α → List ι → α → Prop
  | a, [], b => a = b
  | a, x :: l, b => lo x = a ∧ lo x < hi x ∧ Tiles (hi x) l b

variable {lo hi} {a b c p : α} {x y : ι} {l l₁ l₂ : List ι}

@[simp] theorem tiles_nil : Tiles lo hi a [] b ↔ a = b := Iff.rfl

@[simp] theorem tiles_cons :
    Tiles lo hi a (x :: l) b ↔ lo x = a ∧ lo x < hi x ∧ Tiles lo hi (hi x) l b := Iff.rfl

theorem tiles_append :
    Tiles lo hi a (l₁ ++ l₂) b ↔ ∃ c, Tiles lo hi a l₁ c ∧ Tiles lo hi c l₂ b := by
  induction l₁ generalizing a with
  | nil => simp
  | cons x l ih =>
    simp only [List.cons_append, tiles_cons, ih]
    constructor
    · rintro ⟨h₁, h₂, c, h₃, h₄⟩
      exact ⟨c, ⟨h₁, h₂, h₃⟩, h₄⟩
    · rintro ⟨c, ⟨h₁, h₂, h₃⟩, h₄⟩
      exact ⟨h₁, h₂, c, h₃, h₄⟩

/-- Only the ends of the pieces matter. -/
theorem tiles_map {κ : Type*} {lo' hi' : κ → α} {f : ι → κ} (hlo : ∀ x ∈ l, lo' (f x) = lo x)
    (hhi : ∀ x ∈ l, hi' (f x) = hi x) : Tiles lo' hi' a (l.map f) b ↔ Tiles lo hi a l b := by
  induction l generalizing a with
  | nil => simp
  | cons x l ih =>
    rw [List.map_cons, tiles_cons, tiles_cons, hlo x List.mem_cons_self, hhi x List.mem_cons_self,
      ih (fun y hy ↦ hlo y (List.mem_cons_of_mem _ hy))
        (fun y hy ↦ hhi y (List.mem_cons_of_mem _ hy))]

namespace Tiles

theorem le (h : Tiles lo hi a l b) : a ≤ b := by
  induction l generalizing a with
  | nil => exact le_of_eq h
  | cons x l ih => exact h.1 ▸ h.2.1.le.trans (ih h.2.2)

/-- **Replacement**: a piece gives way to a tiling of its own interval. -/
theorem replace {pre mid post : List ι} (h : Tiles lo hi a (pre ++ x :: post) b)
    (hmid : Tiles lo hi (lo x) mid (hi x)) : Tiles lo hi a (pre ++ (mid ++ post)) b := by
  obtain ⟨c, hpre, hx, -, hpost⟩ := tiles_append.1 h
  exact tiles_append.2 ⟨c, hpre, tiles_append.2 ⟨hi x, hx ▸ hmid, hpost⟩⟩

/-- Every piece is nonempty and inside the interval. -/
theorem bounds (h : Tiles lo hi a l b) (hx : x ∈ l) : a ≤ lo x ∧ lo x < hi x ∧ hi x ≤ b := by
  induction l generalizing a with
  | nil => exact absurd hx List.not_mem_nil
  | cons y l ih =>
    obtain ⟨hlo, hlt, hl⟩ := h
    rcases List.mem_cons.1 hx with rfl | hx'
    · exact ⟨hlo.ge, hlt, hl.le⟩
    · obtain ⟨h₁, h₂, h₃⟩ := ih hl hx'
      exact ⟨hlo ▸ hlt.le.trans h₁, h₂, h₃⟩

/-- **Ordered and disjoint**: an earlier piece stops before a later one starts. -/
theorem pairwise (h : Tiles lo hi a l b) : l.Pairwise fun x y ↦ hi x ≤ lo y := by
  induction l generalizing a with
  | nil => exact List.Pairwise.nil
  | cons x l ih => exact List.Pairwise.cons (fun y hy ↦ (h.2.2.bounds hy).1) (ih h.2.2)

/-- The starts are pairwise distinct. -/
theorem nodup_starts (h : Tiles lo hi a l b) : (l.map lo).Nodup := by
  induction l generalizing a with
  | nil => exact List.nodup_nil
  | cons x l ih =>
    refine List.nodup_cons.2 ⟨fun hmem ↦ ?_, ih h.2.2⟩
    obtain ⟨y, hy, hxy⟩ := List.mem_map.1 hmem
    exact absurd (h.2.1.trans_le (h.2.2.bounds hy).1) (hxy ▸ lt_irrefl _)

/-- **No gap**: every point of the interval lies in a piece. -/
theorem exists_mem (h : Tiles lo hi a l b) (ha : a ≤ p) (hb : p < b) :
    ∃ x ∈ l, lo x ≤ p ∧ p < hi x := by
  induction l generalizing a with
  | nil => exact absurd (h ▸ ha) (not_le_of_gt hb)
  | cons x l ih =>
    obtain ⟨hlo, -, hl⟩ := h
    rcases lt_or_ge p (hi x) with hp | hp
    · exact ⟨x, List.mem_cons_self, hlo ▸ ha, hp⟩
    · obtain ⟨y, hy, hmem⟩ := ih hl hp
      exact ⟨y, List.mem_cons_of_mem _ hy, hmem⟩

/-- **No overlap**: a point lies in at most one piece. -/
theorem eq_of_mem (h : Tiles lo hi a l b) (hx : x ∈ l) (hy : y ∈ l)
    (hpx : lo x ≤ p ∧ p < hi x) (hpy : lo y ≤ p ∧ p < hi y) : x = y := by
  induction l generalizing a with
  | nil => exact absurd hx List.not_mem_nil
  | cons z l ih =>
    have hz := h.2.2
    rcases List.mem_cons.1 hx with rfl | hx' <;> rcases List.mem_cons.1 hy with rfl | hy'
    · rfl
    · exact absurd (hpx.2.trans_le ((hz.bounds hy').1.trans hpy.1)) (lt_irrefl _)
    · exact absurd (hpy.2.trans_le ((hz.bounds hx').1.trans hpx.1)) (lt_irrefl _)
    · exact ih hz hx' hy'

end Tiles

end Order

/-! ### Runs of a set along a tiling of `[0, n)` -/

section Runs

variable {ι : Type*} {lo hi : ι → ℕ} {l : List ι} {n : ℕ} {D : ℕ → Prop}

open Classical in
/-- The points of `[0, n)` at which a maximal run inside or outside `D` begins. -/
noncomputable def runStarts (n : ℕ) (D : ℕ → Prop) : Finset ℕ :=
  (Finset.range n).filter fun p ↦ p = 0 ∨ ¬(D p ↔ D (p - 1))

theorem mem_runStarts {p : ℕ} : p ∈ runStarts n D ↔ p < n ∧ (p = 0 ∨ ¬(D p ↔ D (p - 1))) := by
  simp [runStarts]

/-- Only membership below `n` matters. -/
theorem runStarts_congr {D' : ℕ → Prop} (h : ∀ p < n, (D p ↔ D' p)) :
    runStarts n D = runStarts n D' := by
  ext p
  simp only [mem_runStarts]
  constructor <;> rintro ⟨hp, hrun⟩ <;> refine ⟨hp, hrun.imp_right fun hne heq ↦ hne ?_⟩
  · rw [h p hp, h (p - 1) (by omega), heq]
  · rw [← h p hp, ← h (p - 1) (by omega), heq]

/-- No piece straddles the boundary of `D`. -/
def Uniform (lo hi : ι → ℕ) (D : ℕ → Prop) (l : List ι) : Prop :=
  ∀ x ∈ l, ∀ p q, lo x ≤ p → p < hi x → lo x ≤ q → q < hi x → (D p ↔ D q)

/-- A run can only begin where a piece does, so a uniform tiling has at least one piece a run. -/
theorem card_runStarts_le (h : Tiles lo hi 0 l n) (hu : Uniform lo hi D l) :
    (runStarts n D).card ≤ l.length := by
  have hsub : runStarts n D ⊆ (l.map lo).toFinset := by
    intro p hp
    obtain ⟨hpn, hrun⟩ := mem_runStarts.1 hp
    obtain ⟨x, hx, hlo, hhi⟩ := h.exists_mem (Nat.zero_le p) hpn
    refine List.mem_toFinset.2 (List.mem_map.2 ⟨x, hx, ?_⟩)
    by_contra hne
    have hlt : lo x < p := lt_of_le_of_ne hlo hne
    rcases hrun with rfl | hne'
    · omega
    · exact hne' (hu x hx p (p - 1) hlo hhi (by omega) (by omega))
  calc (runStarts n D).card ≤ (l.map lo).toFinset.card := Finset.card_le_card hsub
    _ ≤ (l.map lo).length := List.toFinset_card_le _
    _ = l.length := List.length_map ..

/-- Neighbouring pieces lie on different sides of `D`. -/
def Alternating (lo : ι → ℕ) (D : ℕ → Prop) (l : List ι) : Prop :=
  l.IsChain fun x y ↦ ¬(D (lo x) ↔ D (lo y))

/-- A piece of a uniform alternating tiling begins a run, provided the first one does. -/
theorem begins_run {a : ℕ} (h : Tiles lo hi a l n) (hu : Uniform lo hi D l)
    (halt : Alternating lo D l) (hfirst : ∀ x ∈ l.head?, lo x = 0 ∨ ¬(D (lo x) ↔ D (lo x - 1))) :
    ∀ x ∈ l, lo x = 0 ∨ ¬(D (lo x) ↔ D (lo x - 1)) := by
  induction l generalizing a with
  | nil => intro x hx; exact absurd hx List.not_mem_nil
  | cons x l ih =>
    intro y hy
    rcases List.mem_cons.1 hy with rfl | hy'
    · exact hfirst y rfl
    refine ih h.2.2 (fun z hz ↦ hu z (List.mem_cons_of_mem _ hz)) (List.IsChain.of_cons halt) ?_ y
      hy'
    -- the next piece starts where `x` stops, and `x` lies on one side up to its last point
    intro z hz
    cases l with
    | nil => exact absurd hz (by simp)
    | cons z' l' =>
      obtain rfl : z' = z := by simpa using hz
      have hlt := h.2.1
      have hstart : lo z' = hi x := h.2.2.1
      have hside : D (lo x) ↔ D (hi x - 1) :=
        hu x List.mem_cons_self _ _ le_rfl hlt (by omega) (by omega)
      have hne : ¬(D (lo x) ↔ D (lo z')) := (List.isChain_cons_cons.1 halt).1
      refine Or.inr fun heq ↦ hne ?_
      rw [hside, heq, hstart]

/-- In a uniform alternating tiling the pieces are exactly the runs. -/
theorem card_runStarts_eq (h : Tiles lo hi 0 l n) (hu : Uniform lo hi D l)
    (halt : Alternating lo D l) : (runStarts n D).card = l.length := by
  refine le_antisymm (card_runStarts_le h hu) ?_
  have hmem : ∀ x ∈ l, lo x = 0 ∨ ¬(D (lo x) ↔ D (lo x - 1)) := by
    refine begins_run h hu halt fun x hx ↦ Or.inl ?_
    cases l with
    | nil => exact absurd hx (by simp)
    | cons y l =>
      obtain rfl : y = x := by simpa using hx
      exact h.1
  have hsub : (l.map lo).toFinset ⊆ runStarts n D := by
    intro p hp
    obtain ⟨x, hx, rfl⟩ := List.mem_map.1 (List.mem_toFinset.1 hp)
    obtain ⟨-, hlt, hle⟩ := h.bounds hx
    exact mem_runStarts.2 ⟨hlt.trans_le hle, hmem x hx⟩
  calc l.length = (l.map lo).toFinset.card := by
        rw [List.toFinset_card_of_nodup h.nodup_starts, List.length_map]
    _ ≤ (runStarts n D).card := Finset.card_le_card hsub

end Runs

/-! ### Counting the points of some of the pieces -/

section Points

variable {ι : Type*} {lo hi : ι → ℕ} {l : List ι} {a b : ℕ}

open Classical in
/-- The lengths of the pieces that satisfy `P` add up to the number of points they cover. -/
theorem Tiles.sum_filter (h : Tiles lo hi a l b) (P : ι → Bool) :
    ((l.filter P).map fun x ↦ hi x - lo x).sum =
      ((Finset.Ico a b).filter fun p ↦ ∃ x ∈ l, P x = true ∧ lo x ≤ p ∧ p < hi x).card := by
  induction l generalizing a with
  | nil =>
    obtain rfl : a = b := h
    simp
  | cons x l ih =>
    obtain ⟨rfl, hlt, hl⟩ := h
    have hhere : ((Finset.Ico (lo x) (hi x)).filter fun p ↦ ∃ y ∈ x :: l, P y = true ∧ lo y ≤ p ∧
        p < hi y) = if P x then Finset.Ico (lo x) (hi x) else ∅ := by
      ext p
      simp only [Finset.mem_filter, Finset.mem_Ico]
      constructor
      · rintro ⟨⟨h₁, h₂⟩, y, hy, hP, h₃, -⟩
        rcases List.mem_cons.1 hy with rfl | hy'
        · rw [if_pos hP]
          exact Finset.mem_Ico.2 ⟨h₁, h₂⟩
        · have := (hl.bounds hy').1
          omega
      · intro hp
        split at hp
        next hP =>
          obtain ⟨h₁, h₂⟩ := Finset.mem_Ico.1 hp
          exact ⟨⟨h₁, h₂⟩, x, List.mem_cons_self, hP, h₁, h₂⟩
        · exact absurd hp (Finset.notMem_empty p)
    have hrest : ((Finset.Ico (hi x) b).filter fun p ↦ ∃ y ∈ x :: l, P y = true ∧ lo y ≤ p ∧
        p < hi y) = (Finset.Ico (hi x) b).filter fun p ↦ ∃ y ∈ l, P y = true ∧ lo y ≤ p ∧
        p < hi y := by
      refine Finset.filter_congr fun p hp ↦ ?_
      obtain ⟨hp', -⟩ := Finset.mem_Ico.1 hp
      constructor
      · rintro ⟨y, hy, hP, h₁, h₂⟩
        rcases List.mem_cons.1 hy with rfl | hy'
        · omega
        · exact ⟨y, hy', hP, h₁, h₂⟩
      · rintro ⟨y, hy, hrest⟩
        exact ⟨y, List.mem_cons_of_mem _ hy, hrest⟩
    rw [← Finset.Ico_union_Ico_eq_Ico hlt.le hl.le, Finset.filter_union, Finset.card_union_of_disjoint
      (Finset.disjoint_filter_filter (Finset.Ico_disjoint_Ico_consecutive _ _ _)), hhere, hrest,
      ← ih hl]
    by_cases hP : P x = true <;> simp [hP]

end Points

end Tiling
