import Mathlib.Data.List.Basic
import Mathlib.Data.List.Count
import Mathlib.Order.Interval.Finset.Defs
import Mathlib.Data.Finset.Card

/-!
# Paging by key

Whoever follows the continuation of each page asks for what comes after the last key it has seen. The keys may
change between two requests. If every page is a front of what comes after its cursor, in order (`IsPage`), then
what is visited ascends (`visited_ascending`), a key that is always there is visited (`mem_visited`), and the walk
ends if there are finitely many keys to visit (`cursor_eq_none`).
-/

namespace Paging

variable {κ : Type*} [LinearOrder κ]

/-- A key comes after a cursor. -/
def After (cursor : Option κ) (key : κ) : Prop := ∀ last ∈ cursor, last < key

/-- **A page**: keys after the cursor, in order, and the last of them if any key is left out. -/
structure IsPage (keys : Set κ) (cursor : Option κ) (page : List κ) (next : Option κ) : Prop where
  ascending : page.Pairwise (· < ·)
  mem : ∀ key ∈ page, key ∈ keys
  after : ∀ key ∈ page, After cursor key
  complete : ∀ key ∈ keys, After cursor key → key ∈ page ∨ ∃ last ∈ next, last < key
  next_last : ∀ last ∈ next, page.getLast? = some last

/-- The keys of a page are up to its continuation. -/
theorem IsPage.le_next {keys : Set κ} {cursor next : Option κ} {page : List κ} (h : IsPage keys cursor page next) :
    ∀ last ∈ next, last ∈ page ∧ ∀ key ∈ page, key ≤ last := by
  intro last hlast
  obtain ⟨front, rfl⟩ := List.getLast?_eq_some_iff.1 (h.next_last last hlast)
  refine ⟨List.mem_append_right _ List.mem_cons_self, fun key hkey ↦ ?_⟩
  rcases List.mem_append.1 hkey with hkey | hkey
  · exact ((List.pairwise_append.1 h.ascending).2.2 key hkey last List.mem_cons_self).le
  · exact (List.mem_singleton.1 hkey).le

section Walk

variable (pages : ℕ → Option κ → List κ × Option κ)

/-- The cursor of each request, as long as there is something to ask for. -/
def cursor : ℕ → Option (Option κ)
  | 0 => some none
  | n + 1 => (cursor n).bind fun after ↦ (pages n after).2.map some

/-- What the first requests have visited. -/
def visited : ℕ → List κ
  | 0 => []
  | n + 1 => visited n ++ ((cursor pages n).map fun after ↦ (pages n after).1).getD []

variable {pages} {keys : ℕ → Set κ}

theorem cursor_succ {n : ℕ} {after : Option κ} (h : cursor pages (n + 1) = some after) :
    ∃ before last, cursor pages n = some before ∧ (pages n before).2 = some last ∧ after = some last := by
  obtain ⟨before, hbefore, hafter⟩ := Option.bind_eq_some_iff.1 h
  obtain ⟨last, hlast, rfl⟩ := Option.map_eq_some_iff.1 hafter
  exact ⟨before, last, hbefore, hlast, rfl⟩

/-- A walk that has ended stays so. -/
theorem cursor_end {n m : ℕ} (h : cursor pages n = none) (hle : n ≤ m) : cursor pages m = none := by
  induction m, hle using Nat.le_induction with
  | base => exact h
  | succ m hle ih => rw [cursor, ih, Option.bind_none]

theorem visited_succ {n : ℕ} {after : Option κ} (h : cursor pages n = some after) :
    visited pages (n + 1) = visited pages n ++ (pages n after).1 := by
  rw [visited, h]
  rfl

theorem visited_end {n m : ℕ} (h : cursor pages n = none) (hle : n ≤ m) : visited pages m = visited pages n := by
  induction m, hle using Nat.le_induction with
  | base => rfl
  | succ m hle ih => rw [visited, cursor_end h hle, Option.map_none, Option.getD_none, List.append_nil, ih]

/-- What was visited stays so. -/
theorem visited_mono {n m : ℕ} (hle : n ≤ m) : visited pages n <+: visited pages m := by
  induction m, hle using Nat.le_induction with
  | base => exact List.prefix_refl _
  | succ m hle ih => exact ih.trans (List.prefix_append _ _)

variable (hpages : ∀ n after, IsPage (keys n) after (pages n after).1 (pages n after).2)
include hpages

/-- **What was visited comes up to the cursor**, in order. -/
theorem visited_ascending (n : ℕ) : (visited pages n).Pairwise (· < ·) ∧
    ∀ after, cursor pages n = some after → ∀ key ∈ visited pages n, ∃ last ∈ after, key ≤ last := by
  induction n with
  | zero => exact ⟨.nil, fun _ _ key hkey ↦ by cases hkey⟩
  | succ n ih =>
    obtain ⟨hascending, hle⟩ := ih
    match hcursor : cursor pages n with
    | none =>
      rw [visited_end hcursor n.le_succ]
      refine ⟨hascending, fun after h ↦ ?_⟩
      rw [cursor_end hcursor n.le_succ] at h
      cases h
    | some before =>
      have hpage := hpages n before
      rw [visited_succ hcursor]
      refine ⟨List.pairwise_append.2 ⟨hascending, hpage.ascending, fun key hkey key' hkey' ↦ ?_⟩,
        fun after h key hkey ↦ ?_⟩
      · obtain ⟨last, hlast, hkey⟩ := hle before hcursor key hkey
        exact hkey.trans_lt (hpage.after key' hkey' last hlast)
      · obtain ⟨before', last, hbefore', hnext, rfl⟩ := cursor_succ h
        obtain rfl := Option.some.inj (hcursor.symm.trans hbefore')
        obtain ⟨hmem, hup⟩ := hpage.le_next last hnext
        refine ⟨last, rfl, ?_⟩
        rcases List.mem_append.1 hkey with hkey | hkey
        · obtain ⟨earlier, hearlier, hkey⟩ := hle before hcursor key hkey
          exact hkey.trans (hpage.after last hmem earlier hearlier).le
        · exact hup key hkey

/-- **Nothing is skipped**: a key that is there at every request has been visited, or comes after the cursor. -/
theorem mem_visited_or_after {key : κ} {n : ℕ}
    (hkey : ∀ i < n, cursor pages i ≠ none → key ∈ keys i) :
    key ∈ visited pages n ∨ ∃ after, cursor pages n = some after ∧ After after key := by
  induction n with
  | zero => exact Or.inr ⟨none, rfl, fun _ h ↦ by cases h⟩
  | succ n ih =>
    rcases ih fun i hi ↦ hkey i (Nat.lt_succ_of_lt hi) with hvisited | ⟨before, hcursor, hafter⟩
    · exact Or.inl (List.mem_append_left _ hvisited)
    · have hthere := hkey n n.lt_succ_self (by rw [hcursor]; exact Option.some_ne_none _)
      rw [visited_succ hcursor]
      rcases (hpages n before).complete key hthere hafter with hpage | ⟨last, hlast, hlt⟩
      · exact Or.inl (List.mem_append_right _ hpage)
      · refine Or.inr ⟨some last, by rw [cursor, hcursor, Option.bind_some, Option.mem_def.1 hlast]; rfl, ?_⟩
        intro last' hlast'
        rwa [← Option.mem_some_iff.1 hlast']

/-- Every request that is followed has visited something. -/
theorem le_length_visited {n : ℕ} {after : Option κ} (h : cursor pages n = some after) :
    n ≤ (visited pages n).length := by
  induction n generalizing after with
  | zero => exact Nat.zero_le _
  | succ n ih =>
    obtain ⟨before, last, hcursor, hnext, rfl⟩ := cursor_succ h
    have hpos := List.length_pos_of_mem ((hpages n before).le_next last hnext).1
    rw [visited_succ hcursor, List.length_append]
    exact Nat.add_le_add (ih hcursor) hpos

/-- What was visited was there. -/
theorem mem_of_visited {key : κ} {n : ℕ} (h : key ∈ visited pages n) : ∃ i, key ∈ keys i := by
  induction n with
  | zero => cases h
  | succ n ih =>
    match hcursor : cursor pages n with
    | none => exact ih (visited_end hcursor n.le_succ ▸ h)
    | some before =>
      rw [visited_succ hcursor] at h
      exact (List.mem_append.1 h).elim ih fun h ↦ ⟨n, (hpages n before).mem key h⟩

theorem nodup_visited (n : ℕ) : (visited pages n).Nodup := (visited_ascending hpages n).1.imp fun h ↦ h.ne

/-- **A walk that visits only finitely many keys ends.** -/
theorem cursor_eq_none {n : ℕ} {all : Finset κ} (hall : ∀ key ∈ visited pages n, key ∈ all) (hn : all.card < n) :
    cursor pages n = none := by
  match hcursor : cursor pages n with
  | none => rfl
  | some after =>
    have hcard := List.toFinset_card_of_nodup (nodup_visited hpages n)
    have hle := Finset.card_le_card fun key hkey ↦ hall key (List.mem_toFinset.1 hkey)
    have := le_length_visited hpages hcursor
    omega

/-- **A key that is always there is visited.** -/
theorem mem_visited [LocallyFiniteOrderBot κ] {key : κ} (hkey : ∀ n, cursor pages n ≠ none → key ∈ keys n) :
    key ∈ visited pages ((Finset.Iic key).card + 1) := by
  rcases mem_visited_or_after hpages fun i _ ↦ hkey i with hvisited | ⟨after, hcursor, hafter⟩
  · exact hvisited
  · refine absurd (cursor_eq_none hpages (fun key' hkey' ↦ ?_) (Nat.lt_succ_self _)) (hcursor ▸ Option.some_ne_none _)
    obtain ⟨last, hlast, hle⟩ := (visited_ascending hpages _).2 after hcursor key' hkey'
    exact Finset.mem_Iic.2 (hle.trans (hafter last hlast).le)

end Walk

end Paging
