import Mathlib.Data.List.TakeDrop
import Mathlib.Tactic.Common

/-!
# Files that a crash may cut

A file of which only a part is sure: what was there at the last sync and was not written since. A crash
leaves the sure part and anything after it. A file in which nothing was changed since the last sync is
sure altogether, and no crash changes it.

`Keeps` is the judgement: these bytes begin the file, and no crash takes them. There is one rule for each
operation.
-/

namespace Process

/-- The bytes of a file, and how many of them are sure; `none` if nothing was changed since the last
sync. -/
structure Synced (α : Type*) where
  bytes : List α
  pending : Option ℕ
deriving DecidableEq, Repr

namespace Synced

variable {α : Type*} {f f' : Synced α} {base data : List α}

def empty : Synced α := ⟨[], some 0⟩

/-- How many bytes no crash takes. -/
def sure (f : Synced α) : ℕ := f.pending.getD f.bytes.length

/-- Bytes put at a position, over what stands there and beyond the end if need be. -/
def write (blank : α) (position : ℕ) (data : List α) (f : Synced α) : Synced α :=
  if data.isEmpty then f
  else ⟨f.bytes.takeD position blank ++ data ++ f.bytes.drop (position + data.length),
    some (min f.sure position)⟩

def setLen (blank : α) (length : ℕ) (f : Synced α) : Synced α :=
  ⟨f.bytes.takeD length blank, some (min f.sure length)⟩

def sync (f : Synced α) : Synced α := ⟨f.bytes, none⟩

/-- **A crash** leaves what is sure. -/
def Crashed (f f' : Synced α) : Prop :=
  match f.pending with
  | none => f' = f
  | some k => ∃ tail, f' = ⟨f.bytes.take k ++ tail, some k⟩

/-- **These bytes begin the file**, and no crash takes them. -/
def Keeps (f : Synced α) (base : List α) : Prop := base <+: f.bytes.take f.sure

theorem keeps_iff : f.Keeps base ↔ base <+: f.bytes ∧ base.length ≤ f.sure := List.prefix_take_iff

theorem Keeps.starts (h : f.Keeps base) : base <+: f.bytes := (keeps_iff.1 h).1

theorem Keeps.trans {base' : List α} (h : f.Keeps base) (hbase : base' <+: base) : f.Keeps base' :=
  List.IsPrefix.trans hbase h

theorem keeps_nil : f.Keeps [] := List.nil_prefix

/-- What begins a list begins it when it is cut or padded no shorter. -/
theorem prefix_takeD {l : List α} {n : ℕ} (blank : α) (h : base <+: l) (hlength : base.length ≤ n) :
    base <+: l.takeD n blank := by
  obtain ⟨rest, rfl⟩ := h
  obtain ⟨k, rfl⟩ := Nat.exists_eq_add_of_le hlength
  induction base with
  | nil => exact List.nil_prefix
  | cons a base ih =>
    have hrest := ih (by omega)
    have hcut : ((a :: base) ++ rest).takeD ((a :: base).length + k) blank =
        a :: (base ++ rest).takeD (base.length + k) blank := by
      rw [List.length_cons, Nat.add_right_comm]
      rfl
    rw [hcut]
    exact List.cons_prefix_cons.2 ⟨rfl, hrest⟩

/-- A write after the bytes. -/
theorem Keeps.write {blank : α} {position : ℕ} (h : f.Keeps base) (hposition : base.length ≤ position) :
    (f.write blank position data).Keeps base := by
  unfold Synced.write
  split
  · exact h
  · obtain ⟨hbase, hsure⟩ := keeps_iff.1 h
    refine keeps_iff.2 ⟨?_, Nat.le_min.2 ⟨hsure, hposition⟩⟩
    rw [List.append_assoc]
    exact (prefix_takeD blank hbase hposition).trans (List.prefix_append _ _)

theorem Keeps.setLen {blank : α} {length : ℕ} (h : f.Keeps base) (hlength : base.length ≤ length) :
    (f.setLen blank length).Keeps base := by
  obtain ⟨hbase, hsure⟩ := keeps_iff.1 h
  exact keeps_iff.2 ⟨prefix_takeD blank hbase hlength, Nat.le_min.2 ⟨hsure, hlength⟩⟩

theorem Keeps.sync (h : f.Keeps base) : f.sync.Keeps base := keeps_iff.2 ⟨h.starts, h.starts.length_le⟩

/-- **A sync makes everything sure.** -/
theorem keeps_sync (f : Synced α) : f.sync.Keeps f.bytes := keeps_iff.2 ⟨List.prefix_refl _, (Nat.le_refl _)⟩

/-- **No crash takes what is kept.** -/
theorem Keeps.crashed (h : f.Keeps base) (hcrash : f.Crashed f') : f'.Keeps base := by
  obtain ⟨hbase, hsure⟩ := keeps_iff.1 h
  unfold Crashed at hcrash
  split at hcrash
  · rwa [hcrash]
  next k hk =>
    obtain ⟨tail, rfl⟩ := hcrash
    have hle : base.length ≤ k := by simpa [sure, hk] using hsure
    exact keeps_iff.2 ⟨(List.prefix_take_iff.2 ⟨hbase, hle⟩).trans (List.prefix_append _ _), hle⟩

/-- A write at the end. -/
theorem write_bytes {blank : α} (f : Synced α) (data : List α) :
    (f.write blank f.bytes.length data).bytes = f.bytes ++ data := by
  unfold Synced.write
  split
  next hnil => rw [List.isEmpty_iff.1 hnil, List.append_nil]
  · rw [List.takeD_eq_take _ (Nat.le_refl _), List.take_length, List.drop_eq_nil_of_le (by omega), List.append_nil]

theorem setLen_bytes {blank : α} {length : ℕ} (h : length ≤ f.bytes.length) :
    (f.setLen blank length).bytes = f.bytes.take length := List.takeD_eq_take _ h

end Synced

end Process
