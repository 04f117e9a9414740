import FhdEngine.Persistence.Extents

/-!
# What a batch of extents comes to

`admit` looks at one extent after another, and what it says of one depends on those before it. What comes out does
not: a batch is granted exactly if no two different extents of it and of what is stored overlap
(`admit_isSome_iff`), and what is then stored is the union. So a retry finds everything there already, and two
batches may come in either order.

`restored_segments` counts runs and gaps in another way than `SegmentMap::restore` lays them out, and reaches the
same number before `restore` compares it with the maximum.
-/

namespace Fhd

open Tiling

namespace Persistence

variable {existing incoming fresh rows again other more : List DurableExtent} {e e' : DurableExtent}

/-! ### Extents that can stand together -/

/-- Two extents that are one, or overlap nowhere. -/
def Compatible (a b : DurableExtent) : Prop := a = b ∨ overlaps a.range b.range = false

instance : Std.Symm Compatible where
  symm _ _ h := h.imp Eq.symm fun h ↦ (overlaps_comm _ _).trans h

/-- An extent overlaps itself, as it is not empty. -/
theorem overlaps_self (a : ByteRange) : overlaps a a = true := decide_eq_true ⟨a.start_lt, a.start_lt⟩

theorem nodup_of_apart (h : Apart (ranges existing)) : existing.Nodup := by
  refine (List.pairwise_map.1 h).imp ?_
  rintro a b hno rfl
  rw [overlaps_self] at hno
  cases hno

theorem compatible_of_apart (h : Apart (ranges existing)) : ∀ a ∈ existing, ∀ b ∈ existing, Compatible a b := by
  have hpairs : existing.Pairwise Compatible := (List.pairwise_map.1 h).imp .inr
  exact fun a ha b hb ↦ hpairs.forall_of_forall (fun x _ ↦ .inl rfl) ha hb

/-- **A batch is granted** exactly if it can stand together with itself and with what is stored. -/
theorem admit_isSome_iff (incoming : List DurableExtent) (hdis : Apart (ranges existing)) :
    (∃ fresh, admitExtents existing incoming = some fresh) ↔
      ∀ a ∈ existing ++ incoming, ∀ b ∈ incoming, Compatible a b := by
  constructor
  · rintro ⟨fresh, h⟩ a ha b hb
    obtain ⟨hapart, -, hkept⟩ := admit_eq_some h hdis
    have hstored : ∀ x ∈ existing ++ incoming, x ∈ existing ++ fresh := by
      intro x hx
      rcases List.mem_append.1 hx with hx | hx
      · exact List.mem_append_left _ hx
      · exact List.mem_append.2 (hkept x hx)
    exact compatible_of_apart hapart a (hstored a ha) b (hstored b (List.mem_append_right _ hb))
  · intro h
    refine admitLoop_isSome (fun b hb ↦ ?_) (List.pairwise_of_forall_mem_list fun a ha b hb ↦ ?_) nofun
    · by_cases hmem : b ∈ existing
      · exact .inl hmem
      · exact .inr fun a ha ↦ (h a (List.mem_append_left _ ha) b hb).resolve_left fun hab ↦ hmem (hab ▸ ha)
    · exact h a (List.mem_append_right _ ha) b hb

/-- **What is stored afterwards** is what was stored and the batch. -/
theorem mem_admitted (h : admitExtents existing incoming = some fresh) (hdis : Apart (ranges existing)) :
    e ∈ existing ++ fresh ↔ e ∈ existing ∨ e ∈ incoming := by
  obtain ⟨-, hnew, hkept⟩ := admit_eq_some h hdis
  rw [List.mem_append]
  exact ⟨fun he ↦ he.imp_right (hnew e), fun he ↦ he.elim .inl (hkept e)⟩

theorem Apart.of_perm (h : rows.Perm existing) (hdis : Apart (ranges existing)) : Apart (ranges rows) :=
  hdis.perm (h.map _).symm

/-- A batch that is stored already adds nothing. -/
theorem admit_of_subset (h : incoming ⊆ existing) : admitExtents existing incoming = some [] := by
  have hloop : ∀ l ⊆ existing, admitLoop existing [] l = some [] := by
    intro l
    induction l with
    | nil => exact fun _ ↦ rfl
    | cons extent l ih =>
      intro hl
      obtain ⟨hextent, hl⟩ := List.cons_subset.1 hl
      rw [admitLoop, if_pos (.inl hextent)]
      exact ih hl
  exact hloop incoming h

/-! ### Refusing a batch -/

/-- An extent of a batch overlaps what is stored or what came before it in the batch, and is not the same. -/
def Conflicting (existing incoming : List DurableExtent) : Prop :=
  ∃ before e after, incoming = before ++ e :: after ∧
    ∃ e' ∈ existing ++ before, overlaps e'.range e.range = true ∧ e' ≠ e

theorem not_compatible (h : overlaps e'.range e.range = true) (hne : e' ≠ e) : ¬Compatible e' e := by
  rintro (heq | hno)
  · exact hne heq
  · rw [h] at hno
    cases hno

/-- The first of two extents that cannot stand together is stored or comes before the other. -/
theorem conflicting_iff (hdis : Apart (ranges existing)) :
    Conflicting existing incoming ↔ ¬∀ a ∈ existing ++ incoming, ∀ b ∈ incoming, Compatible a b := by
  constructor
  · rintro ⟨before, e, after, rfl, e', he', hover, hne⟩ hall
    refine not_compatible hover hne (hall e' ?_ e (by simp))
    rcases List.mem_append.1 he' with he' | he'
    · exact List.mem_append_left _ he'
    · simp [he']
  · intro hall
    by_contra hno
    -- Without a conflict the loop goes through.
    refine hall ((admit_isSome_iff incoming hdis).1 (admitLoop_isSome (fun b hb ↦ ?_) ?_ nofun))
    · by_cases hmem : b ∈ existing
      · exact .inl hmem
      · refine .inr fun a ha ↦ ?_
        obtain ⟨before, after, rfl⟩ := List.append_of_mem hb
        by_contra hover
        exact hno ⟨before, b, after, rfl, a, List.mem_append_left _ ha, by simpa using hover,
          fun hab ↦ hmem (hab ▸ ha)⟩
    · refine List.pairwise_iff_getElem.2 fun i j hi hj hij ↦ ?_
      by_contra hcompatible
      obtain ⟨hne, hover⟩ := not_or.1 hcompatible
      refine hno ⟨incoming.take j, incoming[j], incoming.drop (j + 1), by simp, incoming[i], ?_,
        by simpa using hover, hne⟩
      exact List.mem_append_right _ (List.mem_take_iff_getElem.2 ⟨i, by omega, rfl⟩)

/-! ### Retries and orders -/

/-- **Admitting is exact and idempotent.** A batch is refused exactly if one of its extents overlaps what is stored or
an earlier one without being the same. Otherwise what is stored is disjoint and holds the batch and nothing else new;
any part of the batch in any order is then there already; and a batch that is granted after it would have been granted
before it, with the same extents stored in the end. -/
theorem admit_exact (hdis : Apart (ranges existing)) :
    (admitExtents existing incoming = none ↔ Conflicting existing incoming) ∧
      ∀ fresh, admitExtents existing incoming = some fresh →
        Apart (ranges (existing ++ fresh)) ∧ (∀ e, e ∈ existing ++ fresh ↔ e ∈ existing ∨ e ∈ incoming) ∧
          (∀ rows again, rows.Perm (existing ++ fresh) → again ⊆ incoming → admitExtents rows again = some []) ∧
            ∀ rows other more, rows.Perm (existing ++ fresh) → admitExtents rows other = some more →
              ∃ more' fresh', admitExtents existing other = some more' ∧
                admitExtents (existing ++ more') incoming = some fresh' ∧
                  (existing ++ more' ++ fresh').Perm (rows ++ more) := by
  constructor
  · rw [conflicting_iff hdis, ← admit_isSome_iff incoming hdis]
    cases admitExtents existing incoming <;> simp
  intro fresh h
  have hapart := (admit_eq_some h hdis).1
  have hmem : ∀ e, e ∈ existing ++ fresh ↔ e ∈ existing ∨ e ∈ incoming := fun e ↦ mem_admitted h hdis
  refine ⟨hapart, hmem, fun rows again hrows hagain ↦ ?_, fun rows other more hrows hother ↦ ?_⟩
  · exact admit_of_subset fun e he ↦ hrows.mem_iff.2 ((hmem e).2 (.inr (hagain he)))
  have hdis' : Apart (ranges rows) := Apart.of_perm hrows hapart
  have hmem' : ∀ e, e ∈ rows ++ more ↔ (e ∈ existing ∨ e ∈ incoming) ∨ e ∈ other := fun e ↦ by
    rw [mem_admitted hother hdis', hrows.mem_iff, hmem]
  -- What is stored in the end stands together, so either batch goes first.
  have hall := compatible_of_apart (admit_eq_some hother hdis').1
  simp only [hmem'] at hall
  obtain ⟨more', hmore⟩ := (admit_isSome_iff other hdis).2 fun a ha b hb ↦
    hall a ((List.mem_append.1 ha).imp_left .inl) b (.inr hb)
  have hdis'' := (admit_eq_some hmore hdis).1
  obtain ⟨fresh', hfresh⟩ := (admit_isSome_iff incoming hdis'').2 fun a ha b hb ↦ by
    rw [List.mem_append, mem_admitted hmore hdis] at ha
    exact hall a (by tauto) b (.inl (.inr hb))
  refine ⟨more', fresh', hmore, hfresh, ?_⟩
  refine (List.perm_ext_iff_of_nodup (nodup_of_apart (admit_eq_some hfresh hdis'').1)
    (nodup_of_apart (admit_eq_some hother hdis').1)).2 fun e ↦ ?_
  rw [hmem', mem_admitted hfresh hdis'', mem_admitted hmore hdis]
  tauto

/-- Two extents side by side. -/
def lowExtent : DurableExtent := ⟨⟨0, 4, by decide, four_le_i64Max⟩, Vector.replicate 32 0⟩

def highExtent : DurableExtent := ⟨⟨4, 8, by decide, eight_le_i64Max⟩, Vector.replicate 32 1⟩

theorem apart_lowExtent : Apart (ranges [lowExtent]) := List.pairwise_singleton _ _

/-- A batch with a retry in it, retried in another order. -/
theorem admit_exact_retry : admitExtents [lowExtent] [lowExtent, highExtent] = some [highExtent] ∧
    admitExtents [highExtent, lowExtent] [highExtent, lowExtent] = some [] := by
  have hfirst : admitExtents [lowExtent] [lowExtent, highExtent] = some [highExtent] := by decide
  exact ⟨hfirst, ((admit_exact apart_lowExtent).2 _ hfirst).2.2.1 _ _ (List.Perm.swap _ _ _) (by simp)⟩

/-! ### The forecast -/

/-- **The forecast is what `restore` builds** from the sorted ranges before it compares with the maximum, so what
passes the check can be restored. -/
theorem forecast_exact {durable : List ByteRange} {total : ℕ} (htotal : total ≤ i64Max) (hdis : Apart durable)
    (hle : ∀ r ∈ durable, r.stop ≤ total) :
    (∃ merged segments, SegmentMap.mergeDurable total [] (sortByStart durable) = .ok merged ∧
      SegmentMap.buildSegments total [] 0 merged = .ok segments ∧
        restoredSegments durable total = segments.length) ∧
      ∀ job generation maximum, 1 ≤ maximum → maximum ≤ maxSegments →
        (restoredSegments durable total ≤ maximum ↔
          SegmentMap.restore job generation total maximum (sortByStart durable) ≠ .error .capacity) := by
  have hasc := ascending_sortByStart hdis
  have hle' : ∀ r ∈ sortByStart durable, r.stop ≤ total := fun r hr ↦ hle r ((sortByStart_perm durable).mem_iff.1 hr)
  obtain ⟨merged, hmerge⟩ := SegmentMap.mergeDurable_isOk [] hasc hle' (by simp)
  obtain ⟨hsep, hmerged, hcov⟩ := SegmentMap.mergeDurable_eq_ok hmerge List.Pairwise.nil (by simp)
  obtain ⟨segments, hbuild, hlaid⟩ := SegmentMap.buildSegments_eq_ok htotal [] hsep hmerged
    (fun _ _ ↦ Nat.zero_le _) (Nat.zero_le total)
  rw [List.nil_append] at hbuild
  -- Both numbers are that of the runs.
  have hcount : restoredSegments durable total = segments.length := by
    rw [restoredSegments_eq htotal hdis hle, ← hlaid.length_eq]
    congr 1
    refine runStarts_congr fun p _ ↦ ?_
    rw [hcov, covered_perm (sortByStart_perm durable)]
    simp
  refine ⟨⟨merged, segments, hmerge, hbuild, hcount⟩, fun job generation maximum hpos hmax ↦ ?_⟩
  obtain ⟨map, hnew⟩ := SegmentMap.new_isOk job generation htotal hpos hmax
  rw [hcount, SegmentMap.restore, hnew, hmerge]
  simp only [hbuild]
  split
  next hlt => simpa using hlt
  next hge => simpa using hge

/-- Two ranges that touch, the later one first. -/
def touchingRanges : List ByteRange := [⟨6, 8, by decide, eight_le_i64Max⟩, ⟨4, 6, by decide, six_le_i64Max⟩]

/-- They make one piece between two gaps, which is more than a map of two pieces can hold. -/
theorem forecast_exact_touching : restoredSegments touchingRanges 9 = 3 ∧
    SegmentMap.restore ⟨1, by decide⟩ Generation.initial 9 2 (sortByStart touchingRanges) = .error .capacity := by
  have hcount : restoredSegments touchingRanges 9 = 3 := by decide
  have hdis : Apart touchingRanges := by simp [touchingRanges, Apart, overlaps]
  have hle : ∀ r ∈ touchingRanges, r.stop ≤ 9 := by simp [touchingRanges]
  have hforecast := (forecast_exact (by decide) hdis hle).2 ⟨1, by decide⟩ Generation.initial 2 (by decide) (by decide)
  rw [hcount] at hforecast
  exact ⟨hcount, not_not.1 fun hne ↦ absurd (hforecast.2 hne) (by decide)⟩

end Persistence

end Fhd
