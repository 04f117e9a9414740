import FhdEngine.Storage.Verification

/-!
# Two writes of a part, or one

A write that follows another one in the file does what writing both at once does: to the bytes (`overwrite_append`), to
the coverage (`coveragePlan_neighbours`), and so to the part and its file (`writeAt_neighbours`).
-/

namespace Fhd

open Process (Does)

/-- Bytes behind others. -/
theorem overwrite_append (old : List UInt8) (position : ℕ) (bytes more : List UInt8) :
    overwrite (overwrite old position bytes) (position + bytes.length) more = overwrite old position (bytes ++ more) := by
  unfold overwrite
  by_cases hbytes : bytes = []
  · subst hbytes
    rw [if_pos rfl, List.nil_append]
    rfl
  by_cases hmore : more = []
  · subst hmore
    rw [if_pos rfl, List.append_nil]
  rw [if_neg hmore, if_neg hbytes, if_neg (fun h ↦ hbytes (List.append_eq_nil_iff.1 h).1)]
  have hlength : (old.takeD position 0 ++ bytes).length = position + bytes.length := by
    rw [List.length_append, List.takeD_length]
  have htake : (old.takeD position 0 ++ bytes ++ old.drop (position + bytes.length)).takeD (position + bytes.length) 0 =
      old.takeD position 0 ++ bytes := by
    rw [List.takeD_eq_take _ (by rw [List.length_append, hlength]; exact Nat.le_add_right _ _), List.take_left' hlength]
  have hdrop : (old.takeD position 0 ++ bytes ++ old.drop (position + bytes.length)).drop
      (position + bytes.length + more.length) = old.drop (position + (bytes ++ more).length) := by
    rw [← List.drop_drop, List.drop_left' hlength, List.drop_drop, List.length_append, Nat.add_assoc]
  rw [htake, hdrop, List.append_assoc _ bytes more]

namespace FilePart

variable {h : FilePart} {d : Disk} {range more joined : ByteRange} {plan plan' : ℕ × ℕ × ByteRange}

/-- The loop counts from where it begins. -/
theorem swallow_add (l : List ByteRange) (last start stop : ℕ) :
    swallow l last start stop = (last + (swallow l 0 start stop).1, (swallow l 0 start stop).2) := by
  induction l generalizing last start stop with
  | nil => rfl
  | cons entry l ih =>
    rw [swallow, swallow]
    split
    · rfl
    · rw [ih (last + 1), ih (0 + 1)]
      simp only [Prod.mk.injEq, and_true]
      omega

theorem swallow_bounds (l : List ByteRange) (last start stop : ℕ) :
    (swallow l last start stop).2.1 ≤ start ∧ stop ≤ (swallow l last start stop).2.2 := by
  induction l generalizing last start stop with
  | nil => exact ⟨le_rfl, le_rfl⟩
  | cons entry l ih =>
    rw [swallow]
    split
    · exact ⟨le_rfl, le_rfl⟩
    · obtain ⟨hstart, hstop⟩ := ih (last + 1) (min start entry.start) (max stop entry.stop)
      exact ⟨hstart.trans (Nat.min_le_left _ _), (Nat.le_max_left _ _).trans hstop⟩

/-- **Swallowing further** from where the loop stopped is swallowing as far at once. -/
theorem swallow_further (l : List ByteRange) (start : ℕ) {stop stop' : ℕ} (hle : stop ≤ stop') :
    swallow l 0 start stop' =
      swallow (l.drop (swallow l 0 start stop).1) (swallow l 0 start stop).1 (swallow l 0 start stop).2.1
        (max stop' (swallow l 0 start stop).2.2) := by
  induction l generalizing start stop stop' with
  | nil => simp [swallow, Nat.max_eq_left hle]
  | cons entry l ih =>
    by_cases hbeyond : entry.start > stop
    · have hstays : swallow (entry :: l) 0 start stop = (0, start, stop) := by rw [swallow, if_pos hbeyond]
      rw [hstays]
      simp only [List.drop_zero, Nat.max_eq_left hle]
    · have hgrows : swallow (entry :: l) 0 start stop = swallow l 1 (min start entry.start) (max stop entry.stop) := by
        rw [swallow, if_neg hbeyond]
      have hgrows' : swallow (entry :: l) 0 start stop' = swallow l 1 (min start entry.start) (max stop' entry.stop) := by
        rw [swallow, if_neg (by omega)]
      have hstop := (swallow_bounds l 0 (min start entry.start) (max stop entry.stop)).2
      rw [hgrows', hgrows, swallow_add l 1, swallow_add l 1, ih _ (max_le_max_right entry.stop hle)]
      rw [swallow_add (l.drop _) (swallow l 0 (min start entry.start) (max stop entry.stop)).1,
        swallow_add (List.drop _ (entry :: l))]
      simp only [Nat.add_comm 1, List.drop_succ_cons]
      have hmax : max (max stop' entry.stop) (swallow l 0 (min start entry.start) (max stop entry.stop)).2.2 =
          max stop' (swallow l 0 (min start entry.start) (max stop entry.stop)).2.2 := by omega
      rw [hmax]
      simp only [Prod.mk.injEq, and_true]
      omega

/-- Where the entries begin that a range can touch. -/
def touchedFrom (h : FilePart) (range : ByteRange) : ℕ := (h.coverage.takeWhile (·.stop < range.start)).length

theorem coveragePlan_eq (h : FilePart) (range : ByteRange) : h.coveragePlan range =
    match swallow (h.coverage.drop (h.touchedFrom range)) (h.touchedFrom range) range.start range.stop with
    | (last, start, stop) =>
      if h.coverage.length - (last - h.touchedFrom range) + 1 > maxExtents then .error .bounds
      else match ByteRange.new start stop with
        | .error _ => .error .bounds
        | .ok merged => .ok (h.touchedFrom range, last, merged) := rfl

/-- **A plan**, by how many entries it swallows. -/
theorem coveragePlan_eq_ok_iff : h.coveragePlan range = .ok plan ↔ ∃ count start stop merged,
    swallow (h.coverage.drop (h.touchedFrom range)) 0 range.start range.stop = (count, start, stop) ∧
      h.coverage.length - count + 1 ≤ maxExtents ∧ ByteRange.new start stop = .ok merged ∧
      plan = (h.touchedFrom range, h.touchedFrom range + count, merged) := by
  rcases hswallow : swallow (h.coverage.drop (h.touchedFrom range)) 0 range.start range.stop with ⟨count, start, stop⟩
  have hall := swallow_add (h.coverage.drop (h.touchedFrom range)) (h.touchedFrom range) range.start range.stop
  rw [hswallow] at hall
  have hsub : h.touchedFrom range + count - h.touchedFrom range = count := Nat.add_sub_cancel_left ..
  rw [coveragePlan_eq, hall]
  dsimp only
  rw [hsub]
  constructor
  · intro heq
    split at heq
    · cases heq
    next hcount =>
      cases hnew : ByteRange.new start stop with
      | error e =>
        rw [hnew] at heq
        cases heq
      | ok merged =>
        rw [hnew] at heq
        exact ⟨count, start, stop, merged, rfl, Nat.not_lt.1 hcount, hnew, (Except.ok.inj heq).symm⟩
  · rintro ⟨count', start', stop', merged, heq, hcount, hnew, rfl⟩
    cases heq
    rw [if_neg (Nat.not_lt.2 hcount), hnew]

/-- **Covering two neighbours** is covering them at once. -/
theorem coveragePlan_neighbours (hnext : more.start = range.stop) (hstart : joined.start = range.start)
    (hstop : joined.stop = more.stop) (hplan : h.coveragePlan range = .ok plan)
    (hplan' : (h.addCoverage plan).coveragePlan more = .ok plan') :
    ∃ plan'', h.coveragePlan joined = .ok plan'' ∧ h.addCoverage plan'' = (h.addCoverage plan).addCoverage plan' := by
  obtain ⟨count, start, stop, merged, hswallow, hcount, hnew, rfl⟩ := coveragePlan_eq_ok_iff.1 hplan
  obtain ⟨count', start', stop', merged', hswallow', hcount', hnew', rfl⟩ := coveragePlan_eq_ok_iff.1 hplan'
  obtain ⟨hmerged, hmerged'⟩ := ByteRange.new_eq_ok.1 hnew
  set n := h.touchedFrom range with hn
  have hn_le : n ≤ h.coverage.length := (List.takeWhile_prefix _).length_le
  have hbounds := swallow_bounds (h.coverage.drop n) 0 range.start range.stop
  have hwindow := swallow_window (h.coverage.drop n) 0 range.start range.stop
  rw [hswallow] at hbounds hwindow
  rw [List.length_drop] at hwindow
  dsimp only at hbounds hwindow
  have hlt := more.start_lt
  have hlt' := range.start_lt
  have hfirst : h.coverage.take n = h.coverage.takeWhile (·.stop < range.start) :=
    (List.prefix_iff_eq_take.1 (List.takeWhile_prefix _)).symm
  have hcoverage : (h.addCoverage (n, n + count, merged)).coverage =
      h.coverage.take n ++ merged :: h.coverage.drop (n + count) := rfl
  -- what the first range did not touch, the second one does not touch either
  have htouched : (h.addCoverage (n, n + count, merged)).touchedFrom more = n := by
    have hbefore : ∀ entry ∈ h.coverage.take n, decide (entry.stop < more.start) = true := by
      intro entry hentry
      rw [hfirst] at hentry
      have hbelow : decide (entry.stop < range.start) = true :=
        List.mem_takeWhile_imp (p := fun e : ByteRange ↦ decide (e.stop < range.start)) hentry
      have := of_decide_eq_true hbelow
      exact decide_eq_true (by omega)
    rw [touchedFrom, hcoverage, List.takeWhile_append_of_pos hbefore, List.takeWhile_cons_of_neg (by
      rw [decide_eq_true_eq]
      omega), List.append_nil, List.length_take, Nat.min_eq_left hn_le]
  have hjoined : h.touchedFrom joined = n := by rw [touchedFrom, hstart]; rfl
  rw [htouched] at hswallow' ⊢
  have hdrop : (h.addCoverage (n, n + count, merged)).coverage.drop n = merged :: h.coverage.drop (n + count) := by
    rw [hcoverage, List.drop_left' (by rw [List.length_take, Nat.min_eq_left hn_le])]
  have hfurther := swallow_further (h.coverage.drop n) range.start (show range.stop ≤ more.stop by omega)
  rw [hswallow, List.drop_drop] at hfurther
  rw [hdrop, swallow, if_neg (by omega), hmerged, hmerged', Nat.min_eq_right (by omega), swallow_add] at hswallow'
  obtain ⟨rfl, hrest⟩ := Prod.mk.inj hswallow'
  dsimp only at hfurther
  rw [swallow_add (h.coverage.drop (n + count))] at hfurther
  set further := swallow (h.coverage.drop (n + count)) 0 start (max more.stop stop) with hset
  have hlength : (h.addCoverage (n, n + count, merged)).coverage.length = n + 1 + (h.coverage.length - (n + count)) := by
    rw [hcoverage, List.length_append, List.length_cons, List.length_take, List.length_drop, Nat.min_eq_left hn_le]
    omega
  have hwindow' := (swallow_window (h.coverage.drop (n + count)) 0 start (max more.stop stop)).2
  rw [← hset, List.length_drop] at hwindow'
  refine ⟨(n, n + (count + further.1), merged'), coveragePlan_eq_ok_iff.2
    ⟨count + further.1, start', stop', merged', ?_, by omega, hnew', by rw [hjoined]⟩, ?_⟩
  · rw [hjoined, hstart, hstop, hfurther, hrest]
  · have htake : (h.coverage.take n ++ merged :: h.coverage.drop (n + count)).take n = h.coverage.take n :=
      List.take_left' (by rw [List.length_take, Nat.min_eq_left hn_le])
    have hdrop' : (h.coverage.take n ++ merged :: h.coverage.drop (n + count)).drop (n + (0 + 1 + further.1)) =
        h.coverage.drop (n + (count + further.1)) := by
      rw [← List.drop_drop, List.drop_left' (by rw [List.length_take, Nat.min_eq_left hn_le]), Nat.add_comm (0 + 1),
        Nat.zero_add, List.drop_succ_cons, List.drop_drop, Nat.add_assoc]
    simp only [addCoverage, htake, hdrop']

/-! ### Writing -/

section Writing

variable {h h₁ h₂ : FilePart} {d d₁ d₂ : Disk} {range range' : ByteRange} {plan plan' : ℕ × ℕ × ByteRange} {offset : ℕ}
  {bytes more : List UInt8}

theorem Passes.range_eq (hp : h.Passes offset bytes range plan) : h.range offset bytes.length = .ok range := by
  have hle := range.stop_le
  have hadd : checkedAdd offset bytes.length = some range.stop :=
    checkedAdd_eq_some.2 ⟨by have := hp.stop; have : i64Max ≤ u64Max := by decide
                             omega, hp.stop⟩
  have hnew : ByteRange.new offset range.stop = .ok range := ByteRange.new_eq_ok.2 ⟨hp.start, rfl⟩
  have hsize := hp.le_size
  unfold FilePart.range
  rw [hadd]
  dsimp only
  rw [if_neg (by omega), hnew]
  rfl

/-- **Two neighbours** that may be written one after the other may be written at once. -/
theorem Passes.neighbours (hp : h.Passes offset bytes range plan)
    (hp' : Passes { h.addCoverage plan with poisoned := false, synchronized := false, verified := none }
      (offset + bytes.length) more range' plan') :
    ∃ joined plan'', h.Passes offset (bytes ++ more) joined plan'' ∧
      h.addCoverage plan'' = (h.addCoverage plan).addCoverage plan' := by
  have hnext : range'.start = range.stop := hp'.start.trans hp.stop.symm
  have hlt := range.start_lt
  have hlt' := range'.start_lt
  let joined : ByteRange := ⟨range.start, range'.stop, by omega, range'.stop_le⟩
  obtain ⟨plan'', hplan, hcover⟩ := coveragePlan_neighbours hnext (rfl : joined.start = range.start)
    (rfl : joined.stop = range'.stop) hp.plan hp'.plan
  refine ⟨joined, plan'', ⟨hp.healthy, hp.isSealed, ?_, hp.start, ?_, hp'.le_size, ?_, hplan⟩, hcover⟩
  · exact fun hnil ↦ hp.ne_nil (List.append_eq_nil_iff.1 hnil).1
  · rw [List.length_append, ← Nat.add_assoc]
    exact hp'.stop
  · -- what meets both together meets one of them
    have hguards := List.any_eq_false.1 hp.guards
    have hguards' := List.any_eq_false.1 hp'.guards
    refine List.any_eq_false.2 fun entry hentry hmeets ↦ ?_
    have hapart := hguards entry hentry
    have hapart' := hguards' entry hentry
    have hentry_lt := entry.start_lt
    rw [decide_eq_true_eq] at hmeets hapart hapart'
    obtain ⟨hbelow, habove⟩ := hmeets
    have hbelow : entry.start < range'.stop := hbelow
    have habove : range.start < entry.stop := habove
    omega

/-- **A write that passes** succeeds where no call fails. -/
theorem writeAt_calm (hp : h.Passes offset bytes range plan) :
    Does steadily (fun _ ↦ True) h d (writeAt offset bytes)
      (fun _ h' d' ↦ h' = { h.addCoverage plan with poisoned := false, synchronized := false, verified := none } ∧
        d' = d.put h.file (overwrite (d.contents h.file) offset bytes)) fun _ _ _ ↦ False := by
  have hhealthy : ¬h.poisoned = true := Bool.eq_false_iff.1 hp.healthy
  have hsealed : ¬h.isSealed = true := Bool.eq_false_iff.1 hp.isSealed
  have hguards : ¬h.guards range = true := Bool.eq_false_iff.1 hp.guards
  show Does steadily _ h d (throwIf (h.poisoned = true) .invalidState >>= fun _ ↦ _) _ _
  refine throwIf_does (fun hx ↦ hhealthy hx) fun _ ↦ Does.get (throwIf_does (fun hx ↦ hsealed hx) fun _ ↦ ?_)
  rw [if_neg hp.ne_nil, hp.range_eq]
  refine ofExcept_does (fun _ ↦ nofun) fun r hr ↦ ?_
  obtain rfl : range = r := Except.ok.inj hr
  refine throwIf_does (fun hx ↦ hguards hx) fun _ ↦ ?_
  rw [hp.plan]
  refine ofExcept_does (fun _ ↦ nofun) fun p hpl ↦ ?_
  obtain rfl : plan = p := Except.ok.inj hpl
  refine Does.change (Does.get (sys_calm rfl trivial (sys_does (fun x d' hx ↦ ?_) fun kind d' hx ↦ ?_)))
  · obtain ⟨-, rfl⟩ := Prod.mk.inj hx
    exact ⟨trivial, rfl, rfl⟩
  · cases (Prod.mk.inj hx).1

/-- What a routine comes to where every call has one answer. -/
theorem play_of_does {τ α : Type} {x : StorageM τ α} {t : τ} {Q : α → τ → Disk → Prop}
    {X : StorageError → τ → Disk → Prop} (h : Does steadily (fun _ ↦ True) t d x Q X) :
    Process.Post Q X ((x.run.run t).play Disk.answer d).1 ((x.run.run t).play Disk.answer d).2 :=
  Process.Ensures.play h fun _ _ ↦ rfl

/-- A write that succeeded changed nothing, or passed. -/
theorem writeAt_ok (hwrite : ((writeAt offset bytes).run.run h).play Disk.answer d = ((.ok (), h₁), d₁)) :
    bytes = [] ∧ h₁ = h ∧ d₁ = d ∨ ∃ range plan, h.Passes offset bytes range plan ∧
      h₁ = { h.addCoverage plan with poisoned := false, synchronized := false, verified := none } ∧
      d₁ = d.put h.file (overwrite (d.contents h.file) offset bytes) := by
  have hdoes := play_of_does (x := writeAt offset bytes) (t := h) (d := d)
    (writeAt_does steadily_onDisk trivial fun _ _ _ _ ↦ trivial)
  rw [hwrite] at hdoes
  exact hdoes

/-- **Writing twice is writing both at once**, to the part and on disk. -/
theorem writeAt_neighbours (hfirst : ((writeAt offset bytes).run.run h).play Disk.answer d = ((.ok (), h₁), d₁))
    (hsecond : ((writeAt (offset + bytes.length) more).run.run h₁).play Disk.answer d₁ = ((.ok (), h₂), d₂)) :
    ((writeAt offset (bytes ++ more)).run.run h).play Disk.answer d = ((.ok (), h₂), d₂) := by
  rcases writeAt_ok hfirst with ⟨rfl, rfl, rfl⟩ | ⟨range, plan, hp, rfl, rfl⟩
  · exact hsecond
  rcases writeAt_ok hsecond with ⟨rfl, rfl, rfl⟩ | ⟨range', plan', hp', rfl, rfl⟩
  · rw [List.append_nil]
    exact hfirst
  obtain ⟨joined, plan'', hjoined, hcover⟩ := hp.neighbours hp'
  have hboth := play_of_does (writeAt_calm (d := d) hjoined)
  rcases hplay : ((writeAt offset (bytes ++ more)).run.run h).play Disk.answer d with ⟨⟨r, h'⟩, d'⟩
  rw [hplay] at hboth
  cases r with
  | error e => exact hboth.elim
  | ok x =>
    obtain ⟨rfl, rfl⟩ := hboth
    have hbytes : (d.put h.file (overwrite (d.contents h.file) offset bytes)).put h.file
        (overwrite ((d.put h.file (overwrite (d.contents h.file) offset bytes)).contents h.file)
          (offset + bytes.length) more) = d.put h.file (overwrite (d.contents h.file) offset (bytes ++ more)) := by
      simp only [Disk.put, Function.update_self, Function.update_idem, overwrite_append]
    rw [hcover]
    exact congrArg _ hbytes.symm

end Writing

end FilePart

end Fhd
