import FhdEngine.Storage.Published

/-!
# Coverage over the history of a handle

A handle starts with no coverage, and a call that succeeds adds exactly its range (`Credited`), whatever
other calls fail around it and wherever they stop. So at any point of any history the coverage is the union
of the ranges that were credited since the handle was opened, kept in order with a gap between neighbours,
and it is complete exactly when no byte is missing (`coverage_exact`).
-/

namespace Fhd

open Process (Environment Ensures Returns Does Post)

namespace FilePart

variable {h h' : FilePart} {range : ByteRange} {plan : ℕ × ℕ × ByteRange} {p : ℕ}

/-- **The splice window** of a plan lies within the coverage. -/
theorem swallow_window (l : List ByteRange) (last start stop : ℕ) :
    last ≤ (swallow l last start stop).1 ∧ (swallow l last start stop).1 ≤ last + l.length := by
  induction l generalizing last start stop with
  | nil => exact ⟨le_rfl, le_rfl⟩
  | cons e l ih =>
    rw [swallow]
    split
    · exact ⟨le_rfl, Nat.le_add_right _ _⟩
    · obtain ⟨hfirst, hlast⟩ := ih (last + 1) (min start e.start) (max stop e.stop)
      rw [List.length_cons]
      omega

/-- Where `coverage_plan` begins to swallow, and where it stops. -/
def window (h : FilePart) (range : ByteRange) : ℕ × ℕ :=
  let first := (h.coverage.takeWhile (·.stop < range.start)).length
  (first, (swallow (h.coverage.drop first) first range.start range.stop).1)

theorem window_le (h : FilePart) (range : ByteRange) :
    (h.window range).1 ≤ (h.window range).2 ∧ (h.window range).2 ≤ h.coverage.length := by
  have hfirst : (h.coverage.takeWhile fun e ↦ e.stop < range.start).length ≤ h.coverage.length :=
    (List.takeWhile_prefix _).length_le
  obtain ⟨hle, hlast⟩ := swallow_window
    (h.coverage.drop (h.coverage.takeWhile fun e ↦ e.stop < range.start).length)
    (h.coverage.takeWhile fun e ↦ e.stop < range.start).length range.start range.stop
  rw [List.length_drop] at hlast
  exact ⟨hle, hlast.trans (by omega)⟩

theorem window_of_plan (hplan : h.coveragePlan range = .ok plan) :
    (plan.1, plan.2.1) = h.window range := by
  unfold coveragePlan at hplan
  dsimp only at hplan
  split at hplan
  · cases hplan
  · split at hplan
    · cases hplan
    · cases hplan
      rfl

end FilePart

/-! ### What was credited -/

/-- **The bytes credited** to the present handle: those of every call that succeeded since it was
opened. -/
def Credited : Log → ℕ → Prop
  | [], _ => False
  | (.create, _) :: _, _ | (.reopen, _) :: _, _ | (.close, _) :: _, _ | (_, none) :: _, _ => False
  | (.write offset bytes, some (.ok ())) :: log, p =>
    (offset ≤ p ∧ p < offset + bytes.length) ∨ Credited log p
  | (.recoverExtent range _, some (.ok ())) :: log, p => p ∈ range ∨ Credited log p
  | (_, _) :: log, p => Credited log p

/-- **Coverage is exact**: in order, with gaps between neighbours, within the part, and it covers what was
credited. -/
structure Exactly (spec : PartSpec) (log : Log) (h : FilePart) : Prop where
  spec_eq : h.spec = spec
  separated : Separated h.coverage
  covered : ∀ p, Covered h.coverage p ↔ Credited log p
  within : ∀ r ∈ h.coverage, r.stop ≤ spec.size

namespace Exactly

variable {spec : PartSpec} {log log' : Log} {h h' : FilePart} {range : ByteRange}
  {plan : ℕ × ℕ × ByteRange}

/-- Only the coverage of the handle matters. -/
theorem congr (hx : Exactly spec log h) (hspec : h'.spec = h.spec) (hcoverage : h'.coverage = h.coverage)
    (hlog : ∀ p, Credited log' p ↔ Credited log p) : Exactly spec log' h' where
  spec_eq := hspec.trans hx.spec_eq
  separated := hcoverage ▸ hx.separated
  covered p := by rw [hcoverage, hx.covered, hlog]
  within := hcoverage ▸ hx.within

/-- A plan that was carried out. -/
theorem add (hx : Exactly spec log h) (hplan : h.coveragePlan range = .ok plan)
    (hle : range.stop ≤ spec.size) (hspec : h'.spec = h.spec)
    (hcoverage : h'.coverage = (h.addCoverage plan).coverage)
    (hlog : ∀ p, Credited log' p ↔ p ∈ range ∨ Credited log p) : Exactly spec log' h' := by
  obtain ⟨hseparated, hcovered⟩ := FilePart.coveragePlan_eq_ok hx.separated hplan
  refine ⟨hspec.trans hx.spec_eq, hcoverage ▸ hseparated, fun p ↦ ?_, fun r hr ↦ ?_⟩
  · rw [hcoverage, hcovered, hx.covered, hlog, or_comm]
  · -- the last byte of an entry was covered before, or is one of the range
    have hlt := r.start_lt
    have hlast : Covered (h.addCoverage plan).coverage (r.stop - 1) :=
      ⟨r, hcoverage ▸ hr, by rw [ByteRange.mem_def]; omega⟩
    rcases (hcovered _).1 hlast with ⟨e, he, hmem⟩ | hmem
    · have := hx.within e he
      rw [ByteRange.mem_def] at hmem
      omega
    · rw [ByteRange.mem_def] at hmem
      omega

theorem complete_iff (hx : Exactly spec log h) :
    h.complete = true ↔ ∀ p < spec.size, Covered h.coverage p := by
  rw [← hx.spec_eq]
  exact FilePart.complete_iff hx.separated (hx.spec_eq ▸ hx.within)

end Exactly

/-! ### Acts -/

section Acts

variable {sha256 : List UInt8 → Digest} {path destination : Path} {spec : PartSpec} {log : Log}
  {D D' : Desk} {d d' : Disk} {h : FilePart} {act : Act} {outcome : Upshot}

/-- The same part, with the same coverage. -/
def FilePart.Alike (h h' : FilePart) : Prop := h'.spec = h.spec ∧ h'.coverage = h.coverage

namespace FilePart

theorem proveStaged_alike (staged : Path) (expected : Digest) :
    Does onDisk (fun _ ↦ True) h d (proveStaged sha256 staged expected)
      (fun _ h' _ ↦ h.Alike h') (fun _ h' _ ↦ h.Alike h') := by
  refine Does.get (observe_does (Does.mono (hashStaged_looks onDisk (fun _ ↦ True) h d id trivial) ?_ ?_))
  · rintro digest h' d' ⟨-, rfl, rfl⟩
    split
    · exact attempt_does fun _ _ _ ↦ ⟨trivial, Does.change (Does.throw ⟨rfl, rfl⟩)⟩
    · exact Does.pure ⟨rfl, rfl⟩
  · rintro e h' d' ⟨rfl, rfl⟩
    rw [if_pos nofun]
    exact attempt_does fun _ _ _ ↦ ⟨trivial, Does.change (Does.throw ⟨rfl, rfl⟩)⟩

theorem stage_alike (staged : Path) (expected : Digest) :
    Does onDisk (fun _ ↦ True) h d (stage sha256 staged expected)
      (fun _ h' _ ↦ h.Alike h') (fun _ h' _ ↦ h.Alike h') := by
  refine Does.get (attempt_does fun _ d₁ _ ↦ ⟨trivial, attempt_does fun x d₂ _ ↦ ⟨trivial, ?_⟩⟩)
  cases x with
  | error kind => exact Does.change (Does.throw ⟨rfl, rfl⟩)
  | ok x => exact proveStaged_alike staged expected

theorem expose_alike (staged q : Path) :
    Does onDisk (fun _ ↦ True) h d (expose staged q) (fun _ h' _ ↦ h.Alike h') (fun _ h' _ ↦ h.Alike h') := by
  refine attempt_does fun x d₁ _ ↦ ⟨trivial, ?_⟩
  cases x with
  | error kind => exact attempt_does fun _ _ _ ↦ ⟨trivial, Does.change (Does.throw ⟨rfl, rfl⟩)⟩
  | ok x => exact Does.pure ⟨rfl, rfl⟩

/-- **A publication** changes flags of the handle only. -/
theorem publish_alike : Does onDisk (fun _ ↦ True) h d (publish sha256 destination)
    (fun _ h' _ ↦ h.Alike h') (fun _ h' _ ↦ h.Alike h') := by
  refine ((checkPublishable_does id trivial).mono (fun _ _ _ h ↦ h) ?_).bind ?_
  · rintro _ h' d' ⟨rfl | rfl, -⟩ <;> exact ⟨rfl, rfl⟩
  rintro ⟨expected, q⟩ h' d' ⟨-, rfl, -⟩
  refine ((freeze_does (I := fun _ ↦ True) id trivial fun _ ↦ trivial).mono (fun _ _ _ h ↦ h) ?_).bind ?_
  · rintro _ h₁ d₁ ⟨rfl, -⟩
    exact ⟨rfl, rfl⟩
  rintro _ h₁ d₁ ⟨rfl, -⟩
  refine Does.get (((stage_alike _ expected).mono (fun _ _ _ h ↦ h) fun _ _ _ h ↦ h).bind ?_)
  intro _ h₂ d₂ hstage
  refine (((expose_alike _ q).mono (fun _ _ _ h ↦ h) ?_).bind ?_)
  · exact fun _ h₃ d₃ hexpose ↦ ⟨hexpose.1.trans hstage.1, hexpose.2.trans hstage.2⟩
  intro _ h₃ d₃ hexpose
  have halike : h'.Alike h₃ := ⟨hexpose.1.trans hstage.1, hexpose.2.trans hstage.2⟩
  refine attempt_does fun _ d₄ _ ↦ ⟨trivial, ?_⟩
  refine (Looks.sys rfl).does id trivial (fun _ _ ↦ ?_) fun _ ↦ halike
  refine syncParent_looks.does id trivial (fun _ _ ↦ ?_) fun _ ↦ halike
  refine (Looks.sys rfl).does id trivial (fun _ _ ↦ ?_) fun _ ↦ halike
  exact Does.change (Does.pure halike)

end FilePart

/-- A call that credits nothing, and leaves the coverage alone. -/
theorem Exactly.alike {r : Except StorageError Unit} {h' : FilePart} (hx : Exactly spec log h)
    (halike : h.Alike h') (hcredit : ∀ p, Credited ((act, some r) :: log) p ↔ Credited log p) :
    ∀ g ∈ some h', Exactly spec ((act, some r) :: log) g := by
  rintro g ⟨⟩
  exact hx.congr halike.1 halike.2 hcredit

/-- **Step lemma**: coverage stays exact, whatever is done and wherever it stops. -/
theorem exactly_step (hx : ∀ h ∈ D.handle, Exactly spec log h)
    (hstep : Step sha256 path spec (fun _ _ ↦ onDisk) D act outcome D') :
    ∀ h ∈ D'.handle, Exactly spec ((act, outcome) :: log) h := by
  cases hstep with
  | crashed hp hreaches => exact nofun
  | @done prog r handle d' hp hreturns =>
    show ∀ h ∈ handle, _
    suffices hends : Ensures onDisk (fun _ ↦ True)
        (fun e _ ↦ ∀ h ∈ e.2, Exactly spec ((act, some e.1) :: log) h) D.disk prog from
      hends.returns hreturns
    obtain ⟨disk, handle⟩ := D
    have hopen : ∀ {h d create outcome}, FilePart.Opened d path spec create h →
        Exactly spec ((.create, outcome) :: log) h ∧ Exactly spec ((.reopen, outcome) :: log) h := by
      intro h d create outcome ho
      have hnil : Separated h.coverage ∧ (∀ p, Covered h.coverage p ↔ False) ∧
          ∀ r ∈ h.coverage, r.stop ≤ spec.size := by
        rw [ho.coverage]
        exact ⟨List.Pairwise.nil, fun p ↦ iff_of_false covered_nil id, nofun⟩
      exact ⟨⟨ho.spec, hnil.1, hnil.2.1, hnil.2.2⟩, ho.spec, hnil.1, hnil.2.1, hnil.2.2⟩
    cases handle with
    | none =>
      cases act with
      | create =>
        cases hp
        have hcreate : Ensures onDisk (Creating path spec disk)
            (fun e _ ↦ ∀ h ∈ e.2, Exactly spec ((.create, some e.1) :: log) h) disk (opening path spec true) := by
          refine opening_ensures (Q := fun h d' ↦ FilePart.Opened d' path spec true h) (X := fun _ ↦ True)
            ((create_does id).mono (fun _ _ _ h ↦ h.2.1) fun _ _ _ _ ↦ trivial) ?_ fun _ _ _ ↦ nofun
          rintro h d' ho _ ⟨⟩
          exact (hopen ho).1
        exact hcreate.weaken fun _ _ ↦ trivial
      | reopen =>
        cases hp
        refine opening_ensures (Q := fun h _ ↦ FilePart.Opened disk path spec false h) (X := fun _ ↦ True)
          (reopen_looks.last id trivial (fun _ hh ↦ hh.1) fun _ ↦ trivial) ?_ fun _ _ _ ↦ nofun
        rintro h d' ho _ ⟨⟩
        exact (hopen ho).2
      | _ => cases hp
    | some h =>
      have hx := hx h rfl
      cases act with
      | create | reopen => cases hp
      | write offset bytes =>
        cases hp
        refine calling_ensures (FilePart.writeAt_does id trivial fun _ _ _ _ ↦ trivial) ?_ ?_
        · rintro _ h' d' (⟨rfl, rfl, -⟩ | ⟨range, plan, hpasses, rfl, -⟩)
          · refine hx.alike ⟨rfl, rfl⟩ fun p ↦ ?_
            simp [Credited]
          · rintro _ ⟨⟩
            refine hx.add hpasses.plan (hx.spec_eq ▸ hpasses.le_size) rfl rfl fun p ↦ ?_
            rw [Credited, ByteRange.mem_def, hpasses.start, hpasses.stop]
        · rintro e h' d' (⟨-, rfl, -⟩ | ⟨range, plan, written, kind, -, -, rfl, -⟩)
          · exact hx.alike ⟨rfl, rfl⟩ fun _ ↦ Iff.rfl
          · exact hx.alike ⟨rfl, rfl⟩ fun _ ↦ Iff.rfl
      | sync =>
        cases hp
        refine calling_ensures (FilePart.sync_does id trivial) ?_ ?_
        · rintro _ h' d' ⟨-, rfl, -⟩
          exact hx.alike ⟨rfl, rfl⟩ fun _ ↦ Iff.rfl
        · rintro e h' d' ⟨rfl | rfl, -⟩ <;> exact hx.alike ⟨rfl, rfl⟩ fun _ ↦ Iff.rfl
      | hashRange range =>
        cases hp
        refine calling_ensures (FilePart.hashRange_does id trivial) ?_ ?_
        · rintro _ h' d' ⟨-, rfl, -⟩
          exact hx.alike ⟨rfl, rfl⟩ fun _ ↦ Iff.rfl
        · rintro e h' d' ⟨rfl, -⟩
          exact hx.alike ⟨rfl, rfl⟩ fun _ ↦ Iff.rfl
      | recoverExtent range digest =>
        cases hp
        refine calling_ensures (FilePart.recoverExtent_does id trivial) ?_ ?_
        · rintro _ h' d' ⟨plan, -, hle, hplan, -, rfl, -⟩ _ ⟨⟩
          exact hx.add hplan (hx.spec_eq ▸ hle) rfl rfl fun p ↦ Iff.rfl
        · rintro e h' d' ⟨rfl, -⟩
          exact hx.alike ⟨rfl, rfl⟩ fun _ ↦ Iff.rfl
      | verify expected record =>
        cases hp
        refine calling_ensures (FilePart.verify_does id trivial) ?_ ?_
        · rintro _ h' d' ⟨-, rfl, -⟩
          exact hx.alike ⟨rfl, rfl⟩ fun _ ↦ Iff.rfl
        · rintro e h' d' ⟨⟨-, rfl⟩ | rfl, -⟩ <;> exact hx.alike ⟨rfl, rfl⟩ fun _ ↦ Iff.rfl
      | publish destination =>
        cases hp
        exact calling_ensures FilePart.publish_alike (fun _ _ _ ha ↦ hx.alike ha fun _ ↦ Iff.rfl)
          fun _ _ _ ha ↦ hx.alike ha fun _ ↦ Iff.rfl
      | abandon =>
        cases hp
        exact hx.alike ⟨rfl, rfl⟩ fun _ ↦ Iff.rfl
      | close =>
        cases hp
        exact nofun

/-- **Run lemma.** -/
theorem exactly_run (hrun : Run sha256 path spec (fun _ _ ↦ onDisk) d log D) :
    ∀ h ∈ D.handle, Exactly spec log h := by
  induction hrun with
  | start => exact nofun
  | step _ hstep ih => exact exactly_step ih hstep

end Acts

/-- **Coverage is exact** at every point of every history: it is in order, its entries never meet or touch,
it is the union of the ranges of the calls that succeeded on this handle, it is complete exactly when every
byte is covered, and whatever range comes next, its splice window lies within it. -/
theorem coverage_exact (sha256 : List UInt8 → Digest) (path : Path) (spec : PartSpec) (d : Disk) (log : Log)
    (D : Desk) (h : FilePart) (hrun : Run sha256 path spec (fun _ _ ↦ onDisk) d log D)
    (hh : D.handle = some h) :
    Separated h.coverage ∧ (∀ p, Covered h.coverage p ↔ Credited log p) ∧
      (h.complete = true ↔ ∀ p < spec.size, Covered h.coverage p) ∧
      ∀ range, (h.window range).1 ≤ (h.window range).2 ∧ (h.window range).2 ≤ h.coverage.length ∧
        ∀ plan, h.coveragePlan range = .ok plan → (plan.1, plan.2.1) = h.window range := by
  have hx := exactly_run hrun h hh
  refine ⟨hx.separated, hx.covered, hx.complete_iff, fun range ↦ ?_⟩
  obtain ⟨hle, hlast⟩ := h.window_le range
  exact ⟨hle, hlast, fun plan ↦ FilePart.window_of_plan⟩

/-- Both bytes of a part are written, the second one first. -/
def Sample.writtenTwice : List (Act × Sample.Plan) :=
  [(.create, Sample.steady), (.write 1 [8], Sample.steady), (.write 0 [7], Sample.steady)]

theorem coverage_exact_written : ∃ log D h,
    Run Sample.checksum ["parts"] Sample.part (fun _ _ ↦ onDisk) Sample.emptyDisk log D ∧
      D.handle = some h ∧ ∀ p, Covered h.coverage p ↔ Credited log p := by
  have hover : ((Sample.carryOutAll (fun _ ↦ true) Sample.writtenTwice [] ⟨Sample.emptyDisk, none⟩).map
      fun (_, D) ↦ D.handle.isSome) = some true := by
    decide +kernel
  obtain ⟨⟨log, D⟩, hacts, hsome⟩ := Option.map_eq_some_iff.1 hover
  obtain ⟨h, hh⟩ := Option.isSome_iff_exists.1 hsome
  have hrun := Sample.run_of_carryOutAll (fun _ _ _ _ _ _ _ _ hx ↦ ⟨_, hx⟩)
    (.start : Run Sample.checksum ["parts"] Sample.part (fun _ _ ↦ onDisk) Sample.emptyDisk [] _) hacts
  exact ⟨log, D, h, hrun, hh, (coverage_exact _ _ _ _ log D h hrun hh).2.1⟩

end Fhd
