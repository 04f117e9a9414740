import FhdEngine.Storage.Desk

/-!
# Published bytes are immutable

A handle is carried through every act of its owner (`InHand`), and with it the reason why it cannot write to
a published file. `publish` takes the seal back in memory when the staged link fails, whether or not this
very handle has published before, so the reason survives only while that does not happen (`sparing`).
-/

namespace Fhd

open Process (Prog Environment Ensures Returns Reaches Does Post)
open FilePart (Restaged Shown)

variable (sha256 : List UInt8 → Digest) (path : Path) (spec : PartSpec)

/-- **What a handle keeps** with the disk and the history. -/
structure InHand (log : Log) (d : Disk) (h : FilePart) : Prop where
  directory_eq : h.directory = path
  path_eq : h.path = spec.path path .part
  spec_eq : h.spec = spec
  file : d.names (spec.path path .part) = some (.file h.file)
  metadata : d.names (spec.path path .sidecar) = some (.file h.metadata)
  length : (d.contents h.file).length = spec.size
  separated : Separated h.coverage
  /-- It cannot write to a published file. -/
  shut : ∀ inode q, d.Linked path spec inode q → h.poisoned = true ∨
    h.isSealed = true ∧ (h.published = true ∨
      ∀ p, Covered h.coverage p → Covered h.protectedRanges p) ∨
    ∀ p < spec.size, Covered h.protectedRanges p
  verified : ∀ digest ∈ h.verified, digest = sha256 (d.slice h.file 0 spec.size) ∧ VerifiedIn log
  guarded : ∀ range ∈ recovered log, range ∈ h.protectedRanges

/-- The invariant of a history. -/
def Intact (log : Log) (D : Desk) : Prop :=
  Kept path spec D.disk ∧ ∀ h ∈ D.handle, InHand sha256 path spec log D.disk h

/-- A handle that has published, with bytes it does not protect, stages without a failure. -/
def Sparing (D : Desk) (act : Act) (op : Syscall) (x : Reply op) : Prop :=
  ∀ h destination, D.handle = some h → act = .publish destination → h.published = true →
    (∃ p < h.spec.size, ¬Covered h.protectedRanges p) → h.Stages op → ∀ kind, x ≠ .error kind

/-- Any disk, as long as that is so. -/
def sparing : Answering := fun D act d op x d' ↦ onDisk d op x d' ∧ Sparing D act op x

/-- What is proved of one act. -/
structure Fine (log : Log) (D : Desk) (act : Act) (r : Except StorageError Unit × Option FilePart)
    (d' : Disk) : Prop where
  kept : Kept path spec d'
  lawful : Lawful path spec log D act d'
  held : ∀ h ∈ r.2, InHand sha256 path spec ((act, some r.1) :: log) d' h
  refused : ∀ inode q, D.disk.Linked path spec inode q → ∀ offset bytes, act = .write offset bytes →
    bytes ≠ [] → r.1 ≠ .ok ()

section Proofs

variable {sha256 path spec} {log : Log} {D : Desk} {act : Act} {d d' : Disk} {h : FilePart}
  {α : Type} {I : Disk → Prop}

theorem onDisk_sparing : OnDisk (sparing D act) := fun h ↦ h.1

theorem VerifiedIn.cons {outcome : Upshot} (hv : VerifiedIn log) (hq : Act.Quiet (act, outcome)) :
    VerifiedIn ((act, outcome) :: log) := by
  obtain ⟨since, before, expected, record, rfl, hsince⟩ := hv
  refine ⟨(act, outcome) :: since, before, expected, record, rfl, fun entry hentry ↦ ?_⟩
  rcases List.mem_cons.1 hentry with rfl | hentry
  · exact hq
  · exact hsince entry hentry

/-- The same handle after an act that changed nothing it keeps. -/
theorem InHand.quiet (hh : InHand sha256 path spec log d h) (act : Act) (outcome : Upshot)
    (hq : Act.Quiet (act, outcome)) (hr : recovered ((act, outcome) :: log) = recovered log) :
    InHand sha256 path spec ((act, outcome) :: log) d h :=
  { hh with
    verified := fun digest hd ↦ ⟨(hh.verified digest hd).1, (hh.verified digest hd).2.cons hq⟩
    guarded := by
      rw [hr]
      exact hh.guarded }

/-- An act that left the disk alone. -/
theorem fine_of_same {r : Except StorageError Unit} {handle : Option FilePart}
    (hkept : Kept path spec D.disk)
    (hheld : ∀ h ∈ handle, InHand sha256 path spec ((act, some r) :: log) D.disk h)
    (hact : ∀ offset bytes, act = .write offset bytes → bytes ≠ [] → r ≠ .ok ()) :
    Fine sha256 path spec log D act (r, handle) D.disk :=
  ⟨hkept, .refl, hheld, fun _ _ _ ↦ hact⟩

/-! ### Opening -/

theorem Creating.held (ho : FilePart.Opened d' path spec true h)
    (hlength : d'.contents h.file = List.replicate spec.size 0) {outcome : Upshot}
    (hunlinked : ∀ inode q, ¬d'.Linked path spec inode q) :
    InHand sha256 path spec ((.create, outcome) :: log) d' h := by
  have hdir := ho.directory
  have hfile := ho.file
  rw [ho.path, hdir] at hfile
  have hmetadata := ho.metadata
  rw [hdir] at hmetadata
  refine ⟨hdir, by rw [ho.path, hdir], ho.spec, hfile, hmetadata, ?_, ?_,
    fun inode q hl ↦ absurd hl (hunlinked inode q), ?_, nofun⟩
  · rw [hlength, List.length_replicate]
  · rw [ho.coverage]
    exact List.Pairwise.nil
  · rw [ho.verified]
    nofun

/-- A part that was published is sealed for whoever opens it. -/
theorem Kept.held (hk : Kept path spec d) (ho : FilePart.Opened d path spec false h)
    (hlength : (d.contents h.file).length = spec.size)
    (hsealed : h.isSealed = decide ((d.contents h.metadata).getD 33 0 = 1)) {outcome : Upshot} :
    InHand sha256 path spec ((.reopen, outcome) :: log) d h := by
  have hdir := ho.directory
  have hfile := ho.file
  rw [ho.path, hdir] at hfile
  have hmetadata := ho.metadata
  rw [hdir] at hmetadata
  refine ⟨hdir, by rw [ho.path, hdir], ho.spec, hfile, hmetadata, hlength, ?_, fun inode q hl ↦ ?_, ?_,
    nofun⟩
  · rw [ho.coverage]
    exact List.Pairwise.nil
  · obtain ⟨m, hm, hone⟩ := hk.isSealed inode q hl
    rw [hmetadata] at hm
    obtain rfl := Node.file.inj (Option.some.inj hm)
    refine Or.inr (Or.inl ⟨hsealed.trans (decide_eq_true hone), Or.inr fun p hp ↦ ?_⟩)
    rw [ho.coverage] at hp
    exact absurd hp covered_nil
  · rw [ho.verified]
    nofun

theorem create_fine (hs : Intact sha256 path spec log D) (hnone : D.handle = none) :
    Ensures (sparing D .create) (fun d' ↦ Kept path spec d' ∧ Lawful path spec log D .create d')
      (Fine sha256 path spec log D .create) D.disk (opening path spec true) := by
  have hcreate : Ensures (sparing D .create) (Creating path spec D.disk)
      (Fine sha256 path spec log D .create) D.disk (opening path spec true) := by
    refine opening_ensures
      (Does.mono (create_does onDisk_sparing) (fun h t d' ↦ And.right) fun _ _ d' ↦ And.right) ?_ ?_
    · rintro h d' ⟨ho, -, hfree, hc, hlength, -⟩
      obtain ⟨hk, hl⟩ := hc.lawful log .create hs.1 hnone
      refine ⟨hk, hl, ?_, nofun⟩
      rintro _ ⟨⟩
      refine Creating.held ho hlength fun inode q hlinked ↦ ?_
      rcases hc.cases with hroot | hu
      · have hfile := hroot.of_file ho.file
        rw [ho.path, ho.directory, hfree] at hfile
        cases hfile
      · exact hu.not_linked inode q hlinked
    · intro e d' hc
      obtain ⟨hk, hl⟩ := hc.lawful log .create hs.1 hnone
      exact ⟨hk, hl, nofun, nofun⟩
  exact hcreate.weaken fun d' hc ↦ hc.lawful log .create hs.1 hnone

theorem reopen_fine (hs : Intact sha256 path spec log D) :
    Ensures (sparing D .reopen) (fun d' ↦ Kept path spec d' ∧ Lawful path spec log D .reopen d')
      (Fine sha256 path spec log D .reopen) D.disk (opening path spec false) := by
  have hI : Kept path spec D.disk ∧ Lawful path spec log D .reopen D.disk := ⟨hs.1, .refl⟩
  refine opening_ensures (Q := fun h d' ↦ (FilePart.Opened D.disk path spec false h ∧
      (D.disk.contents h.file).length = spec.size ∧ (D.disk.contents h.metadata).length = metaLen ∧
      h.isSealed = decide ((D.disk.contents h.metadata).getD 33 0 = 1)) ∧ d' = D.disk)
    (X := fun d' ↦ d' = D.disk)
    (reopen_looks.last onDisk_sparing hI (fun h hh ↦ ⟨hh, rfl⟩) fun _ ↦ rfl) ?_ ?_
  · rintro h d' ⟨⟨ho, hlength, -, hsealed⟩, rfl⟩
    refine fine_of_same hs.1 ?_ nofun
    rintro _ ⟨⟩
    exact hs.1.held ho hlength hsealed
  · rintro e d' rfl
    exact fine_of_same hs.1 nofun nofun

/-! ### Methods that leave the disk alone -/

theorem sync_fine (hs : Intact sha256 path spec log D) (hh : h ∈ D.handle) :
    Ensures (sparing D .sync) (fun d' ↦ Kept path spec d' ∧ Lawful path spec log D .sync d')
      (Fine sha256 path spec log D .sync) D.disk (calling FilePart.sync h) := by
  have hheld := hs.2 h hh
  refine calling_ensures (FilePart.sync_does onDisk_sparing ⟨hs.1, .refl⟩) ?_ ?_
  · rintro _ h' d' ⟨-, rfl, rfl⟩
    refine fine_of_same hs.1 ?_ nofun
    rintro _ ⟨⟩
    exact { hheld.quiet .sync (some (.ok ())) trivial rfl with }
  · rintro e h' d' ⟨hh', rfl⟩
    refine fine_of_same hs.1 ?_ nofun
    rintro _ ⟨⟩
    have hquiet := hheld.quiet .sync (some (.error e)) trivial rfl
    rcases hh' with rfl | rfl
    · exact hquiet
    · exact { hquiet with shut := fun _ _ _ ↦ Or.inl rfl }

theorem hashRange_fine {range : ByteRange} (hs : Intact sha256 path spec log D) (hh : h ∈ D.handle) :
    Ensures (sparing D (.hashRange range))
      (fun d' ↦ Kept path spec d' ∧ Lawful path spec log D (.hashRange range) d')
      (Fine sha256 path spec log D (.hashRange range)) D.disk
      (calling (FilePart.hashRange sha256 range) h) := by
  refine calling_ensures (FilePart.hashRange_does onDisk_sparing ⟨hs.1, .refl⟩) ?_ ?_
  · rintro _ h' d' ⟨-, rfl, rfl⟩
    refine fine_of_same hs.1 ?_ nofun
    rintro _ ⟨⟩
    exact (hs.2 h' hh).quiet _ _ trivial rfl
  · rintro e h' d' ⟨rfl, rfl⟩
    refine fine_of_same hs.1 ?_ nofun
    rintro _ ⟨⟩
    exact (hs.2 h' hh).quiet _ _ trivial rfl

theorem recoverExtent_fine {range : ByteRange} {digest : Digest} (hs : Intact sha256 path spec log D)
    (hh : h ∈ D.handle) :
    Ensures (sparing D (.recoverExtent range digest))
      (fun d' ↦ Kept path spec d' ∧ Lawful path spec log D (.recoverExtent range digest) d')
      (Fine sha256 path spec log D (.recoverExtent range digest)) D.disk
      (calling (FilePart.recoverExtent sha256 range digest) h) := by
  have hheld := hs.2 h hh
  refine calling_ensures (FilePart.recoverExtent_does onDisk_sparing ⟨hs.1, .refl⟩) ?_ ?_
  · rintro _ h' d' ⟨plan, hhealthy, -, hplan, -, rfl, rfl⟩
    refine fine_of_same hs.1 ?_ nofun
    rintro _ ⟨⟩
    obtain ⟨hseparated, hcovers⟩ := FilePart.coveragePlan_eq_ok hheld.separated hplan
    refine { hheld with
      separated := hseparated
      shut := fun inode q hl ↦ ?_
      verified := fun g hg ↦ ⟨(hheld.verified g hg).1, (hheld.verified g hg).2.cons trivial⟩
      guarded := fun r hr ↦ ?_ }
    · rcases hheld.shut inode q hl with h₁ | ⟨h₁, h₂⟩ | h₁
      · exact Or.inl h₁
      · refine Or.inr (Or.inl ⟨h₁, h₂.imp_right fun h₂ p hp ↦ ?_⟩)
        rcases (hcovers p).1 hp with hp | hp
        · exact covered_append.2 (Or.inl (h₂ p hp))
        · exact covered_append.2 (Or.inr ⟨range, List.mem_singleton_self _, hp⟩)
      · exact Or.inr (Or.inr fun p hp ↦ covered_append.2 (Or.inl (h₁ p hp)))
    · rcases List.mem_cons.1 hr with rfl | hr
      · exact List.mem_append_right _ (List.mem_singleton_self _)
      · exact List.mem_append_left _ (hheld.guarded r hr)
  · rintro e h' d' ⟨rfl, rfl⟩
    refine fine_of_same hs.1 ?_ nofun
    rintro _ ⟨⟩
    exact hheld.quiet _ _ trivial rfl

theorem verify_fine {expected : Option Digest} {record : List (ByteRange × Digest)}
    (hs : Intact sha256 path spec log D) (hh : h ∈ D.handle) :
    Ensures (sparing D (.verify expected record))
      (fun d' ↦ Kept path spec d' ∧ Lawful path spec log D (.verify expected record) d')
      (Fine sha256 path spec log D (.verify expected record)) D.disk
      (calling (FilePart.verify sha256 expected record) h) := by
  have hheld := hs.2 h hh
  refine calling_ensures (FilePart.verify_does onDisk_sparing ⟨hs.1, .refl⟩) ?_ ?_
  · rintro digest h' d' ⟨hverified, rfl, rfl⟩
    refine fine_of_same hs.1 ?_ nofun
    rintro _ ⟨⟩
    have hquiet := hheld.quiet (.verify expected record) (some (.ok ())) trivial rfl
    refine { hquiet with verified := ?_ }
    rintro _ ⟨⟩
    refine ⟨?_, [], log, expected, record, rfl, nofun⟩
    rw [hverified.whole, hheld.spec_eq]
  · rintro e h' d' ⟨hh', rfl⟩
    refine fine_of_same hs.1 ?_ nofun
    rintro _ ⟨⟩
    have hquiet := hheld.quiet (.verify expected record) (some (.error e)) trivial rfl
    rcases hh' with ⟨-, rfl⟩ | rfl
    · exact hquiet
    · exact { hquiet with verified := nofun }

theorem abandon_fine (hs : Intact sha256 path spec log D) (hh : h ∈ D.handle) :
    Ensures (sparing D .abandon) (fun d' ↦ Kept path spec d' ∧ Lawful path spec log D .abandon d')
      (Fine sha256 path spec log D .abandon) D.disk (calling FilePart.abandon h) := by
  refine fine_of_same hs.1 ?_ nofun
  rintro _ ⟨⟩
  exact { (hs.2 h hh).quiet .abandon (some (.ok ())) trivial rfl with }

/-! ### Writing -/

/-- A protected extent and a range that is written have no byte in common. -/
theorem apart_of_guards {range entry : ByteRange} (hguards : h.guards range = false)
    (hentry : entry ∈ h.protectedRanges) : entry.stop ≤ range.start ∨ range.stop ≤ entry.start := by
  by_contra hboth
  rw [not_or, Nat.not_le, Nat.not_le] at hboth
  have htrue : h.guards range = true :=
    List.any_eq_true.2 ⟨entry, hentry, decide_eq_true ⟨hboth.2, hboth.1⟩⟩
  rw [hguards] at htrue
  cases htrue

/-- **No write passes** once the part is published. -/
theorem InHand.not_passes {offset : ℕ} {bytes : List UInt8} {range : ByteRange} {plan : ℕ × ℕ × ByteRange}
    (hheld : InHand sha256 path spec log d h) {inode : Inode} {q : Path}
    (hl : d.Linked path spec inode q) : ¬h.Passes offset bytes range plan := by
  intro hp
  rcases hheld.shut inode q hl with h₁ | ⟨h₁, -⟩ | h₁
  · rw [hp.healthy] at h₁
    cases h₁
  · rw [hp.isSealed] at h₁
    cases h₁
  · have hlt := range.start_lt
    have hle := hp.le_size
    rw [hheld.spec_eq] at hle
    obtain ⟨entry, hentry, hmem⟩ := h₁ range.start (by omega)
    rw [ByteRange.mem_def] at hmem
    rcases apart_of_guards hp.guards hentry with h₂ | h₂
    · omega
    · omega

/-- Bytes that were let through change no other byte of the part. -/
theorem write_lawful (written : ℕ) {offset : ℕ} {bytes : List UInt8} {range : ByteRange}
    {plan : ℕ × ℕ × ByteRange} (hs : Intact sha256 path spec log D) (hh : h ∈ D.handle)
    (hp : h.Passes offset bytes range plan) :
    let d' := D.disk.put h.file (overwrite (D.disk.contents h.file) offset (bytes.take written))
    Kept path spec d' ∧ Lawful path spec log D (.write offset bytes) d' ∧
      (d'.contents h.file).length = spec.size := by
  have hheld := hs.2 h hh
  have hle : offset + (bytes.take written).length ≤ (D.disk.contents h.file).length := by
    rw [hheld.length, List.length_take, ← hheld.spec_eq]
    have := hp.stop
    have := hp.le_size
    omega
  refine ⟨hs.1.put hheld.file _, ⟨fun inode q hl ↦ absurd hp (hheld.not_passes hl),
    fun inode q hl hn ↦ absurd hl hn, fun h' hh' range' hrange' ↦ ?_⟩, ?_⟩
  · obtain rfl : h' = h := Option.some.inj (hh'.symm.trans hh)
    rw [Disk.slice, Disk.slice, Disk.put_contents_self]
    refine slice_overwrite hle ?_
    have hlen : (bytes.take written).length ≤ bytes.length := by
      rw [List.length_take]
      omega
    have hstart := hp.start
    have hstop := hp.stop
    have hlt := range'.start_lt
    rcases apart_of_guards hp.guards (hheld.guarded range' hrange') with h₁ | h₁
    · left
      rw [ByteRange.len]
      omega
    · right
      omega
  · rw [Disk.put_contents_self, length_overwrite hle, hheld.length]

theorem write_fine {offset : ℕ} {bytes : List UInt8} (hs : Intact sha256 path spec log D)
    (hh : h ∈ D.handle) :
    Ensures (sparing D (.write offset bytes))
      (fun d' ↦ Kept path spec d' ∧ Lawful path spec log D (.write offset bytes) d')
      (Fine sha256 path spec log D (.write offset bytes)) D.disk
      (calling (FilePart.writeAt offset bytes) h) := by
  have hheld := hs.2 h hh
  refine calling_ensures (FilePart.writeAt_does onDisk_sparing ⟨hs.1, .refl⟩
    fun range plan written hp ↦ ?_) ?_ ?_
  · obtain ⟨hk, hl, -⟩ := write_lawful written hs hh hp
    exact ⟨hk, hl⟩
  · rintro _ h' d' (⟨hnil, rfl, rfl⟩ | ⟨range, plan, hp, rfl, rfl⟩)
    · refine fine_of_same hs.1 ?_ fun o b hact hne ↦ ?_
      · rintro _ ⟨⟩
        exact hheld.quiet _ _ (Or.inl hnil) rfl
      · cases hact
        exact absurd hnil hne
    · have hwritten := write_lawful bytes.length hs hh hp
      rw [List.take_length] at hwritten
      obtain ⟨hk, hl, hlength⟩ := hwritten
      refine ⟨hk, hl, ?_, fun inode q hlinked ↦ absurd hp (hheld.not_passes hlinked)⟩
      rintro _ ⟨⟩
      exact { hheld with
        length := hlength
        separated := (FilePart.coveragePlan_eq_ok hheld.separated hp.plan).1
        shut := fun inode q hlinked ↦ absurd hp (hheld.not_passes hlinked)
        verified := nofun
        guarded := hheld.guarded }
  · rintro e h' d' (⟨he, rfl, rfl⟩ | ⟨range, plan, written, kind, hp, rfl, rfl, rfl⟩)
    · refine fine_of_same hs.1 ?_ fun _ _ _ _ ↦ nofun
      rintro _ ⟨⟩
      refine hheld.quiet _ _ (Or.inr ?_) rfl
      rcases he with rfl | rfl
      · exact Or.inl rfl
      · exact Or.inr rfl
    · obtain ⟨hk, hl, hlength⟩ := write_lawful written hs hh hp
      refine ⟨hk, hl, ?_, fun _ _ _ _ _ _ _ ↦ nofun⟩
      rintro _ ⟨⟩
      exact { hheld with
        length := hlength
        shut := fun _ _ _ ↦ Or.inl rfl
        verified := nofun
        guarded := hheld.guarded }

/-! ### Publishing -/

section Publish

variable {destination : Path} {expected : Digest} {q : Path}

/-- What a publication that goes ahead knows about the handle and the history. -/
theorem InHand.publishes (hh : h ∈ D.handle) (hheld : InHand sha256 path spec log D.disk h)
    (hp : h.Publishable D.disk destination expected q) :
    ∃ destination' h', Act.publish destination = .publish destination' ∧ D.handle = some h' ∧
      h'.verified.isSome = true ∧ h'.complete = true ∧ h'.synchronized = true ∧ VerifiedIn log :=
  ⟨destination, h, rfl, hh, by rw [hp.verified]; rfl, hp.complete, hp.synchronized,
    (hheld.verified expected hp.verified).2⟩

theorem lawful_of_names (hs : Intact sha256 path spec log D) (hh : h ∈ D.handle)
    (hcontents : d'.contents h.file = D.disk.contents h.file)
    (hpart : d'.names (spec.path path .part) = D.disk.names (spec.path path .part))
    (hkept : ∀ p i, p ≠ spec.path path .staged → D.disk.names p = some (.file i) →
      d'.names p = some (.file i))
    (hnew : ∀ p i, p ≠ spec.path path .staged → d'.names p = some (.file i) →
      D.disk.names p = some (.file i) ∨ ∃ destination h, act = .publish destination ∧
        D.handle = some h ∧ h.verified.isSome = true ∧ h.complete = true ∧ h.synchronized = true ∧
        VerifiedIn log) : Lawful path spec log D act d' := by
  have hheld := hs.2 h hh
  refine ⟨fun inode p hl ↦ ?_, fun inode p hl hn ↦ ?_, fun h' hh' range _ ↦ ?_⟩
  · obtain ⟨hp, hq, hne, hne'⟩ := hl
    obtain rfl : inode = h.file := Node.file.inj (Option.some.inj (hp.symm.trans hheld.file))
    exact ⟨hcontents, hpart.trans hp, hkept p _ hne' hq, hne, hne'⟩
  · obtain ⟨hp, hq, hne, hne'⟩ := hl
    rcases hnew p inode hne' hq with hold | hproof
    · exact absurd ⟨hpart ▸ hp, hold, hne, hne'⟩ hn
    · exact hproof
  · obtain rfl : h' = h := Option.some.inj (hh'.symm.trans hh)
    rw [Disk.slice, Disk.slice, hcontents]

theorem seal_lawful (act : Act) (hs : Intact sha256 path spec log D) (hh : h ∈ D.handle) (written : ℕ) :
    Kept path spec (D.disk.seal h.metadata written) ∧
      Lawful path spec log D act (D.disk.seal h.metadata written) := by
  have hheld := hs.2 h hh
  have hne := hs.1.ne_sidecar hheld.file hheld.metadata
  exact ⟨hs.1.seal written, lawful_of_names hs hh (Disk.seal_contents hne) rfl (fun _ _ _ h ↦ h)
    fun _ _ _ h ↦ Or.inl h⟩

theorem restaged_lawful (act : Act) (hs : Intact sha256 path spec log D) (hh : h ∈ D.handle)
    (hr : Restaged h.path (h.spec.path h.directory .staged) (D.disk.seal h.metadata 1) d') :
    Kept path spec d' ∧ Lawful path spec log D act d' ∧
      d'.contents h.file = D.disk.contents h.file := by
  have hheld := hs.2 h hh
  have hne := hs.1.ne_sidecar hheld.file hheld.metadata
  rw [hheld.path_eq, hheld.spec_eq, hheld.directory_eq] at hr
  have hcontents : d'.contents h.file = D.disk.contents h.file := by
    rw [hr.contents, Disk.seal_contents hne]
  refine ⟨(hs.1.seal 1).restaged hr, lawful_of_names hs hh hcontents
    (hr.names _ (path_ne_path (by decide))) (fun p i hp h ↦ ?_) (fun p i hp h ↦ ?_), hcontents⟩
  · exact (hr.names p hp).trans h
  · exact Or.inl ((hr.names p hp).symm.trans h)

theorem exposed_lawful (hs : Intact sha256 path spec log D) (hh : h ∈ D.handle)
    (hp : h.Publishable D.disk destination expected q) (hexp : h.Exposed D.disk q d') :
    Kept path spec d' ∧ Lawful path spec log D (.publish destination) d' ∧
      d'.contents h.file = D.disk.contents h.file := by
  have hheld := hs.2 h hh
  have hne := hs.1.ne_sidecar hheld.file hheld.metadata
  have hs' : Shown (spec.path path .part) (spec.path path .staged) h.file h.metadata D.disk q d' := by
    have := hexp
    rwa [FilePart.Exposed, hheld.path_eq, hheld.spec_eq, hheld.directory_eq] at this
  have hcontents : d'.contents h.file = D.disk.contents h.file := by
    rw [hs'.contents, Disk.seal_contents hne]
  have hold : ∀ p i, D.disk.names p = some (.file i) → p ≠ q := by
    rintro p i hi rfl
    rw [hs'.free] at hi
    cases hi
  refine ⟨hs.1.shown hheld.file hheld.metadata hs', lawful_of_names hs hh hcontents
    (hs'.names _ (hold _ _ hheld.file) (path_ne_path (by decide))) (fun p i hstaged hi ↦ ?_)
    (fun p i hstaged hi ↦ ?_), hcontents⟩
  · exact (hs'.names p (hold p i hi) hstaged).trans hi
  · by_cases hq : p = q
    · exact Or.inr (hheld.publishes hh hp)
    · exact Or.inl ((hs'.names p hq hstaged).symm.trans hi)

/-- The part and its sidecar keep their names while the staged link comes and goes. -/
theorem InHand.names_restaged (hheld : InHand sha256 path spec log d h)
    (hr : Restaged h.path (h.spec.path h.directory .staged) (d.seal h.metadata 1) d') :
    d'.names (spec.path path .part) = d.names (spec.path path .part) ∧
      d'.names (spec.path path .sidecar) = d.names (spec.path path .sidecar) := by
  rw [hheld.path_eq, hheld.spec_eq, hheld.directory_eq] at hr
  exact ⟨hr.names _ (path_ne_path (by decide)), hr.names _ (path_ne_path (by decide))⟩

theorem InHand.names_exposed (hheld : InHand sha256 path spec log d h) (hexp : h.Exposed d q d') :
    d'.names (spec.path path .part) = d.names (spec.path path .part) ∧
      d'.names (spec.path path .sidecar) = d.names (spec.path path .sidecar) := by
  have hs : Shown (spec.path path .part) (spec.path path .staged) h.file h.metadata d q d' := by
    rwa [FilePart.Exposed, hheld.path_eq, hheld.spec_eq, hheld.directory_eq] at hexp
  have hold : ∀ p i, d.names p = some (.file i) → p ≠ q := by
    rintro p i hi rfl
    rw [hs.free] at hi
    cases hi
  exact ⟨hs.names _ (hold _ _ hheld.file) (path_ne_path (by decide)),
    hs.names _ (hold _ _ hheld.metadata) (path_ne_path (by decide))⟩

/-- The links of the part are those it had. -/
theorem Restaged.linked (hheld : InHand sha256 path spec log d h)
    (hr : Restaged h.path (h.spec.path h.directory .staged) (d.seal h.metadata 1) d')
    {inode : Inode} {p : Path} (hl : d'.Linked path spec inode p) : d.Linked path spec inode p := by
  rw [hheld.path_eq, hheld.spec_eq, hheld.directory_eq] at hr
  obtain ⟨hpart, hp, hne, hne'⟩ := hl
  exact ⟨(hr.names _ (path_ne_path (by decide))).symm.trans hpart, (hr.names p hne').symm.trans hp, hne,
    hne'⟩

/-- **The seal that is taken back** was either not needed, or every byte is protected. -/
theorem InHand.whole_of_unstaged (hh : h ∈ D.handle) (hheld : InHand sha256 path spec log D.disk h)
    (hp : h.Publishable D.disk destination expected q)
    (hne : h.file ≠ h.metadata)
    (hwhy : FilePart.StagingFails (sparing D (.publish destination)) h ∨
      expected ≠ sha256 ((D.disk.seal h.metadata 1).slice h.file 0 h.spec.size))
    {inode : Inode} {p : Path} (hl : D.disk.Linked path spec inode p) :
    ∀ p < spec.size, Covered h.protectedRanges p := by
  have hcomplete : ∀ p < spec.size, Covered h.coverage p := by
    intro p hlt
    rw [← hheld.spec_eq] at hlt
    exact FilePart.covered_of_complete hp.complete hlt
  -- the proof of the staged link cannot have failed for the bytes
  have hfails : FilePart.StagingFails (sparing D (.publish destination)) h := by
    refine hwhy.resolve_right fun hwrong ↦ hwrong ?_
    rw [(hheld.verified expected hp.verified).1, hheld.spec_eq, Disk.slice, Disk.slice,
      Disk.seal_contents hne]
  have hspared : h.published = true → ∀ p < spec.size, Covered h.protectedRanges p := by
    intro hpublished
    by_contra hbare
    obtain ⟨d₁, op, kind, d₂, hstages, hanswer⟩ := hfails
    refine hanswer.2 h destination hh rfl hpublished ?_ hstages kind rfl
    rw [hheld.spec_eq]
    simpa only [not_forall, exists_prop] using hbare
  rcases hheld.shut inode p hl with h₁ | ⟨-, h₁ | h₁⟩ | h₁
  · rw [hp.healthy] at h₁
    cases h₁
  · exact hspared h₁
  · exact fun p hlt ↦ h₁ p (hcomplete p hlt)
  · exact h₁

/-- The handle on a disk where the part and its sidecar are as they were; what it may write is said
anew. -/
theorem InHand.moved {h' : FilePart} {outcome : Upshot} (hheld : InHand sha256 path spec log D.disk h)
    (hcontents : d'.contents h.file = D.disk.contents h.file)
    (hpart : d'.names (spec.path path .part) = D.disk.names (spec.path path .part))
    (hsidecar : d'.names (spec.path path .sidecar) = D.disk.names (spec.path path .sidecar))
    (hh' : h' = { h with
      poisoned := h'.poisoned, isSealed := h'.isSealed, published := h'.published
      verified := h'.verified })
    (hverified : h'.verified = h.verified ∨ h'.verified = none)
    (hquiet : Act.Quiet (act, outcome)) (hrecovered : recovered ((act, outcome) :: log) = recovered log)
    (hshut : ∀ inode q, d'.Linked path spec inode q → h'.poisoned = true ∨
      h'.isSealed = true ∧ (h'.published = true ∨
        ∀ p, Covered h.coverage p → Covered h.protectedRanges p) ∨
      ∀ p < spec.size, Covered h.protectedRanges p) :
    InHand sha256 path spec ((act, outcome) :: log) d' h' := by
  rw [hh'] at hshut ⊢
  refine ⟨hheld.directory_eq, hheld.path_eq, hheld.spec_eq, hpart.trans hheld.file,
    hsidecar.trans hheld.metadata, ?_, hheld.separated, hshut, fun digest hd ↦ ?_, ?_⟩
  · rw [← hheld.length]
    exact congrArg List.length hcontents
  · rcases hverified with h₁ | h₁
    · have hd : digest ∈ h.verified := h₁ ▸ hd
      refine ⟨?_, (hheld.verified digest hd).2.cons hquiet⟩
      rw [(hheld.verified digest hd).1, Disk.slice, Disk.slice]
      exact congrArg (fun bytes : List UInt8 ↦ sha256 ((bytes.drop 0).take spec.size)) hcontents.symm
    · have hd : digest ∈ h'.verified := hd
      rw [h₁] at hd
      cases hd
  · rw [hrecovered]
    exact hheld.guarded

theorem publish_fine (hs : Intact sha256 path spec log D) (hh : h ∈ D.handle) :
    Ensures (sparing D (.publish destination))
      (fun d' ↦ Kept path spec d' ∧ Lawful path spec log D (.publish destination) d')
      (Fine sha256 path spec log D (.publish destination)) D.disk
      (calling (FilePart.publish sha256 destination) h) := by
  have hheld := hs.2 h hh
  have hne := hs.1.ne_sidecar hheld.file hheld.metadata
  have hpath : h.path ≠ h.spec.path h.directory .staged := by
    rw [hheld.path_eq, hheld.spec_eq, hheld.directory_eq]
    exact path_ne_path (by decide)
  have hname : D.disk.names h.path = some (.file h.file) := by
    rw [hheld.path_eq]
    exact hheld.file
  have hrestaged : ∀ d', Restaged h.path (h.spec.path h.directory .staged)
      (D.disk.seal h.metadata 1) d' →
      Kept path spec d' ∧ Lawful path spec log D (.publish destination) d' := by
    intro d' hr
    obtain ⟨hk, hl, -⟩ := restaged_lawful (.publish destination) hs hh hr
    exact ⟨hk, hl⟩
  refine calling_ensures (FilePart.publish_does onDisk_sparing hname hpath ⟨hs.1, .refl⟩
    (fun _ _ written _ ↦ seal_lawful _ hs hh written) (fun _ _ d' _ ↦ hrestaged d')
    fun _ _ d' hp hexp ↦ ⟨(exposed_lawful hs hh hp hexp).1, (exposed_lawful hs hh hp hexp).2.1⟩) ?_ ?_
  · rintro q h' d' ⟨⟨expected, hp, -⟩, hexp, rfl⟩
    obtain ⟨hk, hl, hcontents⟩ := exposed_lawful hs hh hp hexp
    obtain ⟨hpart, hsidecar⟩ := hheld.names_exposed hexp
    refine ⟨hk, hl, ?_, nofun⟩
    rintro _ ⟨⟩
    exact hheld.moved hcontents hpart hsidecar rfl (Or.inl rfl) trivial rfl
      fun _ _ _ ↦ Or.inr (Or.inl ⟨rfl, Or.inl rfl⟩)
  · intro e h' d' hfailed
    cases hfailed with
    | refused =>
      refine fine_of_same hs.1 ?_ nofun
      rintro _ ⟨⟩
      exact hheld.quiet _ _ trivial rfl
    | resized =>
      refine fine_of_same hs.1 ?_ nofun
      rintro _ ⟨⟩
      exact hheld.moved rfl rfl rfl rfl (Or.inr rfl) trivial rfl fun inode q hl ↦ hheld.shut inode q hl
    | unsealed written hp =>
      obtain ⟨hk, hl⟩ := seal_lawful (.publish destination) hs hh written
      refine ⟨hk, hl, ?_, nofun⟩
      rintro _ ⟨⟩
      exact hheld.moved (Disk.seal_contents hne) rfl rfl rfl (Or.inl rfl) trivial rfl
        fun _ _ _ ↦ Or.inl rfl
    | unstaged hp hr hwhy hpart =>
      obtain ⟨hk, hl, hcontents⟩ := restaged_lawful (.publish destination) hs hh hr
      obtain ⟨hnpart, hnsidecar⟩ := hheld.names_restaged hr
      refine ⟨hk, hl, ?_, nofun⟩
      rintro _ ⟨⟩
      have hshut := fun inode p (hlinked : d'.Linked path spec inode p) ↦
        hheld.whole_of_unstaged hh hp hne hwhy (Restaged.linked hheld hr hlinked)
      rcases hpart with rfl | rfl
      · exact hheld.moved hcontents hnpart hnsidecar rfl (Or.inl rfl) trivial rfl
          fun inode p hlinked ↦ Or.inr (Or.inr (hshut inode p hlinked))
      · exact hheld.moved hcontents hnpart hnsidecar rfl (Or.inr rfl) trivial rfl
          fun inode p hlinked ↦ Or.inr (Or.inr (hshut inode p hlinked))
    | unexposed hp hr =>
      obtain ⟨hk, hl, hcontents⟩ := restaged_lawful (.publish destination) hs hh hr
      obtain ⟨hnpart, hnsidecar⟩ := hheld.names_restaged hr
      refine ⟨hk, hl, ?_, nofun⟩
      rintro _ ⟨⟩
      refine hheld.moved hcontents hnpart hnsidecar rfl (Or.inl rfl) trivial rfl fun inode p hlinked ↦ ?_
      rcases hheld.shut inode p (Restaged.linked hheld hr hlinked) with h₁ | ⟨-, h₁⟩ | h₁
      · rw [hp.healthy] at h₁
        cases h₁
      · exact Or.inr (Or.inl ⟨rfl, h₁⟩)
      · exact Or.inr (Or.inr h₁)
    | unsettled hp hexp =>
      obtain ⟨hk, hl, hcontents⟩ := exposed_lawful hs hh hp hexp
      obtain ⟨hpart, hsidecar⟩ := hheld.names_exposed hexp
      refine ⟨hk, hl, ?_, nofun⟩
      rintro _ ⟨⟩
      exact hheld.moved hcontents hpart hsidecar rfl (Or.inl rfl) trivial rfl fun _ _ _ ↦ Or.inl rfl

end Publish

/-! ### Histories -/

/-- **Every act is fine**, wherever it stops. -/
theorem act_fine {p : Prog Syscall Reply (Except StorageError Unit × Option FilePart)}
    (hs : Intact sha256 path spec log D) (hp : act.program sha256 path spec D.handle = some p) :
    Ensures (sparing D act) (fun d' ↦ Kept path spec d' ∧ Lawful path spec log D act d')
      (Fine sha256 path spec log D act) D.disk p := by
  rcases hh : D.handle with - | h
  · rw [hh] at hp
    cases act <;> cases hp
    · exact create_fine hs hh
    · exact reopen_fine hs
  · rw [hh] at hp
    cases act <;> cases hp
    · exact write_fine hs hh
    · exact sync_fine hs hh
    · exact hashRange_fine hs hh
    · exact recoverExtent_fine hs hh
    · exact verify_fine hs hh
    · exact publish_fine hs hh
    · exact abandon_fine hs hh
    · exact fine_of_same hs.1 nofun nofun

theorem Step.fine {outcome : Upshot} {D' : Desk} (hs : Intact sha256 path spec log D)
    (hstep : Step sha256 path spec sparing D act outcome D') :
    Intact sha256 path spec ((act, outcome) :: log) D' ∧ Respects path spec log D act outcome D' := by
  cases hstep with
  | done hp hreturns =>
    have hfine := (act_fine hs hp).returns hreturns
    exact ⟨⟨hfine.kept, hfine.held⟩, hfine.lawful, fun inode q hl offset bytes hact hne heq ↦
      hfine.refused inode q hl offset bytes hact hne (Option.some.inj heq)⟩
  | crashed hp hreaches =>
    obtain ⟨⟨hk, hl⟩, -⟩ := (act_fine hs hp).reaches hreaches ⟨hs.1, .refl⟩
    exact ⟨⟨hk, nofun⟩, hl, nofun⟩

theorem Run.sound (hfree : ∀ name, d.names (spec.path path name) = none)
    (hrun : Run sha256 path spec sparing d log D) : Intact sha256 path spec log D := by
  induction hrun with
  | start =>
    refine ⟨⟨fun q m hm ↦ ?_, fun node hnode ↦ ?_, fun inode q hl ↦ ?_⟩, nofun⟩
    · rw [hfree] at hm
      cases hm
    · rw [hfree] at hnode
      cases hnode
    · have := hl.1
      rw [hfree] at this
      cases this
  | step _ hstep ih => exact (hstep.fine ih).1

end Proofs

/-! ### A part of two bytes -/

namespace Sample

/-- Stands in for the digest: the first bytes. -/
def checksum (bytes : List UInt8) : Digest := Vector.ofFn fun k ↦ bytes.getD k.val 0

def part : PartSpec := ⟨⟨1, Nat.one_ne_zero⟩, .initial, 2, two_le_i64Max⟩

/-- Two directories, and no file. -/
def emptyDisk : Disk where
  names p := if p = ["parts"] ∨ p = ["out"] then some .directory else none
  contents _ := []
  fresh := 0
  lt_fresh := fun h ↦ by
    split at h
    · cases h
    · cases h

/-- Which calls fail. -/
abbrev Plan := Syscall → Option Fault

def steady : Plan := fun _ ↦ none

/-- The disk as planned. -/
def obey (plan : Plan) (d : Disk) (op : Syscall) : Option (Reply op × Disk) := some (d.serve op (plan op))

/-- One act, as planned. -/
def carryOut (D : Desk) (act : Act) (plan : Plan) : Option (Except StorageError Unit × Desk) :=
  match act.program checksum ["parts"] part D.handle with
  | none => none
  | some p => (p.exec (obey plan) D.disk).map fun (r, d') ↦ (r.1, ⟨d', r.2⟩)

/-- Acts, one after another, each on a desk that passes. -/
def carryOutAll (pass : Desk → Bool) : List (Act × Plan) → Log → Desk → Option (Log × Desk)
  | [], log, D => some (log, D)
  | (act, plan) :: acts, log, D =>
    match if pass D then carryOut D act plan else none with
    | none => none
    | some (r, D') => carryOutAll pass acts ((act, some r) :: log) D'

theorem step_of_carryOut {env : Answering} {D D' : Desk} {act : Act} {plan : Plan}
    {r : Except StorageError Unit}
    (henv : ∀ d op x d', d.serve op (plan op) = (x, d') → env D act d op x d')
    (h : carryOut D act plan = some (r, D')) :
    Step checksum ["parts"] part env D act (some r) D' := by
  unfold carryOut at h
  split at h
  · cases h
  next p hp =>
    obtain ⟨⟨⟨r', handle⟩, d'⟩, hexec, heq⟩ := Option.map_eq_some_iff.1 h
    cases heq
    exact .done hp (Returns.of_exec (fun d op x d' hx ↦ henv d op x d' (Option.some.inj hx)) hexec)

theorem run_of_carryOutAll {env : Answering} {pass : Desk → Bool} {d : Disk}
    {acts : List (Act × Plan)} {log log' : Log} {D D' : Desk}
    (henv : ∀ D, pass D = true → ∀ e ∈ acts, ∀ d op x d', d.serve op (e.2 op) = (x, d') →
      env D e.1 d op x d')
    (hrun : Run checksum ["parts"] part env d log D)
    (h : carryOutAll pass acts log D = some (log', D')) : Run checksum ["parts"] part env d log' D' := by
  induction acts generalizing log D with
  | nil =>
    cases h
    exact hrun
  | cons e acts ih =>
    unfold carryOutAll at h
    split at h
    · cases h
    next r D₁ hone =>
      split at hone
      next hpass =>
        refine ih (fun D hD e' he' ↦ henv D hD e' (List.mem_cons_of_mem _ he')) (hrun.step ?_) h
        exact step_of_carryOut (henv D hpass e List.mem_cons_self) hone
      · cases hone

def bytes : ByteRange := ⟨0, 2, Nat.two_pos, two_le_i64Max⟩

/-- A part written, verified and published. -/
def published : List (Act × Plan) :=
  [(.create, steady), (.write 0 [7, 8], steady), (.sync, steady),
    (.verify none [(bytes, checksum [7, 8])], steady), (.publish ["out", "a"], steady)]

end Sample

end Fhd
