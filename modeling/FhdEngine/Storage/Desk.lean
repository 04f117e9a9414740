import FhdEngine.Storage.PartMethods

/-!
# The owner of a part

One owner works on one part: it opens a handle, calls its methods one after another, lets it go, or
crashes in the middle of any call and starts over. `Run` is any such history over a disk that may fail at
every call.

What a published file rests on is a fact about names: the sidecar has one name, the staged link names
the part, and as soon as any further name stands for the part, the sidecar says that it is sealed
(`Kept`). The handle in turn must not be able to write once that is so (`InHand.shut`): it is poisoned, or
it is sealed in memory and has published or protects whatever it covers, or it protects every byte.
-/

namespace Fhd

open Process (Prog Environment Ensures Returns Reaches Does Post)
open FilePart (Restaged Shown)

/-- What the owner of a part does. -/
inductive Act
  | create
  | reopen
  | write (offset : ℕ) (bytes : List UInt8)
  | sync
  | hashRange (range : ByteRange)
  | recoverExtent (range : ByteRange) (digest : Digest)
  | verify (expected : Option Digest) (record : List (ByteRange × Digest))
  | publish (destination : Path)
  | abandon
  | close

/-- How an act ended; `none` when the engine crashed in it. -/
abbrev Upshot := Option (Except StorageError Unit)

/-- A disk, and the handle if there is one. -/
structure Desk where
  disk : Disk
  handle : Option FilePart

section Acts

variable (sha256 : List UInt8 → Digest) (path : Path) (spec : PartSpec)

def opening (create : Bool) : Prog Syscall Reply (Except StorageError Unit × Option FilePart) := do
  let (r, _) ← (openInner path spec create : StorageM Unit FilePart) ()
  match r with
  | .ok h => pure (.ok (), some h)
  | .error e => pure (.error e, none)

def calling {α : Type} (method : PartM α) (h : FilePart) :
    Prog Syscall Reply (Except StorageError Unit × Option FilePart) := do
  let (r, h') ← method h
  pure (r.map fun _ ↦ (), some h')

/-- What an act runs; there is one handle at a time. -/
def Act.program : Act → Option FilePart →
    Option (Prog Syscall Reply (Except StorageError Unit × Option FilePart))
  | .create, none => some (opening path spec true)
  | .reopen, none => some (opening path spec false)
  | .write offset bytes, some h => some (calling (FilePart.writeAt offset bytes) h)
  | .sync, some h => some (calling FilePart.sync h)
  | .hashRange range, some h => some (calling (FilePart.hashRange sha256 range) h)
  | .recoverExtent range digest, some h => some (calling (FilePart.recoverExtent sha256 range digest) h)
  | .verify expected record, some h => some (calling (FilePart.verify sha256 expected record) h)
  | .publish destination, some h => some (calling (FilePart.publish sha256 destination) h)
  | .abandon, some h => some (calling FilePart.abandon h)
  | .close, some _ => some (pure (.ok (), none))
  | _, _ => none

/-- How the disk answers may depend on what it is asked for. -/
abbrev Answering := Desk → Act → Environment Disk Syscall Reply

/-- One act, to its end or to a crash. -/
inductive Step (env : Answering) (D : Desk) (act : Act) : Upshot → Desk → Prop
  | done {p : Prog Syscall Reply (Except StorageError Unit × Option FilePart)}
      {r : Except StorageError Unit} {handle : Option FilePart} {d' : Disk}
      (hp : act.program sha256 path spec D.handle = some p)
      (hreturns : Returns (env D act) D.disk p (r, handle) d') :
      Step env D act (some r) ⟨d', handle⟩
  | crashed {p p' : Prog Syscall Reply (Except StorageError Unit × Option FilePart)} {d' : Disk}
      (hp : act.program sha256 path spec D.handle = some p)
      (hreaches : Reaches (env D act) D.disk p d' p') : Step env D act none ⟨d', none⟩

/-- Acts and how they ended, the last one first. -/
abbrev Log := List (Act × Upshot)

/-- Any history of acts. -/
inductive Run (env : Answering) (d : Disk) : Log → Desk → Prop
  | start : Run env d [] ⟨d, none⟩
  | step {log : Log} {D D' : Desk} {act : Act} {outcome : Upshot} (hrun : Run env d log D)
      (hstep : Step sha256 path spec env D act outcome D') : Run env d ((act, outcome) :: log) D'

end Acts

/-! ### What an act leaves -/

section Rules

variable {sha256 : List UInt8 → Digest} {path : Path} {spec : PartSpec} {d : Disk} {h : FilePart}
  {α : Type} {I : Disk → Prop}

theorem calling_ensures {E : Environment Disk Syscall Reply} {method : PartM α}
    {Q : α → FilePart → Disk → Prop} {X : StorageError → FilePart → Disk → Prop}
    {R : Except StorageError Unit × Option FilePart → Disk → Prop} (hm : Does E I h d method Q X)
    (hok : ∀ a h' d', Q a h' d' → R (.ok (), some h') d')
    (herror : ∀ e h' d', X e h' d' → R (.error e, some h') d') :
    Ensures E I R d (calling method h) := by
  refine Ensures.bind hm fun r d' hr ↦ ?_
  obtain ⟨r, h'⟩ := r
  cases r with
  | ok a => exact hok a h' d' hr
  | error e => exact herror e h' d' hr

theorem opening_ensures {E : Environment Disk Syscall Reply} {create : Bool}
    {Q : FilePart → Disk → Prop} {X : Disk → Prop}
    {R : Except StorageError Unit × Option FilePart → Disk → Prop}
    (hm : Does E I () d (openInner path spec create) (fun h _ d' ↦ Q h d') (fun _ _ d' ↦ X d'))
    (hok : ∀ h d', Q h d' → R (.ok (), some h) d') (herror : ∀ e d', X d' → R (.error e, none) d') :
    Ensures E I R d (opening path spec create) := by
  refine Ensures.bind hm fun r d' hr ↦ ?_
  obtain ⟨r, t⟩ := r
  cases r with
  | ok h => exact hok h d' hr
  | error e => exact herror e d' hr

end Rules

/-! ### What histories tell -/

/-- The act left the handle and the bytes of the part alone. -/
def Act.Quiet : Act × Upshot → Prop
  | (.create, _) | (.reopen, _) | (.close, _) | (_, none) => False
  | (.write _ bytes, some r) => bytes = [] ∨ r = .error .invalidState ∨ r = .error .bounds
  | _ => True

/-- The last verification succeeded, and nothing was written since. -/
def VerifiedIn (log : Log) : Prop :=
  ∃ since before expected record, log = since ++ (.verify expected record, some (.ok ())) :: before ∧
    ∀ entry ∈ since, Act.Quiet entry

/-- The extents the present handle has accepted. -/
def recovered : Log → List ByteRange
  | [] => []
  | (.create, _) :: _ | (.reopen, _) :: _ | (.close, _) :: _ | (_, none) :: _ => []
  | (.recoverExtent range _, some (.ok ())) :: log => range :: recovered log
  | (_, _) :: log => recovered log

/-- The part's file has a name besides its own and its staged one. -/
def Disk.Linked (d : Disk) (path : Path) (spec : PartSpec) (inode : Inode) (q : Path) : Prop :=
  d.names (spec.path path .part) = some (.file inode) ∧ d.names q = some (.file inode) ∧
    q ≠ spec.path path .part ∧ q ≠ spec.path path .staged

/-! ### What a disk keeps -/

/-- **The names of a part.** -/
structure Kept (path : Path) (spec : PartSpec) (d : Disk) : Prop where
  sidecar : ∀ q m, d.names (spec.path path .sidecar) = some (.file m) →
    d.names q = some (.file m) → q = spec.path path .sidecar
  staged : ∀ node, d.names (spec.path path .staged) = some node →
    d.names (spec.path path .part) = some node
  isSealed : ∀ inode q, d.Linked path spec inode q → ∃ m,
    d.names (spec.path path .sidecar) = some (.file m) ∧ (d.contents m).getD 33 0 = 1

/-- **What an act may do to a disk.** -/
structure Lawful (path : Path) (spec : PartSpec) (log : Log) (D : Desk) (act : Act) (d' : Disk) :
    Prop where
  /-- Published bytes stay as they are, and published. -/
  published : ∀ inode q, D.disk.Linked path spec inode q →
    d'.contents inode = D.disk.contents inode ∧ d'.Linked path spec inode q
  /-- A destination appears only when everything was verified and nothing was written since. -/
  proven : ∀ inode q, d'.Linked path spec inode q → ¬D.disk.Linked path spec inode q →
    ∃ destination h, act = .publish destination ∧ D.handle = some h ∧ h.verified.isSome = true ∧
      h.complete = true ∧ h.synchronized = true ∧ VerifiedIn log
  /-- Accepted extents stay as they are. -/
  recovered : ∀ h, D.handle = some h → ∀ range ∈ recovered log,
    d'.slice h.file range.start range.len = D.disk.slice h.file range.start range.len

/-- **What is asked of every act**, in addition: nothing is written to a published file. -/
structure Respects (path : Path) (spec : PartSpec) (log : Log) (D : Desk) (act : Act)
    (outcome : Upshot) (D' : Desk) : Prop where
  lawful : Lawful path spec log D act D'.disk
  refused : ∀ inode q, D.disk.Linked path spec inode q → ∀ offset bytes, act = .write offset bytes →
    bytes ≠ [] → outcome ≠ some (.ok ())

section Names

variable {path : Path} {spec : PartSpec} {log : Log} {D : Desk} {act : Act} {d d' : Disk}

theorem Lawful.refl : Lawful path spec log D act D.disk :=
  ⟨fun _ _ h ↦ ⟨rfl, h⟩, fun _ _ h hn ↦ absurd h hn, fun _ _ _ _ ↦ rfl⟩

/-- **No new names of files**, and the sidecar as sealed as it was. -/
theorem Kept.of_names (hk : Kept path spec d)
    (hpart : d'.names (spec.path path .part) = d.names (spec.path path .part))
    (hsidecar : d'.names (spec.path path .sidecar) = d.names (spec.path path .sidecar))
    (hstaged : d'.names (spec.path path .staged) = d.names (spec.path path .staged))
    (hnames : ∀ q i, d'.names q = some (.file i) → d.names q = some (.file i))
    (hseal : ∀ m, d.names (spec.path path .sidecar) = some (.file m) →
      (d.contents m).getD 33 0 = 1 → (d'.contents m).getD 33 0 = 1) : Kept path spec d' := by
  refine ⟨fun q m hm hq ↦ hk.sidecar q m (hsidecar ▸ hm) (hnames q m hq),
    fun node hnode ↦ ?_, fun inode q hlinked ↦ ?_⟩
  · rw [hpart]
    exact hk.staged node (hstaged ▸ hnode)
  · obtain ⟨hi, hq, hne, hne'⟩ := hlinked
    obtain ⟨m, hm, hsealed⟩ := hk.isSealed inode q ⟨hpart ▸ hi, hnames q inode hq, hne, hne'⟩
    exact ⟨m, hsidecar ▸ hm, hseal m hm hsealed⟩

/-- The sidecar is another file than the part. -/
theorem Kept.ne_sidecar (hk : Kept path spec d) {i m : Inode}
    (hpart : d.names (spec.path path .part) = some (.file i))
    (hsidecar : d.names (spec.path path .sidecar) = some (.file m)) : i ≠ m := by
  rintro rfl
  exact path_ne_path (by decide) (hk.sidecar _ i hsidecar hpart)

theorem Disk.seal_getD {m : Inode} {written : ℕ} (h : (d.contents m).getD 33 0 = 1 ∨ 1 ≤ written) :
    ((d.seal m written).contents m).getD 33 0 = 1 := by
  rw [Disk.seal, Disk.put_contents_self]
  cases written with
  | zero =>
    rcases h with h | h
    · rwa [List.take_zero, overwrite_nil]
    · omega
  | succ n =>
    rw [List.take_succ_cons, List.take_nil]
    exact getD_seal

theorem Disk.seal_contents {m i : Inode} {written : ℕ} (h : i ≠ m) :
    (d.seal m written).contents i = d.contents i := Disk.put_contents_of_ne h

/-- The seal is written to the sidecar only. -/
theorem Kept.seal (hk : Kept path spec d) {m : Inode} (written : ℕ) : Kept path spec (d.seal m written) := by
  refine hk.of_names rfl rfl rfl (fun _ _ h ↦ h) fun m' _ hsealed ↦ ?_
  by_cases hm : m' = m
  · subst hm
    exact Disk.seal_getD (Or.inl hsealed)
  · rwa [Disk.seal_contents hm]

/-- Bytes of the part itself. -/
theorem Kept.put (hk : Kept path spec d) {i : Inode} (hpart : d.names (spec.path path .part) = some (.file i))
    (bytes : List UInt8) : Kept path spec (d.put i bytes) := by
  refine hk.of_names rfl rfl rfl (fun _ _ h ↦ h) fun m hm hsealed ↦ ?_
  rwa [Disk.put_contents_of_ne (hk.ne_sidecar hpart hm).symm]

theorem Kept.restaged (hk : Kept path spec d)
    (hr : Restaged (spec.path path .part) (spec.path path .staged) d d') : Kept path spec d' := by
  have hpart := hr.names (spec.path path .part) (path_ne_path (by decide))
  have hsidecar := hr.names (spec.path path .sidecar) (path_ne_path (by decide))
  refine ⟨fun q m hm hq ↦ ?_, fun node hnode ↦ ?_, fun inode q hlinked ↦ ?_⟩
  · by_cases hstaged : q = spec.path path .staged
    · subst hstaged
      rw [hsidecar] at hm
      have hnamed : d.names (spec.path path .part) = some (.file m) := by
        rcases hr.staged with h | h | h
        · rw [h] at hq
          cases hq
        · exact hk.staged _ (h ▸ hq)
        · exact h ▸ hq
      exact absurd rfl (hk.ne_sidecar hnamed hm)
    · exact hk.sidecar q m (hsidecar ▸ hm) (hr.names q hstaged ▸ hq)
  · rw [hpart]
    rcases hr.staged with h | h | h
    · rw [h] at hnode
      cases hnode
    · exact hk.staged node (h ▸ hnode)
    · exact h ▸ hnode
  · obtain ⟨hi, hq, hne, hne'⟩ := hlinked
    obtain ⟨m, hm, hsealed⟩ := hk.isSealed inode q ⟨hpart ▸ hi, hr.names q hne' ▸ hq, hne, hne'⟩
    exact ⟨m, hsidecar ▸ hm, by rwa [hr.contents]⟩

/-- **A new name for the part** comes with the seal. -/
theorem Kept.shown (hk : Kept path spec d) {q₀ : Path} {i m : Inode}
    (hpart : d.names (spec.path path .part) = some (.file i))
    (hsidecar : d.names (spec.path path .sidecar) = some (.file m))
    (hs : Shown (spec.path path .part) (spec.path path .staged) i m d q₀ d') :
    Kept path spec d' := by
  have hne : ∀ name node, d.names (spec.path path name) = some node → spec.path path name ≠ q₀ := by
    rintro name node hname rfl
    rw [hs.free] at hname
    cases hname
  have hpart' := hs.names _ (hne .part _ hpart) (path_ne_path (by decide))
  have hsidecar' := hs.names _ (hne .sidecar _ hsidecar) (path_ne_path (by decide))
  refine ⟨fun q m' hm hq ↦ ?_, fun node hnode ↦ ?_, fun inode q hlinked ↦ ?_⟩
  · rw [hsidecar', hsidecar] at hm
    obtain rfl := Node.file.inj (Option.some.inj hm)
    have hother := hk.ne_sidecar hpart hsidecar
    by_cases hq₀ : q = q₀
    · rw [hq₀, hs.linked] at hq
      exact absurd (Node.file.inj (Option.some.inj hq)) hother
    by_cases hstaged : q = spec.path path .staged
    · subst hstaged
      have hnamed : d.names (spec.path path .part) = some (.file m) := by
        rcases hs.staged with h | h | h
        · rw [h] at hq
          cases hq
        · exact hk.staged _ (h ▸ hq)
        · exact h ▸ hq
      rw [hpart] at hnamed
      exact absurd (Node.file.inj (Option.some.inj hnamed)) hother
    · exact hk.sidecar q m hsidecar (hs.names q hq₀ hstaged ▸ hq)
  · rw [hpart']
    rcases hs.staged with h | h | h
    · rw [h] at hnode
      cases hnode
    · exact hk.staged node (h ▸ hnode)
    · exact h ▸ hnode
  · refine ⟨m, hsidecar' ▸ hsidecar, ?_⟩
    rw [hs.contents]
    exact Disk.seal_getD (Or.inr le_rfl)

/-! ### Disks along a creation -/

theorem Rooted.kept (hroot : Rooted path d d') (hk : Kept path spec d) : Kept path spec d' :=
  hk.of_names (hroot.names (ne_path _)) (hroot.names (ne_path _)) (hroot.names (ne_path _))
    (fun _ _ ↦ hroot.of_file) fun m _ h ↦ by rwa [hroot.contents]

/-- **A creation under way**: the part is a new file, and nothing else names it. -/
structure Underway (path : Path) (spec : PartSpec) (d d' : Disk) : Prop where
  free : d.names (spec.path path .part) = none
  part : d'.names (spec.path path .part) = some (.file d.fresh)
  sidecar : d'.names (spec.path path .sidecar) = d.names (spec.path path .sidecar) ∨
    d'.names (spec.path path .sidecar) = some (.file (d.fresh + 1))
  staged : d'.names (spec.path path .staged) = d.names (spec.path path .staged)
  names : ∀ q i, q ≠ spec.path path .part → q ≠ spec.path path .sidecar →
    d'.names q = some (.file i) → d.names q = some (.file i)
  contents : ∀ i < d.fresh, d'.contents i = d.contents i

theorem Creating.cases (hc : Creating path spec d d') : Rooted path d d' ∨ Underway path spec d d' := by
  have hnames : ∀ (d₁ d' : Disk), Rooted path d d₁ →
      (∀ q, q ≠ spec.path path .part → q ≠ spec.path path .sidecar → d'.names q = d₁.names q) →
      d'.names (spec.path path .staged) = d.names (spec.path path .staged) ∧
      ∀ q i, q ≠ spec.path path .part → q ≠ spec.path path .sidecar →
        d'.names q = some (.file i) → d.names q = some (.file i) := fun _ _ hroot hsame ↦
    ⟨(hsame _ (path_ne_path (by decide)) (path_ne_path (by decide))).trans (hroot.names (ne_path _)),
      fun q i hp hm hq ↦ hroot.of_file (hsame q hp hm ▸ hq)⟩
  have hsp : spec.path path .sidecar ≠ spec.path path .part := path_ne_path (by decide)
  cases hc with
  | rooted hroot => exact Or.inl hroot
  | @part d₁ hroot hpart =>
    obtain ⟨hstaged, hfiles⟩ := hnames d₁ (d₁.create (spec.path path .part)) hroot
      fun q hp _ ↦ Disk.create_names_of_ne hp
    refine Or.inr ⟨?_, ?_, Or.inl ?_, hstaged, hfiles, fun i hi ↦ ?_⟩
    · rw [← hroot.names (ne_path _), hpart]
    · rw [Disk.create_names_self, hroot.fresh]
    · rw [Disk.create_names_of_ne hsp, hroot.names (ne_path _)]
    · rw [Disk.create_contents_of_ne (Nat.ne_of_lt (hroot.fresh ▸ hi)), hroot.contents]
  | @sidecar d₁ hroot hpart hsidecar =>
    obtain ⟨hstaged, hfiles⟩ := hnames d₁ ((d₁.create (spec.path path .part)).create
      (spec.path path .sidecar)) hroot fun q hp hm ↦ by
        rw [Disk.create_names_of_ne hm, Disk.create_names_of_ne hp]
    refine Or.inr ⟨?_, ?_, Or.inr ?_, hstaged, hfiles, fun i hi ↦ ?_⟩
    · rw [← hroot.names (ne_path _), hpart]
    · rw [Disk.create_names_of_ne hsp.symm, Disk.create_names_self, hroot.fresh]
    · rw [Disk.create_names_self, ← hroot.fresh]
      rfl
    · have hlt : i < d₁.fresh := by rwa [hroot.fresh]
      rw [Disk.create_contents_of_ne (Nat.ne_of_lt (Nat.lt_succ_of_lt hlt)),
        Disk.create_contents_of_ne (Nat.ne_of_lt hlt), hroot.contents]
  | @stamped d₁ written hroot hpart hsidecar =>
    obtain ⟨hstaged, hfiles⟩ := hnames d₁ ((d₁.create (spec.path path .part)).create
      (spec.path path .sidecar)) hroot fun q hp hm ↦ by
        rw [Disk.create_names_of_ne hm, Disk.create_names_of_ne hp]
    refine Or.inr ⟨?_, ?_, Or.inr ?_, hstaged, hfiles, fun i hi ↦ ?_⟩
    · rw [← hroot.names (ne_path _), hpart]
    · show ((d₁.create (spec.path path .part)).create (spec.path path .sidecar)).names
        (spec.path path .part) = some (.file d.fresh)
      rw [Disk.create_names_of_ne hsp.symm, Disk.create_names_self, hroot.fresh]
    · show ((d₁.create (spec.path path .part)).create (spec.path path .sidecar)).names
        (spec.path path .sidecar) = some (.file (d.fresh + 1))
      rw [Disk.create_names_self, ← hroot.fresh]
      rfl
    · have hlt : i < d₁.fresh := by rwa [hroot.fresh]
      rw [Disk.put_contents_of_ne (Nat.ne_of_lt (Nat.lt_succ_of_lt hlt)),
        Disk.put_contents_of_ne (Nat.ne_of_lt hlt),
        Disk.create_contents_of_ne (Nat.ne_of_lt (Nat.lt_succ_of_lt hlt)),
        Disk.create_contents_of_ne (Nat.ne_of_lt hlt), hroot.contents]

/-- Nothing but its own name stands for the new part. -/
theorem Underway.not_linked (hu : Underway path spec d d') (inode : Inode) (q : Path) :
    ¬d'.Linked path spec inode q := by
  rintro ⟨hpart, hq, hne, hne'⟩
  rw [hu.part] at hpart
  obtain rfl := Node.file.inj (Option.some.inj hpart)
  by_cases hsidecar : q = spec.path path .sidecar
  · subst hsidecar
    rcases hu.sidecar with h | h
    · exact absurd (d.lt_fresh (h ▸ hq)) (lt_irrefl _)
    · rw [h] at hq
      exact absurd (Node.file.inj (Option.some.inj hq)) (Nat.succ_ne_self _)
  · exact absurd (d.lt_fresh (hu.names q _ hne hsidecar hq)) (lt_irrefl _)

theorem Underway.kept (hu : Underway path spec d d') (hk : Kept path spec d) : Kept path spec d' := by
  refine ⟨fun q m hm hq ↦ ?_, fun node hnode ↦ ?_, fun inode q hlinked ↦
    absurd hlinked (hu.not_linked inode q)⟩
  · by_contra hne
    have hm' : d.names (spec.path path .sidecar) = some (.file m) ∨ m = d.fresh + 1 := by
      rcases hu.sidecar with h | h
      · exact Or.inl (h ▸ hm)
      · rw [h] at hm
        exact Or.inr (Node.file.inj (Option.some.inj hm)).symm
    by_cases hpart : q = spec.path path .part
    · subst hpart
      rw [hu.part] at hq
      obtain rfl := Node.file.inj (Option.some.inj hq)
      rcases hm' with h | h
      · exact absurd (d.lt_fresh h) (lt_irrefl _)
      · exact absurd h.symm (Nat.succ_ne_self _)
    · have hq' := hu.names q m hpart hne hq
      rcases hm' with h | h
      · exact hne (hk.sidecar q m h hq')
      · rw [h] at hq'
        exact absurd (d.lt_fresh hq') (Nat.not_lt_of_ge (Nat.le_succ _))
  · rw [hu.staged] at hnode
    have := hk.staged node hnode
    rw [hu.free] at this
    cases this

/-- **A creation** keeps what a disk keeps, and cannot touch what is published. -/
theorem Creating.lawful (log : Log) (act : Act) (hc : Creating path spec D.disk d') (hk : Kept path spec D.disk)
    (hnone : D.handle = none) : Kept path spec d' ∧ Lawful path spec log D act d' := by
  have hrecovered : ∀ h, D.handle = some h → ∀ range ∈ recovered log,
      d'.slice h.file range.start range.len = D.disk.slice h.file range.start range.len := by
    intro h hh
    rw [hnone] at hh
    cases hh
  rcases hc.cases with hroot | hu
  · refine ⟨hroot.kept hk, fun inode q hlinked ↦ ?_, fun inode q hlinked hn ↦ ?_, hrecovered⟩
    · obtain ⟨hp, hq, hne, hne'⟩ := hlinked
      have hq' : d'.names q = some (.file inode) := by
        cases hroot with
        | found => exact hq
        | made hpath =>
          refine (Disk.link_names_of_ne ?_).trans hq
          rintro rfl
          rw [hpath] at hq
          cases hq
      exact ⟨by rw [hroot.contents], (hroot.names (ne_path _)).trans hp, hq', hne, hne'⟩
    · obtain ⟨hp, hq, hne, hne'⟩ := hlinked
      exact absurd ⟨hroot.of_file hp, hroot.of_file hq, hne, hne'⟩ hn
  · refine ⟨hu.kept hk, fun inode q hlinked ↦ ?_, fun inode q hlinked ↦
      absurd hlinked (hu.not_linked inode q), hrecovered⟩
    have := hlinked.1
    rw [hu.free] at this
    cases this

end Names

end Fhd
