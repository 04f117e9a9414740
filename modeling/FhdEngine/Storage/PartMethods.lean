import FhdEngine.Storage.PartRules

/-!
# What each method of a part does

One lemma for each method of `FilePart`: what it has checked when it succeeds, and what it has changed,
in its handle and on disk, when it fails. The disk may answer every call as it likes, so each lemma
covers every fault at every call.
-/

namespace Fhd

open Process (Environment Ensures Does Post)

variable {τ : Type} {path destination : Path} {sha256 : List UInt8 → Digest}

/-- The bytes of a file from one position on. -/
def Disk.slice (d : Disk) (file : Inode) (start length : ℕ) : List UInt8 :=
  ((d.contents file).drop start).take length

/-- The disk with the seal in a sidecar, or not yet. -/
def Disk.seal (d : Disk) (metadata : Inode) (written : ℕ) : Disk :=
  d.put metadata (overwrite (d.contents metadata) 33 ([1].take written))

theorem ordinary_looks (dir : Bool) : Looks (τ := τ) (ordinary path dir) fun d _ ↦
    ∃ node, d.names path = some node ∧ Disk.fileType node = if dir then .directory else .file := by
  refine Looks.bind (Looks.sys rfl) fun metadata ↦ Looks.throwIf.mono fun d _ htype h ↦ ?_
  simp only [Disk.answer] at h
  split at h
  next node hnode =>
    cases h
    exact ⟨node, hnode, not_not.1 htype⟩
  · cases h

theorem checkOptional_looks : Looks (τ := τ) (checkOptional path) fun _ _ ↦ True := by
  refine Looks.bind (Looks.attempt rfl) fun x ↦ ?_
  split
  · exact (ordinary_looks false).mono fun _ _ _ _ ↦ trivial
  · exact Looks.pure fun _ _ ↦ trivial
  · exact Looks.throw

theorem resolveDestination_looks : Looks (τ := τ) (resolveDestination destination) fun d q ↦
    q = destination := by
  unfold resolveDestination
  split
  next parent leaf hparent hleaf =>
    refine Looks.bind (Looks.sys rfl) fun folder ↦ ?_
    refine Looks.bind (Looks.ofExcept (φ := fun _ _ ↦ True) fun _ _ _ ↦ trivial) fun _ ↦ ?_
    refine Looks.pure fun d _ hfolder ↦ ?_
    have hdest : destination = parent ++ [leaf] := by
      cases hd : destination with
      | nil => rw [hd] at hleaf; cases hleaf
      | cons a l =>
        rw [hd] at hparent hleaf
        cases hparent
        rw [List.dropLast_append_getLast? leaf hleaf]
    simp only [Disk.answer] at hfolder
    split at hfolder
    · cases hfolder
      exact hdest.symm
    · cases hfolder
  · exact Looks.throw

theorem syncParent_looks : Looks (τ := τ) (syncParent path) fun _ _ ↦ True := by
  unfold syncParent
  split
  · exact Looks.throw
  · exact (Looks.sys rfl).mono fun _ _ _ ↦ trivial

theorem directory_looks : Looks (τ := τ) (directory path false) fun _ r ↦ r = path := by
  refine Looks.bind Looks.throwIf fun _ ↦ ?_
  refine Looks.bind (φ := fun _ created ↦ created = false) (Looks.pure fun _ ↦ rfl) fun created ↦ ?_
  refine Looks.bind (ordinary_looks true) fun _ ↦ ?_
  refine Looks.bind (Looks.sys rfl) fun resolved ↦ ?_
  refine Looks.bind (φ := fun _ _ ↦ True)
    (Looks.ite (fun _ ↦ syncParent_looks) fun _ ↦ Looks.pure fun _ ↦ trivial) fun _ ↦ ?_
  · refine Looks.pure fun d _ hresolved _ _ _ ↦ ?_
    simp only [Disk.answer] at hresolved
    split at hresolved
    · exact (Except.ok.inj hresolved).symm
    · cases hresolved

theorem readExact_eq {d : Disk} {file : Inode} {position length : ℕ} {bytes : List UInt8}
    (h : (d.answer (.readExact file position length)).1 = .ok bytes) :
    position + length ≤ (d.contents file).length ∧ bytes = d.slice file position length := by
  simp only [Disk.answer] at h
  split at h
  next hle => exact ⟨hle, (Except.ok.inj h).symm⟩
  · cases h

theorem hashFile_looks {file : Inode} {start length : ℕ} :
    Looks (τ := τ) (FilePart.hashFile sha256 file start length) fun d digest ↦
      digest = sha256 (d.slice file start length) := by
  refine Looks.bind (Looks.sys rfl) fun _ ↦ ?_
  refine Looks.ite (fun hzero ↦ ?_) fun _ ↦ ?_
  · refine Looks.pure fun d _ ↦ ?_
    rw [hzero, Disk.slice, List.take_zero]
  · refine Looks.bind (Looks.sys rfl) fun bytes ↦ Looks.pure fun d h _ ↦ ?_
    rw [(readExact_eq h).2]

theorem hashStaged_looks {staged : Path} {size : ℕ} :
    Looks (τ := τ) (FilePart.hashStaged sha256 staged size) fun d digest ↦
      ∃ inode, d.names staged = some (.file inode) ∧ digest = sha256 (d.slice inode 0 size) := by
  refine Looks.bind (Looks.sys rfl) fun file ↦ hashFile_looks.mono fun d digest hdigest h ↦ ?_
  simp only [Disk.answer] at h
  split at h
  next inode hinode =>
    cases h
    exact ⟨_, hinode, hdigest⟩
  · cases h
  · cases h

/-- **A sidecar that is accepted** names this part, and says whether it is sealed. -/
theorem readIdentity_looks {file metadata : Inode} {spec : PartSpec} :
    Looks (τ := τ) (readIdentity file metadata spec) fun d isSealed ↦
      (d.contents file).length = spec.size ∧ (d.contents metadata).length = metaLen ∧
        isSealed = decide ((d.contents metadata).getD 33 0 = 1) := by
  refine Looks.bind (Looks.sys rfl) fun sidecar ↦ ?_
  refine Looks.bind Looks.throwIf fun _ ↦ ?_
  refine Looks.bind (Looks.sys rfl) fun part ↦ ?_
  refine Looks.bind Looks.throwIf fun _ ↦ ?_
  refine Looks.bind (Looks.sys rfl) fun data ↦ ?_
  refine Looks.bind Looks.throwIf fun _ ↦ ?_
  refine Looks.pure fun d _ hdata hlen hpart hlen' hsidecar ↦ ?_
  cases hpart
  cases hsidecar
  have hlen' := not_not.1 hlen'
  refine ⟨not_not.1 hlen, hlen', ?_⟩
  rw [(readExact_eq hdata).2, Disk.slice, List.drop_zero, List.take_of_length_le hlen'.le]

/-! ### Opening -/

/-- A handle as it is when a part has just been opened. -/
structure FilePart.Opened (d : Disk) (path : Path) (spec : PartSpec) (create : Bool) (h : FilePart) :
    Prop where
  directory : h.directory = path
  path : h.path = spec.path h.directory .part
  file : d.names h.path = some (.file h.file)
  metadata : d.names (spec.path h.directory .sidecar) = some (.file h.metadata)
  spec : h.spec = spec
  coverage : h.coverage = []
  protectedRanges : h.protectedRanges = []
  synchronized : h.synchronized = create
  verified : h.verified = none
  published : h.published = false
  cancelled : h.cancelled = false
  poisoned : h.poisoned = false

theorem openOptions_eq {d : Disk} {inode : Inode}
    (h : (d.answer (.openOptions path false)).1 = .ok inode) : d.names path = some (.file inode) := by
  simp only [Disk.answer, Bool.false_eq_true, if_false] at h
  split at h
  next hname =>
    cases h
    exact hname
  · cases h
  · cases h

/-- **Reopening** takes a part as it is: its length, and a sidecar that names it. -/
theorem reopen_looks {spec : PartSpec} : Looks (τ := τ) (openInner path spec false) fun d h ↦
    FilePart.Opened d path spec false h ∧ (d.contents h.file).length = spec.size ∧
      (d.contents h.metadata).length = metaLen ∧
      h.isSealed = decide ((d.contents h.metadata).getD 33 0 = 1) := by
  refine Looks.bind directory_looks fun dir ↦ ?_
  refine Looks.bind checkOptional_looks fun _ ↦ ?_
  refine Looks.bind checkOptional_looks fun _ ↦ ?_
  refine Looks.bind (φ := fun d file ↦ d.names (spec.path dir .part) = some (.file file)) ?_
    fun file ↦ ?_
  · refine Looks.bind (Looks.attempt rfl) fun x ↦ ?_
    split
    · exact Looks.pure fun d h ↦ openOptions_eq (h _ rfl)
    · exact Looks.throw
    · exact Looks.throw
  refine Looks.bind (Looks.sys rfl) fun metadata ↦ ?_
  refine Looks.bind readIdentity_looks fun isSealed ↦ ?_
  refine Looks.bind (Looks.sys rfl) fun _ ↦ ?_
  refine Looks.pure fun d _ hidentity hmetadata hfile _ _ hdir ↦ ?_
  obtain ⟨hlength, hlen, hsealed⟩ := hidentity
  exact ⟨⟨hdir, rfl, hfile, openOptions_eq hmetadata, rfl, rfl, rfl, rfl, rfl, rfl, rfl, rfl⟩, hlength,
    hlen, hsealed⟩

/-- The disk with the parts directory, which may have been made just now. -/
inductive Rooted (path : Path) (d : Disk) : Disk → Prop
  | found : Rooted path d d
  | made (hpath : d.names path = none) : Rooted path d (d.link path .directory nofun)

/-- **The disks a creation goes through**: a directory, an empty part, an empty sidecar, the length of
the part, and the sidecar's bytes, of which a failing write may leave any number. -/
inductive Creating (path : Path) (spec : PartSpec) (d : Disk) : Disk → Prop
  | rooted {d₁ : Disk} (hroot : Rooted path d d₁) : Creating path spec d d₁
  | part {d₁ : Disk} (hroot : Rooted path d d₁)
      (hpart : d₁.names (spec.path path .part) = none) :
      Creating path spec d (d₁.create (spec.path path .part))
  | sidecar {d₁ : Disk} (hroot : Rooted path d d₁)
      (hpart : d₁.names (spec.path path .part) = none)
      (hsidecar : d₁.names (spec.path path .sidecar) = none) :
      Creating path spec d ((d₁.create (spec.path path .part)).create
        (spec.path path .sidecar))
  | stamped {d₁ : Disk} (written : ℕ) (hroot : Rooted path d d₁)
      (hpart : d₁.names (spec.path path .part) = none)
      (hsidecar : d₁.names (spec.path path .sidecar) = none) :
      Creating path spec d
        ((((d₁.create (spec.path path .part)).create
          (spec.path path .sidecar)).put d₁.fresh (List.replicate spec.size 0)).put
          (d₁.fresh + 1) ((identity spec false).take written))

theorem openOptions_create_eq {d d' : Disk} {inode : Inode}
    (h : d.answer (.openOptions path true) = (.ok inode, d')) :
    d.names path = none ∧ inode = d.fresh ∧ d' = d.create path := by
  simp only [Disk.answer, if_true] at h
  split at h
  · cases h
  · cases h
  next hname =>
    cases h
    exact ⟨hname, rfl, rfl⟩

theorem path_ne_path {spec : PartSpec} {dir : Path} {a b : PartName} (h : a ≠ b) :
    spec.path dir a ≠ spec.path dir b := by
  intro heq
  have hleaf := List.singleton_inj.1 (List.append_cancel_left heq)
  have hext : a.extension = b.extension := (String.append_right_inj _).1 hleaf
  cases a <;> cases b <;> first | exact h rfl | exact absurd hext (by decide)

theorem ne_path {spec : PartSpec} (name : PartName) : spec.path path name ≠ path := by
  intro h
  have := congrArg List.length h
  rw [PartSpec.path, List.length_append, List.length_singleton] at this
  omega

section Rooted

variable {d d' : Disk}

theorem Rooted.names (hroot : Rooted path d d') {q : Path} (hq : q ≠ path) : d'.names q = d.names q := by
  cases hroot with
  | found => rfl
  | made hpath => exact Disk.link_names_of_ne hq

theorem Rooted.of_file (hroot : Rooted path d d') {q : Path} {i : Inode}
    (hq : d'.names q = some (.file i)) : d.names q = some (.file i) := by
  cases hroot with
  | found => exact hq
  | made hpath =>
    by_cases hqp : q = path
    · subst hqp
      rw [Disk.link_names_self] at hq
      cases hq
    · rwa [Disk.link_names_of_ne hqp] at hq

theorem Rooted.contents (hroot : Rooted path d d') : d'.contents = d.contents := by
  cases hroot <;> rfl

theorem Rooted.fresh (hroot : Rooted path d d') : d'.fresh = d.fresh := by
  cases hroot <;> rfl

end Rooted

/-- Making sure of the directory. -/
theorem directory_does {E : Environment Disk Syscall Reply} {I : Disk → Prop} {d : Disk} {t : τ}
    (hE : OnDisk E) (hI : ∀ d', Rooted path d d' → I d') :
    Does E I t d (directory path true)
      (fun dir t' d' ↦ dir = path ∧ t' = t ∧ Rooted path d d')
      (fun _ t' d' ↦ t' = t ∧ Rooted path d d') := by
  refine Looks.throwIf.does hE (hI d .found) (fun _ _ ↦ ?_) fun _ ↦ ⟨rfl, .found⟩
  have hensure : Does E I t d (ensureDirectory path true)
      (fun _ t' d' ↦ t' = t ∧ Rooted path d d') (fun _ t' d' ↦ t' = t ∧ Rooted path d d') := by
    refine attempt_does fun x d' hx ↦ ?_
    have hroot : Rooted path d d' := by
      cases x with
      | error kind =>
        obtain ⟨written, rfl⟩ := Disk.onDisk_error (hE hx)
        exact .found
      | ok x =>
        have hx := Disk.onDisk_ok.1 (hE hx)
        simp only [Disk.answer] at hx
        split at hx
        · cases hx
        next hfree =>
          split at hx
          · cases hx
            exact .made (by simpa using hfree)
          · cases hx
    refine ⟨hI d' hroot, ?_⟩
    split
    · exact Does.pure ⟨rfl, hroot⟩
    · exact Does.pure ⟨rfl, hroot⟩
    · exact Does.throw ⟨rfl, hroot⟩
  refine hensure.bind ?_
  rintro created t' d' ⟨rfl, hroot⟩
  have hI' := hI d' hroot
  refine (ordinary_looks true).does hE hI' (fun _ _ ↦ ?_) fun _ ↦ ⟨rfl, hroot⟩
  refine (Looks.sys rfl).does hE hI' (fun resolved hresolved ↦ ?_) fun _ ↦ ⟨rfl, hroot⟩
  have hcanonical : resolved = path := by
    simp only [Disk.answer] at hresolved
    split at hresolved
    · exact (Except.ok.inj hresolved).symm
    · cases hresolved
  refine Looks.does (φ := fun _ _ ↦ True)
    (Looks.ite (fun _ ↦ syncParent_looks) fun _ ↦ Looks.pure fun _ ↦ trivial) hE hI' (fun _ _ ↦ ?_)
    fun _ ↦ ⟨rfl, hroot⟩
  exact Does.pure ⟨hcanonical, rfl, hroot⟩

theorem takeD_nil (n : ℕ) : ([] : List UInt8).takeD n 0 = List.replicate n 0 := by
  simp

/-- **Creating a part**: only the first steps of a creation are ever left behind. -/
theorem create_does {spec : PartSpec} {E : Environment Disk Syscall Reply} {d : Disk} {t : τ}
    (hE : OnDisk E) :
    Does E (Creating path spec d) t d (openInner path spec true)
      (fun h t' d' ↦ t' = t ∧ FilePart.Opened d' path spec true h ∧ h.isSealed = false ∧
        d.names (spec.path path .part) = none ∧ Creating path spec d d' ∧
        d'.contents h.file = List.replicate spec.size 0 ∧
        d'.contents h.metadata = identity spec false)
      (fun _ t' d' ↦ t' = t ∧ Creating path spec d d') := by
  refine (directory_does (I := Creating path spec d) hE fun d' hroot ↦ .rooted hroot).mono
    (fun _ _ _ h ↦ h) (fun _ _ _ h ↦ ⟨h.1, .rooted h.2⟩) |>.bind ?_
  rintro dir t' d₁ ⟨hdir, rfl, hroot⟩
  rw [hdir]
  have hI : Creating path spec d d₁ := .rooted hroot
  refine checkOptional_looks.does hE hI (fun _ _ ↦ ?_) fun _ ↦ ⟨rfl, hI⟩
  refine checkOptional_looks.does hE hI (fun _ _ ↦ ?_) fun _ ↦ ⟨rfl, hI⟩
  have hopen : Does E (Creating path spec d) t' d₁ (openPart (spec.path path .part) true)
      (fun file t d' ↦ t = t' ∧ d₁.names (spec.path path .part) = none ∧
        file = d₁.fresh ∧ d' = d₁.create (spec.path path .part))
      (fun _ t d' ↦ t = t' ∧ Creating path spec d d') := by
    refine attempt_does fun x d₂ hx ↦ ?_
    cases x with
    | ok x =>
      obtain ⟨hfree, rfl, rfl⟩ := openOptions_create_eq (Disk.onDisk_ok.1 (hE hx))
      exact ⟨.part hroot hfree, rfl, hfree, rfl, rfl⟩
    | error kind =>
      obtain ⟨written, rfl⟩ := Disk.onDisk_error (hE hx)
      refine ⟨hI, ?_⟩
      split
      next hok => cases hok
      · exact ⟨rfl, hI⟩
      · exact ⟨rfl, hI⟩
  refine hopen.bind ?_
  rintro file t d₂ ⟨rfl, hpart, rfl, rfl⟩
  have hI := Creating.part hroot hpart
  refine sys_does (fun metadata d₃ hx ↦ ?_) fun kind d₃ hx ↦ ?_
  swap
  · obtain ⟨written, rfl⟩ := Disk.onDisk_error (hE hx)
    exact ⟨hI, rfl, hI⟩
  obtain ⟨hsidecar, rfl, rfl⟩ := openOptions_create_eq (Disk.onDisk_ok.1 (hE hx))
  have hne : spec.path path .sidecar ≠ spec.path path .part := path_ne_path (by decide)
  have hfree : d₁.names (spec.path path .sidecar) = none := by
    rw [← hsidecar]
    exact (Function.update_of_ne hne _ _).symm
  have hI := Creating.sidecar hroot hpart hfree
  refine ⟨hI, ?_⟩
  -- the part gets its length
  have hempty : (((d₁.create (spec.path path .part)).create
      (spec.path path .sidecar)).contents d₁.fresh).takeD spec.size 0 =
      List.replicate spec.size 0 := by
    rw [Disk.create, Disk.create]
    simp [Function.update_of_ne (Nat.ne_of_lt (Nat.lt_succ_self d₁.fresh))]
  have hstamped := fun written ↦ Creating.stamped written hroot hpart hfree
  generalize hd₃ : (d₁.create (spec.path path .part)).create
    (spec.path path .sidecar) = d₃ at hI hempty hstamped ⊢
  generalize hd₄ : d₃.put d₁.fresh (List.replicate spec.size 0) = d₄ at hstamped
  have hblank : d₄.contents (d₁.fresh + 1) = [] := by
    rw [← hd₄, ← hd₃]
    simp [Disk.put, Disk.create]
  have hI₄ : Creating path spec d d₄ := by
    have h0 := hstamped 0
    rwa [List.take_zero, ← hblank, Disk.put_contents] at h0
  have hinit : Does E (Creating path spec d) t d₃
      (initialise d₁.fresh (d₁.fresh + 1) path spec)
      (fun isSealed t' d' ↦ t' = t ∧ isSealed = false ∧
        d' = d₄.put (d₁.fresh + 1) (identity spec false))
      (fun _ t' d' ↦ t' = t ∧ Creating path spec d d') := by
    refine sys_does (fun x d' hx ↦ ?_) fun kind d' hx ↦ ?_
    swap
    · obtain ⟨written, rfl⟩ := Disk.onDisk_error (hE hx)
      exact ⟨hI, rfl, hI⟩
    have hd' := Disk.onDisk_ok.1 (hE hx)
    simp only [Disk.answer, hempty, hd₄, Prod.mk.injEq] at hd'
    obtain ⟨-, rfl⟩ := hd'
    refine ⟨hI₄, (Looks.sys rfl).does hE hI₄ (fun _ _ ↦ ?_) fun _ ↦ ⟨rfl, hI₄⟩⟩
    have hwrite : ∀ written, overwrite (d₄.contents (d₁.fresh + 1)) 0
        ((identity spec false).take written) = (identity spec false).take written := by
      intro written
      rw [hblank]
      cases (identity spec false).take written <;> simp [overwrite]
    refine sys_does (fun x d' hx ↦ ?_) fun kind d' hx ↦ ?_
    swap
    · obtain ⟨written, rfl⟩ := Disk.onDisk_error (hE hx)
      rw [Disk.spoil, hwrite]
      exact ⟨hstamped written, rfl, hstamped written⟩
    have hd' := Disk.onDisk_ok.1 (hE hx)
    have hall := hwrite (identity spec false).length
    have hI₅ := hstamped (identity spec false).length
    rw [List.take_length] at hall hI₅
    simp only [Disk.answer, hall, Prod.mk.injEq] at hd'
    obtain ⟨-, rfl⟩ := hd'
    refine ⟨hI₅, (Looks.sys rfl).does hE hI₅ (fun _ _ ↦ ?_) fun _ ↦ ⟨rfl, hI₅⟩⟩
    refine (Looks.sys rfl).does hE hI₅ (fun _ _ ↦ ?_) fun _ ↦ ⟨rfl, hI₅⟩
    exact Does.pure ⟨rfl, rfl, rfl⟩
  have hI₅ := hstamped (identity spec false).length
  rw [List.take_length] at hI₅
  refine hinit.bind ?_
  rintro isSealed t' d₅ ⟨rfl, rfl, rfl⟩
  refine (Looks.sys rfl).does hE hI₅ (fun _ _ ↦ ?_) fun _ ↦ ⟨rfl, hI₅⟩
  refine Does.pure ⟨rfl, ⟨?_, rfl, ?_, ?_, rfl, rfl, rfl, rfl, rfl, rfl, rfl, rfl⟩, rfl,
    (hroot.names (ne_path _)).symm.trans hpart, hI₅, ?_, ?_⟩
  · rfl
  · rw [← hd₄, ← hd₃]
    exact (Function.update_of_ne hne.symm _ _).trans (Function.update_self _ _ _)
  · rw [← hd₄, ← hd₃]
    exact Function.update_self _ _ _
  · rw [← hd₄]
    exact (Function.update_of_ne (Nat.ne_of_lt (Nat.lt_succ_self _)) _ _).trans
      (Function.update_self _ _ _)
  · exact Function.update_self _ _ _

namespace FilePart

variable {E : Environment Disk Syscall Reply} {I : Disk → Prop} {α : Type} {h : FilePart} {d : Disk}
  {Q : α → FilePart → Disk → Prop} {X : StorageError → FilePart → Disk → Prop}

theorem healthy_does {f : PartM α} (hX : X .invalidState h d)
    (hf : h.poisoned = false → Does E I h d f Q X) : Does E I h d (healthy >>= fun _ ↦ f) Q X := by
  show Does E I h d (throwIf (h.poisoned = true) .invalidState >>= fun _ ↦ f) Q X
  exact throwIf_does (fun _ ↦ hX) fun hp ↦ hf (Bool.eq_false_iff.2 hp)

theorem hash_does {start length : ℕ} {f : Digest → PartM α} (hE : OnDisk E) (hI : I d)
    (hX : ∀ e, X e h d) (hf : Does E I h d (f (sha256 (d.slice h.file start length))) Q X) :
    Does E I h d (hash sha256 start length >>= f) Q X := by
  show Does E I h d (hashFile sha256 h.file start length >>= f) Q X
  refine hashFile_looks.does hE hI ?_ hX
  rintro _ rfl
  exact hf

/-! ### Writing -/

/-- Everything a write depends on was checked. -/
structure Passes (h : FilePart) (offset : ℕ) (bytes : List UInt8) (range : ByteRange)
    (plan : ℕ × ℕ × ByteRange) : Prop where
  healthy : h.poisoned = false
  isSealed : h.isSealed = false
  ne_nil : bytes ≠ []
  start : range.start = offset
  stop : range.stop = offset + bytes.length
  le_size : range.stop ≤ h.spec.size
  guards : h.guards range = false
  plan : h.coveragePlan range = .ok plan

theorem range_eq_ok {offset length : ℕ} {range : ByteRange} (hrange : h.range offset length = .ok range) :
    range.start = offset ∧ range.stop = offset + length ∧ range.stop ≤ h.spec.size := by
  unfold FilePart.range at hrange
  split at hrange
  · cases hrange
  next stop hstop =>
    split at hrange
    · cases hrange
    next hle =>
      cases hnew : ByteRange.new offset stop with
      | error e =>
        rw [hnew] at hrange
        cases hrange
      | ok r =>
        rw [hnew] at hrange
        cases hrange
        obtain ⟨h₁, h₂⟩ := ByteRange.new_eq_ok.1 hnew
        obtain ⟨-, rfl⟩ := checkedAdd_eq_some.1 hstop
        exact ⟨h₁, h₂, by omega⟩

theorem range_eq_error {offset length : ℕ} {e : StorageError} (hrange : h.range offset length = .error e) :
    e = .bounds := by
  unfold FilePart.range at hrange
  split at hrange
  · cases hrange
    rfl
  · split at hrange
    · cases hrange
      rfl
    · cases hnew : ByteRange.new offset _ with
      | error e' =>
        rw [hnew] at hrange
        cases hrange
        rfl
      | ok r =>
        rw [hnew] at hrange
        cases hrange

theorem coveragePlan_eq_error {range : ByteRange} {e : StorageError}
    (hplan : h.coveragePlan range = .error e) : e = .bounds := by
  unfold coveragePlan at hplan
  simp only at hplan
  split at hplan
  · cases hplan
    rfl
  · split at hplan
    · cases hplan
      rfl
    · cases hplan

/-- **A write** is refused and changes nothing, or everything was checked and some of the bytes went in,
all of them if it succeeds. -/
theorem writeAt_does {offset : ℕ} {bytes : List UInt8} (hE : OnDisk E) (hI : I d)
    (hput : ∀ range plan written, h.Passes offset bytes range plan →
      I (d.put h.file (overwrite (d.contents h.file) offset (bytes.take written)))) :
    Does E I h d (writeAt offset bytes)
      (fun _ h' d' ↦ bytes = [] ∧ h' = h ∧ d' = d ∨
        ∃ range plan, h.Passes offset bytes range plan ∧
          h' = { h.addCoverage plan with poisoned := false, synchronized := false, verified := none } ∧
          d' = d.put h.file (overwrite (d.contents h.file) offset bytes))
      (fun e h' d' ↦ (e = .invalidState ∨ e = .bounds) ∧ h' = h ∧ d' = d ∨
        ∃ range plan written kind, h.Passes offset bytes range plan ∧ e = .io kind ∧
          h' = { h with poisoned := true, synchronized := false, verified := none } ∧
          d' = d.put h.file (overwrite (d.contents h.file) offset (bytes.take written))) := by
  refine healthy_does (Or.inl ⟨Or.inl rfl, rfl, rfl⟩) fun hhealthy ↦ ?_
  refine Does.get (throwIf_does (fun _ ↦ Or.inl ⟨Or.inl rfl, rfl, rfl⟩) fun hsealed ↦ ?_)
  split
  next hnil =>
    exact throwIf_last (fun _ ↦ Or.inl ⟨Or.inr rfl, rfl, rfl⟩) fun _ ↦ Or.inl ⟨hnil, rfl, rfl⟩
  next hne =>
    refine ofExcept_does (fun e he ↦ Or.inl ⟨Or.inr (range_eq_error he), rfl, rfl⟩) fun range hrange ↦ ?_
    refine throwIf_does (fun _ ↦ Or.inl ⟨Or.inl rfl, rfl, rfl⟩) fun hguards ↦ ?_
    refine ofExcept_does (fun e he ↦ Or.inl ⟨Or.inr (coveragePlan_eq_error he), rfl, rfl⟩)
      fun plan hplan ↦ ?_
    obtain ⟨hstart, hstop, hle⟩ := range_eq_ok hrange
    have hpasses : h.Passes offset bytes range plan :=
      ⟨hhealthy, Bool.eq_false_iff.2 hsealed, hne, hstart, hstop, hle, Bool.eq_false_iff.2 hguards,
        hplan⟩
    refine Does.change (Does.get ?_)
    -- nothing is written before the position is reached
    refine sys_does (fun _ d' hx ↦ ?_) fun kind d' hx ↦ ?_
    swap
    · obtain rfl := Disk.eq_of_looks rfl (hE hx)
      exact ⟨hI, Or.inr ⟨range, plan, 0, kind, hpasses, rfl, rfl, by simp [overwrite]⟩⟩
    obtain rfl := Disk.eq_of_looks rfl (hE hx)
    refine ⟨hI, sys_does (fun x d' hx ↦ ?_) fun kind d' hx ↦ ?_⟩
    · have hd' := Disk.onDisk_ok.1 (hE hx)
      simp only [Disk.answer, Prod.mk.injEq] at hd'
      obtain ⟨-, rfl⟩ := hd'
      have hall := hput range plan bytes.length hpasses
      rw [List.take_length] at hall
      exact ⟨hall, Or.inr ⟨range, plan, hpasses, rfl, rfl⟩⟩
    · obtain ⟨written, rfl⟩ := Disk.onDisk_error (hE hx)
      exact ⟨hput range plan written hpasses, Or.inr ⟨range, plan, written, kind, hpasses, rfl, rfl, rfl⟩⟩

theorem sync_does (hE : OnDisk E) (hI : I d) :
    Does E I h d sync
      (fun _ h' d' ↦ h.poisoned = false ∧ h' = { h with synchronized := true } ∧ d' = d)
      (fun _ h' d' ↦ (h' = h ∨ h' = { h with poisoned := true }) ∧ d' = d) := by
  refine healthy_does ⟨Or.inl rfl, rfl⟩ fun hhealthy ↦ ?_
  refine Does.change (Does.get ?_)
  refine (Looks.sys rfl).does hE hI (fun _ _ ↦ ?_) fun _ ↦ ⟨Or.inr rfl, rfl⟩
  exact ⟨hhealthy, by rw [← hhealthy], rfl⟩

theorem hashRange_does {range : ByteRange} (hE : OnDisk E) (hI : I d) :
    Does E I h d (hashRange sha256 range)
      (fun digest h' d' ↦ digest = sha256 (d.slice h.file range.start range.len) ∧ h' = h ∧ d' = d)
      (fun _ h' d' ↦ h' = h ∧ d' = d) := by
  refine healthy_does ⟨rfl, rfl⟩ fun _ ↦ ?_
  refine Does.get ?_
  refine Looks.throwIf.does hE hI (fun _ _ ↦ ?_) fun _ ↦ ⟨rfl, rfl⟩
  exact hashFile_looks.last (t := h) hE hI (fun _ hdigest ↦ ⟨hdigest, rfl, rfl⟩) fun _ ↦ ⟨rfl, rfl⟩

/-- **An extent is taken back** only if its bytes have the digest that was recorded. -/
theorem recoverExtent_does {range : ByteRange} {digest : Digest} (hE : OnDisk E) (hI : I d) :
    Does E I h d (recoverExtent sha256 range digest)
      (fun _ h' d' ↦ ∃ plan, h.poisoned = false ∧ range.stop ≤ h.spec.size ∧
        h.coveragePlan range = .ok plan ∧
        sha256 (d.slice h.file range.start range.len) = digest ∧
        h' = { h.addCoverage plan with protectedRanges := h.protectedRanges ++ [range] } ∧ d' = d)
      (fun _ h' d' ↦ h' = h ∧ d' = d) := by
  refine healthy_does ⟨rfl, rfl⟩ fun hhealthy ↦ ?_
  refine Does.get ?_
  refine Looks.throwIf.does hE hI (fun _ hstop ↦ ?_) fun _ ↦ ⟨rfl, rfl⟩
  refine Looks.does (φ := fun _ plan ↦ h.coveragePlan range = .ok plan)
    (Looks.ofExcept fun _ ha _ ↦ ha) hE hI (fun plan hplan ↦ ?_) fun _ ↦ ⟨rfl, rfl⟩
  refine hash_does hE hI (fun _ ↦ ⟨rfl, rfl⟩) ?_
  refine Looks.throwIf.does hE hI (fun _ hdigest ↦ ?_) fun _ ↦ ⟨rfl, rfl⟩
  refine Looks.throwIf.does hE hI (fun _ _ ↦ ?_) fun _ ↦ ⟨rfl, rfl⟩
  exact ⟨plan, hhealthy, Nat.le_of_not_lt hstop, hplan, not_not.1 hdigest, rfl, rfl⟩

/-! ### Verification -/

theorem rehash_does {record : List (ByteRange × Digest)} (hE : OnDisk E) (hI : I d) :
    Does E I h d (rehash sha256 record)
      (fun _ h' d' ↦ (∀ e ∈ record, e.1.stop ≤ h.spec.size ∧
        sha256 (d.slice h.file e.1.start e.1.len) = e.2) ∧ h' = h ∧ d' = d)
      (fun _ h' d' ↦ h' = h ∧ d' = d) := by
  induction record with
  | nil => exact ⟨nofun, rfl, rfl⟩
  | cons e record ih =>
    refine Does.get ?_
    refine Looks.throwIf.does hE hI (fun _ hstop ↦ ?_) fun _ ↦ ⟨rfl, rfl⟩
    refine hash_does hE hI (fun _ ↦ ⟨rfl, rfl⟩) ?_
    refine Looks.throwIf.does hE hI (fun _ hdigest ↦ ?_) fun _ ↦ ⟨rfl, rfl⟩
    refine ih.mono (fun _ h' d' ⟨hrest, hh', hd'⟩ ↦ ⟨fun e' he' ↦ ?_, hh', hd'⟩) fun _ _ _ h ↦ h
    rcases List.mem_cons.1 he' with rfl | he'
    · exact ⟨Nat.le_of_not_lt hstop, not_not.1 hdigest⟩
    · exact hrest e' he'

/-- What a verification that succeeds has checked. -/
structure Verified (sha256 : List UInt8 → Digest) (h : FilePart) (d : Disk) (expected : Option Digest)
    (record : List (ByteRange × Digest)) (digest : Digest) : Prop where
  healthy : h.poisoned = false
  complete : h.complete = true
  synchronized : h.synchronized = true
  length : (d.contents h.file).length = h.spec.size
  attested : h.attested record = .ok ()
  rehashed : ∀ e ∈ record, e.1.stop ≤ h.spec.size ∧ sha256 (d.slice h.file e.1.start e.1.len) = e.2
  whole : digest = sha256 (d.slice h.file 0 h.spec.size)
  expected : ∀ g ∈ expected, g = digest

theorem verify_does {expected : Option Digest} {record : List (ByteRange × Digest)} (hE : OnDisk E)
    (hI : I d) :
    Does E I h d (verify sha256 expected record)
      (fun digest h' d' ↦ Verified sha256 h d expected record digest ∧
        h' = { h with verified := some digest } ∧ d' = d)
      (fun _ h' d' ↦ (h.poisoned = true ∧ h' = h ∨ h' = { h with verified := none }) ∧ d' = d) := by
  refine throwIf_does (fun hpoisoned ↦ ⟨Or.inl ⟨hpoisoned, rfl⟩, rfl⟩) fun hpoisoned ↦ ?_
  have hhealthy : h.poisoned = false := Bool.eq_false_iff.2 hpoisoned
  refine Does.change (Does.get ?_)
  refine Looks.throwIf.does hE hI (fun _ hready ↦ ?_) fun _ ↦ ⟨Or.inr rfl, rfl⟩
  refine (Looks.sys rfl).does hE hI (fun found hfound ↦ ?_) fun _ ↦ ⟨Or.inr rfl, rfl⟩
  refine Looks.throwIf.does hE hI (fun _ hlength ↦ ?_) fun _ ↦ ⟨Or.inr rfl, rfl⟩
  refine Looks.does (φ := fun _ _ ↦ h.attested record = .ok ())
    (Looks.ofExcept fun _ ha _ ↦ ha) hE hI (fun _ hattested ↦ ?_) fun _ ↦ ⟨Or.inr rfl, rfl⟩
  refine ((rehash_does hE hI).mono (fun _ _ _ h ↦ h) ?_).bind ?_
  · rintro _ h' d' ⟨rfl, rfl⟩
    exact ⟨Or.inr rfl, rfl⟩
  · rintro _ h' d' ⟨hrehashed, rfl, rfl⟩
    refine hash_does hE hI (fun _ ↦ ⟨Or.inr rfl, rfl⟩) ?_
    refine Looks.throwIf.does hE hI (fun _ hexpected ↦ ?_) fun _ ↦ ⟨Or.inr rfl, rfl⟩
    cases hfound
    obtain ⟨hcomplete, hsynchronized⟩ := not_or.1 hready
    refine ⟨⟨hhealthy, Bool.eq_true_of_not_eq_false hcomplete,
      Bool.eq_true_of_not_eq_false hsynchronized, not_not.1 hlength, hattested, hrehashed, rfl,
      fun g hg ↦ ?_⟩, rfl, rfl⟩
    rw [Option.mem_def] at hg
    rw [hg] at hexpected
    simpa using hexpected

/-! ### Publication -/

theorem checkAbsent_looks : Looks (τ := τ) (checkAbsent path) fun _ _ ↦ True := by
  refine Looks.bind (Looks.attempt rfl) fun x ↦ ?_
  split
  · exact Looks.throw
  · exact Looks.pure fun _ _ ↦ trivial
  · exact Looks.throw

/-- What a publication has found before it does anything. -/
structure Publishable (h : FilePart) (d : Disk) (destination : Path) (expected : Digest) (q : Path) :
    Prop where
  healthy : h.poisoned = false
  verified : h.verified = some expected
  synchronized : h.synchronized = true
  complete : h.complete = true
  resolved : q = destination

theorem checkPublishable_does (hE : OnDisk E) (hI : I d) :
    Does E I h d (checkPublishable destination)
      (fun r h' d' ↦ h.Publishable d destination r.1 r.2 ∧ h' = h ∧ d' = d)
      (fun _ h' d' ↦ (h' = h ∨ h' = { h with verified := none }) ∧ d' = d) := by
  refine healthy_does ⟨Or.inl rfl, rfl⟩ fun hhealthy ↦ ?_
  refine Does.get ?_
  split
  · exact Does.throw ⟨Or.inl rfl, rfl⟩
  next expected hverified =>
    refine Looks.throwIf.does hE hI (fun _ hready ↦ ?_) fun _ ↦ ⟨Or.inl rfl, rfl⟩
    refine resolveDestination_looks.does hE hI (fun q hq ↦ ?_) fun _ ↦ ⟨Or.inl rfl, rfl⟩
    refine checkAbsent_looks.does hE hI (fun _ _ ↦ ?_) fun _ ↦ ⟨Or.inl rfl, rfl⟩
    refine (ordinary_looks false).does hE hI (fun _ _ ↦ ?_) fun _ ↦ ⟨Or.inl rfl, rfl⟩
    refine (Looks.sys rfl).does hE hI (fun found _ ↦ ?_) fun _ ↦ ⟨Or.inl rfl, rfl⟩
    split
    · exact Does.change (Does.throw ⟨Or.inr rfl, rfl⟩)
    · obtain ⟨hsynchronized, hcomplete⟩ := not_or.1 hready
      exact Does.pure ⟨⟨hhealthy, hverified, Bool.eq_true_of_not_eq_false hsynchronized,
        Bool.eq_true_of_not_eq_false hcomplete, hq⟩, rfl, rfl⟩

/-- **Freezing** writes the seal, or fails before or after it. -/
theorem freeze_does (hE : OnDisk E) (hI : I d) (hseal : ∀ written, I (d.seal h.metadata written)) :
    Does E I h d freeze
      (fun _ h' d' ↦ h' = { h with poisoned := true, isSealed := true } ∧ d' = d.seal h.metadata 1)
      (fun _ h' d' ↦ h' = { h with poisoned := true } ∧ ∃ written, d' = d.seal h.metadata written) := by
  refine Does.change (Does.get ?_)
  refine (Looks.sys rfl).does hE hI (fun _ _ ↦ ?_)
    fun _ ↦ ⟨rfl, 0, by simp [Disk.seal, overwrite]⟩
  refine sys_does (fun x d' hx ↦ ?_) fun kind d' hx ↦ ?_
  · have hd' := Disk.onDisk_ok.1 (hE hx)
    simp only [Disk.answer, Prod.mk.injEq] at hd'
    obtain ⟨-, rfl⟩ := hd'
    refine ⟨hseal 1, ?_⟩
    exact (Looks.sys rfl).does hE (hseal 1) (fun _ _ ↦ ⟨rfl, rfl⟩) fun _ ↦ ⟨rfl, 1, rfl⟩
  · obtain ⟨written, rfl⟩ := Disk.onDisk_error (hE hx)
    exact ⟨hseal written, rfl, written, rfl⟩

/-- The calls that link the part under its staged name and prove that link. -/
def Stages (h : FilePart) (op : Syscall) : Prop :=
  op = .hardLink h.path (h.spec.path h.directory .staged) ∨
    op = .openFile (h.spec.path h.directory .staged) ∨ op = .seek h.file 0 ∨
    op = .readExact h.file 0 h.spec.size

/-- One of these calls failed. -/
def StagingFails (E : Environment Disk Syscall Reply) (h : FilePart) : Prop :=
  ∃ d op kind d', h.Stages op ∧ E d op (.error kind) d'

/-- Another disk only in what stands under a staged name: nothing, or what the part's name stands for. -/
structure Restaged (path staged : Path) (d d' : Disk) : Prop where
  contents : d'.contents = d.contents
  names : ∀ q, q ≠ staged → d'.names q = d.names q
  staged : d'.names staged = none ∨ d'.names staged = d.names staged ∨ d'.names staged = d.names path

theorem Restaged.refl (path staged : Path) (d : Disk) : Restaged path staged d d :=
  ⟨rfl, fun _ _ ↦ rfl, Or.inr (Or.inl rfl)⟩

theorem Restaged.trans {staged : Path} {d' d'' : Disk} (hne : path ≠ staged)
    (h : Restaged path staged d d') (h' : Restaged path staged d' d'') : Restaged path staged d d'' := by
  refine ⟨h'.contents.trans h.contents,
    fun q hq ↦ (h'.names q hq).trans (h.names q hq), ?_⟩
  rcases h'.staged with h₁ | h₁ | h₁
  · exact Or.inl h₁
  · rw [h₁]
    exact h.staged
  · exact Or.inr (Or.inr (h₁.trans (h.names path hne)))

/-- Removing a staged link, or failing to. -/
theorem Restaged.remove (path : Path) {staged : Path} {x : Reply (.removeFile staged)} {d' : Disk}
    (h : onDisk d (.removeFile staged) x d') : Restaged path staged d d' := by
  cases x with
  | error kind =>
    obtain ⟨written, rfl⟩ := Disk.onDisk_error h
    exact Restaged.refl _ _ _
  | ok x =>
    have h := Disk.onDisk_ok.1 h
    simp only [Disk.answer] at h
    split at h
    · cases h
    · cases h
      exact ⟨rfl, fun q hq ↦ Function.update_of_ne hq _ _, Or.inl (Function.update_self _ _ _)⟩
    · cases h

/-- A second name is the name of the same thing, and was free before. -/
theorem hardLink_eq {original link : Path} {d' : Disk} {x : Unit}
    (h : onDisk d (.hardLink original link) (.ok x) d') :
    ∃ node, ∃ hnode, d.names original = some node ∧ d.names link = none ∧ d' = d.link link node hnode := by
  have h := Disk.onDisk_ok.1 h
  simp only [Disk.answer] at h
  split at h
  · cases h
  · cases h
  next node _ hnode =>
    split at h
    · cases h
    next hfree =>
      exact ⟨node, fun inode hi ↦ d.lt_fresh (hnode.trans (congrArg some hi)), hnode,
        by simpa using hfree, (congrArg Prod.snd h).symm⟩

theorem hashStaged_does {staged : Path} {size : ℕ} {inode : Inode} {t : τ} (hE : OnDisk E) (hI : I d)
    (hname : d.names staged = some (.file inode)) :
    Does E I t d (hashStaged sha256 staged size)
      (fun digest t' d' ↦ digest = sha256 (d.slice inode 0 size) ∧ t' = t ∧ d' = d)
      (fun _ t' d' ↦ (∃ op kind, (op = .openFile staged ∨ op = .seek inode 0 ∨
        op = .readExact inode 0 size) ∧ E d op (.error kind) d) ∧ t' = t ∧ d' = d) := by
  refine sys_does (fun x d' hx ↦ ?_) fun kind d' hx ↦ ?_
  · obtain rfl := Disk.eq_of_looks rfl (hE hx)
    have hx := Disk.onDisk_ok.1 (hE hx)
    simp only [Disk.answer, hname] at hx
    cases hx
    refine ⟨hI, sys_does (fun x d'' hx ↦ ?_) fun kind d'' hx ↦ ?_⟩
    · obtain rfl := Disk.eq_of_looks rfl (hE hx)
      refine ⟨hI, ?_⟩
      split
      next hzero => exact ⟨by rw [hzero, Disk.slice, List.take_zero], rfl, rfl⟩
      · refine sys_does (fun bytes d'' hx ↦ ?_) fun kind d'' hx ↦ ?_
        · obtain rfl := Disk.eq_of_looks rfl (hE hx)
          have hx := Disk.onDisk_ok.1 (hE hx)
          refine ⟨hI, ?_, rfl, rfl⟩
          rw [(readExact_eq (congrArg Prod.fst hx)).2]
        · obtain rfl := Disk.eq_of_looks rfl (hE hx)
          exact ⟨hI, ⟨_, kind, Or.inr (Or.inr rfl), hx⟩, rfl, rfl⟩
    · obtain rfl := Disk.eq_of_looks rfl (hE hx)
      exact ⟨hI, ⟨_, kind, Or.inr (Or.inl rfl), hx⟩, rfl, rfl⟩
  · obtain rfl := Disk.eq_of_looks rfl (hE hx)
    exact ⟨hI, ⟨_, kind, Or.inl rfl, hx⟩, rfl, rfl⟩

/-- **Staging**: the staged link is there and proved, or it failed for a reason and the seal in memory
is taken back. -/
theorem stage_does {expected : Digest} (hE : OnDisk E) (hname : d.names h.path = some (.file h.file))
    (hne : h.path ≠ h.spec.path h.directory .staged)
    (hI : ∀ d', Restaged h.path (h.spec.path h.directory .staged) d d' → I d') :
    Does E I h d (stage sha256 (h.spec.path h.directory .staged) expected)
      (fun _ h' d' ↦ h' = h ∧ Restaged h.path (h.spec.path h.directory .staged) d d' ∧
        d'.names (h.spec.path h.directory .staged) = some (.file h.file) ∧
        expected = sha256 (d.slice h.file 0 h.spec.size))
      (fun _ h' d' ↦ Restaged h.path (h.spec.path h.directory .staged) d d' ∧
        (StagingFails E h ∨ expected ≠ sha256 (d.slice h.file 0 h.spec.size)) ∧
        (h' = { h with poisoned := false, isSealed := false } ∨
          h' = { h with poisoned := false, isSealed := false, verified := none })) := by
  refine Does.get (attempt_does fun x d₁ hx ↦ ?_)
  have hr₁ := Restaged.remove h.path (hE hx)
  refine ⟨hI d₁ hr₁, attempt_does fun x d₂ hx ↦ ?_⟩
  cases x with
  | error kind =>
    have hd₂ : d₂ = d₁ := by
      obtain ⟨written, rfl⟩ := Disk.onDisk_error (hE hx)
      rfl
    rw [hd₂] at hx ⊢
    exact ⟨hI d₁ hr₁, hr₁, Or.inl ⟨d₁, _, kind, d₁, Or.inl rfl, hx⟩, Or.inl rfl⟩
  | ok x =>
    obtain ⟨node, hnode, hnode', -, rfl⟩ := hardLink_eq (hE hx)
    rw [hr₁.names _ hne, hname] at hnode'
    obtain rfl := Option.some.inj hnode'
    have hstaged : (d₁.link (h.spec.path h.directory .staged) (.file h.file) hnode).names
        (h.spec.path h.directory .staged) = some (.file h.file) := Function.update_self _ _ _
    have hr₂ : Restaged h.path (h.spec.path h.directory .staged) d
        (d₁.link (h.spec.path h.directory .staged) (.file h.file) hnode) :=
      ⟨hr₁.contents, fun q hq ↦ (Function.update_of_ne hq _ _).trans (hr₁.names q hq),
        Or.inr (Or.inr (hstaged.trans hname.symm))⟩
    generalize d₁.link (h.spec.path h.directory .staged) (.file h.file) hnode = d₂ at hstaged hr₂ ⊢
    refine ⟨hI d₂ hr₂, Does.get ?_⟩
    have hslice : d₂.slice h.file 0 h.spec.size = d.slice h.file 0 h.spec.size := by
      rw [Disk.slice, Disk.slice, hr₂.contents]
    refine observe_does (Does.mono (hashStaged_does hE (hI d₂ hr₂) hstaged) ?_ ?_)
    · rintro digest t' d₃ ⟨rfl, rfl, rfl⟩
      split
      next hwrong =>
        refine attempt_does fun x d₃ hx ↦ ?_
        have hr₃ := hr₂.trans hne (Restaged.remove _ (hE hx))
        refine ⟨hI d₃ hr₃, Does.change (Does.throw ⟨hr₃, Or.inr fun heq ↦ hwrong ?_, Or.inr rfl⟩)⟩
        rw [hslice, ← heq]
      next hright =>
        have hright := Except.ok.inj (not_not.1 hright)
        exact Does.pure ⟨rfl, hr₂, hstaged, by rw [← hright, hslice]⟩
    · rintro e t' d₃ ⟨⟨op, kind, hop, hfail⟩, rfl, rfl⟩
      rw [if_pos nofun]
      refine attempt_does fun x d₄ hx ↦ ?_
      have hr₃ := hr₂.trans hne (Restaged.remove _ (hE hx))
      exact ⟨hI d₄ hr₃, Does.change (Does.throw ⟨hr₃, Or.inl ⟨d₃, op, kind, d₃, Or.inr hop, hfail⟩,
        Or.inr rfl⟩)⟩

/-- The disk once a file has one more name, and its sidecar is sealed. -/
structure Shown (path staged : Path) (file metadata : Inode) (d : Disk) (q : Path) (d' : Disk) :
    Prop where
  contents : d'.contents = (d.seal metadata 1).contents
  free : d.names q = none
  linked : d'.names q = some (.file file)
  ne_staged : q ≠ staged
  names : ∀ p, p ≠ q → p ≠ staged → d'.names p = d.names p
  staged : d'.names staged = none ∨ d'.names staged = d.names staged ∨ d'.names staged = d.names path

/-- The disk once the destination is there. -/
abbrev Exposed (h : FilePart) : Disk → Path → Disk → Prop :=
  Shown h.path (h.spec.path h.directory .staged) h.file h.metadata

/-- **Exposing** makes the destination one more name of the part, or takes the staged link back. -/
theorem expose_does {q : Path} {d₀ : Disk} (hE : OnDisk E)
    (hne : h.path ≠ h.spec.path h.directory .staged)
    (hr : Restaged h.path (h.spec.path h.directory .staged) (d₀.seal h.metadata 1) d)
    (hstaged : d.names (h.spec.path h.directory .staged) = some (.file h.file))
    (hrestaged : ∀ d', Restaged h.path (h.spec.path h.directory .staged) (d₀.seal h.metadata 1) d' →
      I d') (hexposed : ∀ d', h.Exposed d₀ q d' → I d') :
    Does E I h d (expose (h.spec.path h.directory .staged) q)
      (fun _ h' d' ↦ h' = h ∧ h.Exposed d₀ q d')
      (fun _ h' d' ↦ h' = { h with poisoned := false } ∧
        Restaged h.path (h.spec.path h.directory .staged) (d₀.seal h.metadata 1) d') := by
  refine attempt_does fun x d₁ hx ↦ ?_
  cases x with
  | error kind =>
    have hd₁ : d₁ = d := by
      obtain ⟨written, rfl⟩ := Disk.onDisk_error (hE hx)
      rfl
    rw [hd₁]
    refine ⟨hrestaged d hr, attempt_does fun x d₂ hx ↦ ?_⟩
    have hr₂ := hr.trans hne (Restaged.remove h.path (hE hx))
    exact ⟨hrestaged d₂ hr₂, Does.change (Does.throw ⟨rfl, hr₂⟩)⟩
  | ok x =>
    obtain ⟨node, hnode, hnode', hfree, rfl⟩ := hardLink_eq (hE hx)
    rw [hstaged] at hnode'
    obtain rfl := Option.some.inj hnode'
    have hq : q ≠ h.spec.path h.directory .staged := by
      rintro rfl
      rw [hstaged] at hfree
      cases hfree
    have hkept : ∀ p, p ≠ q → (d.link q (.file h.file) hnode).names p = d.names p :=
      fun p hp ↦ Function.update_of_ne hp _ _
    have hexp : h.Exposed d₀ q (d.link q (.file h.file) hnode) := by
      refine ⟨hr.contents, ?_, Function.update_self _ _ _, hq, fun p hp hp' ↦ ?_, ?_⟩
      · rw [← hfree, hr.names q hq]
        rfl
      · rw [hkept p hp, hr.names p hp']
        rfl
      · rw [hkept _ hq.symm]
        exact hr.staged
    exact ⟨hexposed _ hexp, Does.pure ⟨rfl, hexp⟩⟩

/-- Removing the staged link once it has served its purpose. -/
theorem Exposed.remove {q : Path} {d₁ d₂ : Disk} {x : Reply (.removeFile (h.spec.path h.directory .staged))}
    (hexp : h.Exposed d q d₁)
    (hx : onDisk d₁ (.removeFile (h.spec.path h.directory .staged)) x d₂) : h.Exposed d q d₂ := by
  have hr := Restaged.remove (h.spec.path h.directory .staged) hx
  refine ⟨hr.contents.trans hexp.contents, hexp.free,
    (hr.names q hexp.ne_staged).trans hexp.linked, hexp.ne_staged,
    fun p hp hp' ↦ (hr.names p hp').trans (hexp.names p hp hp'), ?_⟩
  rcases hr.staged with h₁ | h₁ | h₁
  · exact Or.inl h₁
  · rw [h₁]
    exact hexp.staged
  · rw [h₁]
    exact hexp.staged

/-- How a publication ends that does not succeed. -/
inductive Unpublished (sha256 : List UInt8 → Digest) (E : Environment Disk Syscall Reply)
    (h : FilePart) (d : Disk) (destination : Path) : FilePart → Disk → Prop
  /-- Something was not as it has to be. -/
  | refused : Unpublished sha256 E h d destination h d
  /-- The part is not as long as it was. -/
  | resized : Unpublished sha256 E h d destination { h with verified := none } d
  /-- The seal could not be written, or not be synced. -/
  | unsealed {expected : Digest} {q : Path} (written : ℕ)
      (hready : h.Publishable d destination expected q) :
      Unpublished sha256 E h d destination { h with poisoned := true } (d.seal h.metadata written)
  /-- The staged link could not be made or proved; the seal in memory is taken back. -/
  | unstaged {expected : Digest} {q : Path} {d' : Disk} {h' : FilePart}
      (hready : h.Publishable d destination expected q)
      (hdisk : Restaged h.path (h.spec.path h.directory .staged) (d.seal h.metadata 1) d')
      (hwhy : StagingFails E h ∨ expected ≠ sha256 ((d.seal h.metadata 1).slice h.file 0 h.spec.size))
      (hpart : h' = { h with poisoned := false, isSealed := false } ∨
        h' = { h with poisoned := false, isSealed := false, verified := none }) :
      Unpublished sha256 E h d destination h' d'
  /-- The destination could not be made. -/
  | unexposed {expected : Digest} {q : Path} {d' : Disk}
      (hready : h.Publishable d destination expected q)
      (hdisk : Restaged h.path (h.spec.path h.directory .staged) (d.seal h.metadata 1) d') :
      Unpublished sha256 E h d destination { h with poisoned := false, isSealed := true } d'
  /-- The destination is there, but not everything could be synced. -/
  | unsettled {expected : Digest} {q : Path} {d' : Disk}
      (hready : h.Publishable d destination expected q) (hdisk : h.Exposed d q d') :
      Unpublished sha256 E h d destination { h with poisoned := true, isSealed := true } d'

/-- **Publication**, at whatever call it stops. -/
theorem publish_does (hE : OnDisk E) (hname : d.names h.path = some (.file h.file))
    (hne : h.path ≠ h.spec.path h.directory .staged) (hI : I d)
    (hseal : ∀ expected q written, h.Publishable d destination expected q →
      I (d.seal h.metadata written))
    (hrestaged : ∀ expected q d', h.Publishable d destination expected q →
      Restaged h.path (h.spec.path h.directory .staged) (d.seal h.metadata 1) d' → I d')
    (hexposed : ∀ expected q d', h.Publishable d destination expected q → h.Exposed d q d' → I d') :
    Does E I h d (publish sha256 destination)
      (fun q h' d' ↦ (∃ expected, h.Publishable d destination expected q ∧
        expected = sha256 ((d.seal h.metadata 1).slice h.file 0 h.spec.size)) ∧ h.Exposed d q d' ∧
        h' = { h with isSealed := true, published := true, poisoned := false })
      (fun _ h' d' ↦ Unpublished sha256 E h d destination h' d') := by
  refine ((checkPublishable_does hE hI).mono (fun _ _ _ h ↦ h) ?_).bind ?_
  · rintro e h' d' ⟨rfl | rfl, rfl⟩
    · exact .refused
    · exact .resized
  rintro ⟨expected, q⟩ h' d' ⟨hready, rfl, rfl⟩
  refine ((freeze_does hE hI fun written ↦ hseal expected q written hready).mono
    (fun _ _ _ h ↦ h) ?_).bind ?_
  · rintro e h'' d'' ⟨rfl, written, rfl⟩
    exact .unsealed written hready
  rintro _ h₁ d₁ ⟨rfl, rfl⟩
  refine Does.get ?_
  refine ((stage_does (h := { h' with poisoned := true, isSealed := true })
    (d := d'.seal h'.metadata 1) hE hname hne
    fun d'' hr ↦ hrestaged expected q d'' hready hr).mono (fun _ _ _ h ↦ h) ?_).bind ?_
  · rintro e h'' d'' ⟨hr, hwhy, hpart⟩
    exact .unstaged hready hr hwhy hpart
  rintro _ h₂ d₂ ⟨rfl, hr, hstaged, hproof⟩
  refine ((expose_does (h := { h' with poisoned := true, isSealed := true }) hE hne hr
    hstaged (fun d'' ↦ hrestaged expected q d'' hready) fun d'' ↦ hexposed expected q d'' hready).mono
    (fun _ _ _ h ↦ h) ?_).bind ?_
  · rintro e h'' d'' ⟨rfl, hr'⟩
    exact .unexposed hready hr'
  rintro _ h₃ d₃ ⟨rfl, hexp⟩
  refine attempt_does fun x d₄ hx ↦ ?_
  have hexp₄ : h'.Exposed d' q d₄ := Exposed.remove hexp (hE hx)
  have hI₄ := hexposed expected q d₄ hready hexp₄
  refine ⟨hI₄, (Looks.sys rfl).does hE hI₄ (fun _ _ ↦ ?_) fun _ ↦ .unsettled hready hexp₄⟩
  refine syncParent_looks.does hE hI₄ (fun _ _ ↦ ?_) fun _ ↦ .unsettled hready hexp₄
  refine (Looks.sys rfl).does hE hI₄ (fun _ _ ↦ ?_) fun _ ↦ .unsettled hready hexp₄
  exact Does.change (Does.pure ⟨⟨expected, hready, hproof⟩, hexp₄, rfl⟩)

end FilePart

end Fhd
