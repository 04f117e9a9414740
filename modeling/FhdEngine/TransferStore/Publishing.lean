import FhdEngine.TransferStore.StoreMethods

/-!
# Publishing a payload

`finalize` records its intent, links the payload under the output's name, syncs, and records that it is done. Between
two calls somebody else may take the name. What the store finds there it compares by length and hash, so whatever the
output stands for at the end has the length and the hash of the payload (`Folder.Shows`). While the folder is calm a
publication that was intended goes through, unless others have their hand in it (`Troubled`).
-/

namespace Fhd

namespace TransferStore

open Process (Does Ends Asks Routine Synced)

/-- The output stands for a file of this length and this hash. -/
def Folder.Shows (sha256 : List UInt8 → Digest) (output : String) (content : List UInt8) (f : Folder) : Prop :=
  ∃ inode, f.node output = some (.file inode) ∧ (f.files inode).bytes.length = content.length ∧
    sha256 (f.files inode).bytes = sha256 content

/-- The output stands for these very bytes. -/
def Folder.Exact (output : String) (content : List UInt8) (f : Folder) : Prop :=
  ∃ inode, f.node output = some (.file inode) ∧ (f.files inode).bytes = content

section Publishing

variable {sha256 : List UInt8 → Digest} {alone calm ours : Prop} {output : String} {part : Inode} {g : Ledger}
  {row : JobRow} {f f₀ f₁ : Folder} {s : Store} {τ : Type}

theorem Folder.Exact.shows (h : f.Exact output g.content) : f.Shows sha256 output g.content := by
  obtain ⟨inode, hnode, hbytes⟩ := h
  exact ⟨inode, hnode, by rw [hbytes], by rw [hbytes]⟩

/-- These are the very bytes, if no others have their hash. -/
theorem Folder.Shows.exact (h : f.Shows sha256 output g.content)
    (hunique : ∀ bytes, sha256 bytes = sha256 g.content → bytes = g.content) : f.Exact output g.content := by
  obtain ⟨inode, hnode, -, hhash⟩ := h
  exact ⟨inode, hnode, hunique _ hhash⟩

theorem steady_stirred : Steady alone output (f₀.Stirred alone output) := fun _ _ h h' ↦ h.trans h'

variable (sha256 alone calm) in
/-- **What stands at the output** is taken for the payload if it has its length and its hash. -/
theorem verifyDestination_looks {node : Node} (hnode : f₁.node output = some node) (houtput : s.output = output)
    (hlen : s.len = s.hasher.length) (htotal : s.identity.total = s.len) :
    Looks (τ := τ) calm alone output (· = f₁) (s.verifyDestination sha256)
      (fun _ ↦ f₁.Shows sha256 output s.hasher) fun _ ↦ calm → ¬f₁.Exact output s.hasher := by
  have hsteady : Steady alone output (· = f₁) := steady_of_node hnode
  have hfault : ¬calm → ∀ _ : StoreError, calm → ¬f₁.Exact output s.hasher := fun hn _ hc ↦ absurd hc hn
  have hname : ∀ f, f = f₁ → f.node s.output = some node := by
    rintro f rfl
    rw [houtput]
    exact hnode
  have hforeign : (∀ inode, node ≠ .file inode) → ¬f₁.Exact output s.hasher := by
    rintro hnot ⟨inode, hinode, -⟩
    exact hnot inode (Option.some.inj (hnode.symm.trans hinode))
  refine Looks.bind (Looks.rejectLink hsteady hname (fun hother _ _ ↦ hforeign (by rw [hother]; nofun)) hfault)
    fun _ _ ↦ ?_
  refine Looks.bind (Looks.requireFile hsteady hname (fun hnot _ _ ↦ hforeign hnot) hfault) fun _ hfile ↦ ?_
  obtain ⟨inode, rfl⟩ := hfile
  have hexact : f₁.Exact output s.hasher → (f₁.files inode).bytes = s.hasher := by
    rintro ⟨inode', hinode', hbytes⟩
    rwa [Node.file.inj (Option.some.inj (hnode.symm.trans hinode'))]
  refine Looks.bind (Looks.openOptions hsteady hname hfault) fun finalFile hfinal ↦ ?_
  subst hfinal
  refine Looks.bind (Looks.metadata hsteady (fun f hf ↦ by rw [hf]) hfault) fun length hlength ↦ ?_
  refine Looks.failIf (fun hne hcalm h ↦ hne (by rw [hlength, hexact h, htotal, hlen])) fun heq ↦ ?_
  have hbytes : (f₁.files finalFile).bytes.length = s.len := by rw [← hlength, not_not.1 heq, htotal]
  refine Looks.bind (Looks.hashPrefix hsteady (fun f hf ↦ by rw [hf]) hfault hbytes.ge) fun bytes hprefix ↦ ?_
  rw [← hbytes, List.take_length] at hprefix
  subst hprefix
  refine (Looks.failIf_last fun hne hcalm h ↦ hne (by rw [hexact h])).mono (fun _ heq ↦ ?_) fun _ ↦ id
  exact ⟨finalFile, hnode, hbytes.trans hlen, not_not.1 heq⟩

/-- The payload gets its second name. -/
theorem Folder.Sound.linked_now (hs : f.Sound sha256 alone output part g row) (hnone : f.node output = none)
    (htwo : row.phase = 2) :
    ({ f.link output (.file part) with made := f.made ++ [(output, part)] }).Sound sha256 alone output part g row := by
  have hown : ∀ name ∈ ownNames, (f.link output (.file part)).node name = f.node name := fun name hname ↦
    link_node_of_ne (hs.backs.fits.ne_output hname)
  refine { hs with own := fun name hname ↦ ?_, payload := ?_, strange := fun name hname ↦ ?_, linked := fun _ ↦ ?_,
                   made := fun inode hinode ↦ ?_ }
  · show ∃ inode, (f.link output (.file part)).node name = some (.file inode)
    rw [hown name hname]
    exact hs.own name hname
  · exact (hown _ ownPart).trans hs.payload
  · refine hs.strange name ?_
    by_cases hne : name = output
    · subst hne
      cases (link_node_self hnone).symm.trans hname
    · exact (link_node_of_ne hne).symm.trans hname
  · exact Or.inr ⟨link_node_self hnone, htwo.ge⟩
  · rcases List.mem_append.1 hinode with hbefore | hnow
    · exact hs.made inode hbefore
    · cases List.mem_singleton.1 hnow
      exact ⟨rfl, htwo.ge⟩

namespace Store

/-! ### The last steps -/

/-- **Recording what is published**: the payload and the folder are synced before the row tells of it. -/
theorem record_does (hs : f.Sound sha256 alone output part g row) (htwo : 2 ≤ row.phase)
    (hshows : f.Shows sha256 output g.content) (hlinked : alone → f.node output = some (.file part))
    (hheld : s.Held output part g row f) :
    Does (world calm alone output) (Along sha256 alone output part row.phase g) s f
      (do
        io (.syncAll s.part)
        io .syncDirectory
        let _ : ℕ ← db (.updatePhase 3)
        modify fun s ↦ { s with phase := 3 } : Method Unit)
      (fun _ s' f' ↦ f'.Sound sha256 alone output part g { row with phase := 3 } ∧ f'.Shows sha256 output g.content ∧
        s'.poisoned = s.poisoned ∧ s'.Held output part g { row with phase := 3 } f')
      fun _ s' f' ↦ s' = s ∧ Along sha256 alone output part row.phase g f' ∧ ¬calm := by
  obtain ⟨inode, hnode, hlength, hhash⟩ := hshows
  have hpositive : 0 < row.phase := by omega
  -- nothing is left to be synced in the payload
  have hsync : ∀ taken, f.answer taken (.syncAll s.part) = (.ok (), f) := fun _ ↦ by
    show (_, f.change s.part .sync) = _
    have hsame : Function.update f.files part (f.files part).sync = f.files := by
      rw [hs.complete hpositive]
      exact (congrArg _ (hs.complete hpositive).symm).trans (Function.update_eq_self _ _)
    rw [hheld.part_eq, Folder.change, hsame]
  refine call_here io_eq hnode (fun _ ↦ rfl) hsync hs.along hs.along (fun hc kind f' hf' ↦ ⟨rfl, ?_, hc⟩) ?_
  · rw [hf'.elim id id]
    exact hs.along
  -- the folder is synced
  set settled : Folder := { f with settled := f.entries.map (·.1) } with hsettled
  have hsettle : ∀ taken, f.answer taken .syncDirectory = (.ok (), settled) := fun _ ↦ rfl
  have hs₁ : settled.Sound sha256 alone output part g row := by
    refine { hs with settled := fun name hname ↦ ?_, published := fun halone _ ↦ Folder.mem_of_node (hlinked halone) }
    obtain ⟨inode, hinode⟩ := hs.own name hname
    exact Folder.mem_of_node hinode
  refine call_here io_eq hnode (fun _ ↦ rfl) hsettle hs.along hs₁.along (fun hc kind f' hf' ↦ ⟨rfl, ?_, hc⟩) ?_
  · rcases hf' with rfl | rfl
    · exact hs.along
    · exact hs₁.along
  -- and the row tells of it
  set done : Folder := { settled with job := some { row with phase := 3 } } with hdone
  have hbacks : g.Backs sha256 output { row with phase := 3 } :=
    hs.backs.advance hpositive ⟨by decide, by decide⟩ (hs.backs.matched htwo)
  have htell : ∀ taken, settled.answer taken (.updatePhase 3) = (.ok (1 : ℕ), done) := fun _ ↦
    hs₁.update (φ := fun row ↦ { row with phase := 3 }) hbacks.fits.check
  have hs₂ : done.Sound sha256 alone output part g { row with phase := 3 } :=
    hs₁.tell hbacks hs.kept (fun _ ↦ hs.complete hpositive) hs.backs.fits.phase.2 fun halone _ ↦
      ⟨hlinked halone, Folder.mem_of_node (hlinked halone)⟩
  have halong : Along sha256 alone output part row.phase g done := ⟨_, hs.backs.fits.phase.2, hs₂⟩
  refine call_here db_eq hnode (fun _ ↦ rfl) htell hs₁.along halong (fun hc kind f' hf' ↦ ⟨rfl, ?_, hc⟩) ?_
  · rcases hf' with rfl | rfl
    · exact hs₁.along
    · exact halong
  exact ⟨hs₂, ⟨inode, hnode, hlength, hhash⟩, rfl, { hheld with
    phase := rfl
    position := fun hzero ↦ ((by decide : ¬(3 : ℤ) = 0) hzero).elim }⟩

/-- A look at the output that fails while the folder is calm finds nothing there. -/
theorem probe_error {fate : Folder.Fate} {kind : ErrorKind} (hfate : ∃ taken, fate = .answered taken)
    (h : (f.serve (.symlinkMetadata output) fate).1 = .error kind) : kind = .notFound ∧ f.node output = none := by
  obtain ⟨taken, rfl⟩ := hfate
  simp only [Folder.serve, Folder.answer] at h
  split at h
  · cases h
  next hnone => exact ⟨(Except.error.inj h).symm, hnone⟩

theorem probe_ok {fate : Folder.Fate} {fileType : FileType}
    (h : (f.serve (.symlinkMetadata output) fate).1 = .ok fileType) : ∃ node, f.node output = some node := by
  cases fate with
  | answered taken =>
    simp only [Folder.serve, Folder.answer] at h
    split at h
    next node hnode => exact ⟨node, hnode⟩
    · cases h
  | failed kind written => cases h
  | lost kind => cases h

/-- **The link** comes only where nothing is. -/
theorem hardLink_does (hs₀ : f₀.Sound sha256 alone output part g row) (htwo : row.phase = 2)
    (hf : f₀.Stirred alone output f)
    (hfree : calm → ours → ∀ f₂, f₀.Stirred alone output f₂ → f₂.node output = none) :
    Does (world calm alone output) (Along sha256 alone output part row.phase g) s f
      (io (.hardLink "payload.part" output) : Method Unit)
      (fun _ s' f' ↦ s' = s ∧ f'.Sound sha256 alone output part g row ∧ f'.Shows sha256 output g.content ∧
        (alone → f'.node output = some (.file part)) ∧
        ∀ node, f₀.node output = some node → f₀.Shows sha256 output g.content)
      fun _ s' f' ↦ s' = s ∧ Along sha256 alone output part row.phase g f' ∧
        (calm → ¬ours ∧ f₀.Stirred alone output f') := by
  have hlink : ∀ (f : Folder) taken, f₀.Stirred alone output f →
      (∃ kind, f.answer taken (.hardLink "payload.part" output) = (.error kind, f) ∧ f.node output ≠ none) ∨
      f.answer taken (.hardLink "payload.part" output) =
        (.ok (), { f.link output (.file part) with made := f.made ++ [(output, part)] }) ∧ f.node output = none := by
    intro f taken hf
    simp only [Folder.answer, (hs₀.stirred hf).payload]
    cases hnode : f.node output with
    | none => exact Or.inr ⟨if_neg (by rintro ⟨⟩), rfl⟩
    | some node => exact Or.inl ⟨.alreadyExists, if_pos rfl, (by rintro ⟨⟩)⟩
  refine ask_does hf steady_stirred fun f₂ fate hf₂ hcalm ↦ ?_
  have hs₂ := hs₀.stirred hf₂
  have hnow : ∀ taken, Along sha256 alone output part row.phase g (f₂.answer taken (.hardLink "payload.part" output)).2 := by
    intro taken
    rcases hlink f₂ taken hf₂ with ⟨kind, h, -⟩ | ⟨h, hnone⟩
    · rw [h]
      exact hs₂.along
    · rw [h]
      exact (hs₂.linked_now hnone htwo).along
  cases fate with
  | answered taken =>
    refine ⟨hnow taken, ?_⟩
    rcases hlink f₂ taken hf₂ with ⟨kind, h, hsome⟩ | ⟨h, hnone⟩
    · rw [Folder.serve, h]
      exact Does.throw ⟨rfl, hs₂.along, fun hc ↦ ⟨fun hour ↦ hsome (hfree hc hour f₂ hf₂), hf₂⟩⟩
    · have hlinked := hs₂.linked_now hnone htwo
      rw [Folder.serve, h]
      refine Does.pure ⟨rfl, hlinked, Folder.Exact.shows ⟨part, Folder.link_node_self hnone, ?_⟩, fun _ ↦
        Folder.link_node_self hnone, fun node hnode ↦ ?_⟩
      · rw [hlinked.complete (by omega)]
      · rw [hf₂.stays hnode] at hnone
        cases hnone
  | failed kind written =>
    refine ⟨hs₂.along, Does.throw ⟨rfl, hs₂.along, fun hc ↦ ?_⟩⟩
    obtain ⟨taken, htaken⟩ := hcalm hc
    cases htaken
  | lost kind =>
    refine ⟨hnow 0, Does.throw ⟨rfl, hnow 0, fun hc ↦ ?_⟩⟩
    obtain ⟨taken, htaken⟩ := hcalm hc
    cases htaken

/-- **Taking the name**: it is free and becomes the payload's, or what stands there is the payload. -/
theorem linkOutput_does (hs₀ : f₀.Sound sha256 alone output part g row) (htwo : 2 ≤ row.phase)
    (hf : f₀.Stirred alone output f) (hheld : s.Held output part g row f₀)
    (hours : ours → alone ∧ f₀.node output = none ∧ row.phase = 2 ∨ f₀.Exact output g.content) :
    Does (world calm alone output) (Along sha256 alone output part row.phase g) s f (linkOutput sha256)
      (fun _ s' f' ↦ s' = s ∧ f'.Sound sha256 alone output part g row ∧ f'.Shows sha256 output g.content ∧
        (alone → f'.node output = some (.file part)) ∧
        ∀ node, f₀.node output = some node → f₀.Shows sha256 output g.content)
      fun _ s' f' ↦ s' = s ∧ Along sha256 alone output part row.phase g f' ∧
        (calm → ¬ours ∧ f₀.Stirred alone output f') := by
  have hpositive : 0 < row.phase := by omega
  -- with nobody else's hand in it, the folder is the same throughout
  have hsame : ours → ∀ f, f₀.Stirred alone output f → f = f₀ := by
    intro h f hf
    rcases hours h with ⟨halone, -⟩ | ⟨inode, hinode, -⟩
    · exact hf.eq_of_alone halone
    · exact hf.eq_of_node hinode
  refine Does.get (ask_does hf steady_stirred fun f₁ fate hf₁ hcalm ↦ ?_)
  rw [f₁.serve_of_looks rfl]
  have hs₁ := hs₀.stirred hf₁
  refine ⟨hs₁.along, ?_⟩
  cases hreply : (f₁.serve (.symlinkMetadata s.output) fate).1 with
  | ok fileType =>
    rw [hheld.output_eq] at hreply
    obtain ⟨node, hnode⟩ := probe_ok hreply
    have htotal : s.identity.total = s.len := by
      have hlength := hs₀.backs.complete hpositive
      have hidentity := (JobRow.identity_eq_ok.1 hheld.identity).2.2.2.2
      have hcommitted := hs₀.backs.fits.complete hpositive
      rw [hheld.len, ← hlength.1, ← hidentity, ← hcommitted]
      rfl
    have hlooks := verifyDestination_looks sha256 alone calm (τ := Store) hnode
      hheld.output_eq (by rw [hheld.len, hheld.hasher]) htotal
    refine (hlooks _ s f₁ (fun f hf ↦ by rw [hf]; exact hs₁.along) rfl).mono ?_ ?_
    · rintro - s' f' ⟨hshows, rfl, rfl⟩
      rw [hheld.hasher] at hshows
      refine ⟨rfl, hs₁, hshows, fun halone ↦ ?_, fun node hnode₀ ↦ ?_⟩
      · rcases hs₁.linked halone with ⟨hnone, -⟩ | ⟨hsome, -⟩
        · rw [hnone] at hnode
          cases hnode
        · exact hsome
      · rwa [← hf₁.eq_of_node hnode₀]
    · rintro e s' f' ⟨hexact, rfl, rfl⟩
      refine ⟨rfl, hs₁.along, fun hc ↦ ⟨fun hour ↦ hexact hc ?_, hf₁⟩⟩
      rw [hheld.hasher, hsame hour f' hf₁]
      rcases hours hour with ⟨-, hnone, -⟩ | h
      · rw [hsame hour f' hf₁, hnone] at hnode
        cases hnode
      · exact h
  | error kind =>
    rw [hheld.output_eq] at hreply
    have hfree : calm → kind = .notFound ∧ f₁.node output = none := fun hc ↦ probe_error (hcalm hc) hreply
    have hnotours : calm → ours → row.phase = 2 := fun hc hour ↦ by
      rcases hours hour with ⟨-, -, h⟩ | ⟨inode, hinode, -⟩
      · exact h
      · have hnone := (hfree hc).2
        rw [hsame hour f₁ hf₁, hinode] at hnone
        cases hnone
    by_cases hkind : kind = .notFound
    · subst hkind
      show Does _ _ _ _ (if s.phase = 2 then (io (.hardLink "payload.part" s.output) : Method Unit)
        else throw (StoreError.io .notFound)) _ _
      refine Does.ite (fun hphase ↦ ?_) fun hphase ↦ ?_
      · rw [hheld.output_eq]
        refine hardLink_does hs₀ (by rw [← hheld.phase, hphase]) hf₁ fun hc hour f₂ hf₂ ↦ ?_
        rw [hsame hour f₂ hf₂, ← hsame hour f₁ hf₁]
        exact (hfree hc).2
      · refine Does.throw ⟨rfl, hs₁.along, fun hc ↦ ⟨fun hour ↦ hphase ?_, hf₁⟩⟩
        rw [hheld.phase, hnotours hc hour]
    · have hother : Does (world calm alone output) (Along sha256 alone output part row.phase g) s f₁
          (throw (.io kind) : Method Unit) (fun _ s' f' ↦ s' = s ∧ f'.Sound sha256 alone output part g row ∧
            f'.Shows sha256 output g.content ∧ (alone → f'.node output = some (.file part)) ∧
            ∀ node, f₀.node output = some node → f₀.Shows sha256 output g.content)
          fun _ s' f' ↦ s' = s ∧ Along sha256 alone output part row.phase g f' ∧
            (calm → ¬ours ∧ f₀.Stirred alone output f') :=
        Does.throw ⟨rfl, hs₁.along, fun hc ↦ absurd (hfree hc).1 hkind⟩
      cases kind <;> first | exact hother | exact absurd rfl hkind

/-- The payload is complete, and its handle knows. -/
theorem Held.total (hheld : s.Held output part g row f₀) (hs₀ : f₀.Sound sha256 alone output part g row)
    (hpositive : 0 < row.phase) : s.identity.total = g.content.length := by
  have hidentity := (JobRow.identity_eq_ok.1 hheld.identity).2.2.2.2
  rw [← hidentity, ← hs₀.backs.fits.complete hpositive]
  exact (hs₀.backs.complete hpositive).1

theorem Held.mismatched_iff (hheld : s.Held output part g row f₀) (hs₀ : f₀.Sound sha256 alone output part g row)
    (hpositive : 0 < row.phase) : s.mismatched sha256 = false ↔ ∀ bytes ∈ row.expected, bytes = row.digest := by
  rw [mismatched, JobRow.expected_iff hheld.identity, hs₀.backs.digest, (hs₀.backs.complete hpositive).1,
    List.take_length, hheld.hasher]

/-- **The payload is what was hashed.** -/
theorem hashPart_looks (hheld : s.Held output part g row f₀) (hs₀ : f₀.Sound sha256 alone output part g row)
    (hpositive : 0 < row.phase) {ψ : StoreError → Prop} (hfault : ¬calm → ∀ e, ψ e) :
    Looks (τ := τ) calm alone output (f₀.Stirred alone output) (hashPrefix s.part s.len) (· = s.hasher) ψ := by
  have hbytes : ∀ f, f₀.Stirred alone output f → (f.files s.part).bytes = g.content := fun f hf ↦ by
    rw [hheld.part_eq, (hs₀.stirred hf).complete hpositive]
  refine (Looks.hashPrefix steady_stirred hbytes hfault hheld.len.le).mono (fun bytes h ↦ ?_) fun _ ↦ id
  rw [h, hheld.len, List.take_length, hheld.hasher]

variable (calm) in
/-- **Publishing** what is complete. -/
theorem publish_does (hs₀ : f₀.Sound sha256 alone output part g row) (htwo : 2 ≤ row.phase)
    (hheld : s.Held output part g row f₀)
    (hours : ours → alone ∧ f₀.node output = none ∧ row.phase = 2 ∨ f₀.Exact output g.content) :
    Does (world calm alone output) (Along sha256 alone output part row.phase g) s f₀ (publish sha256)
      (fun _ s' f' ↦ f'.Sound sha256 alone output part g { row with phase := 3 } ∧ f'.Shows sha256 output g.content ∧
        s'.poisoned = s.poisoned ∧ s'.Held output part g { row with phase := 3 } f' ∧
        ∀ node, f₀.node output = some node → f₀.Shows sha256 output g.content)
      fun _ s' f' ↦ s' = s ∧ Along sha256 alone output part row.phase g f' ∧
        (calm → ¬ours ∧ f₀.Stirred alone output f') := by
  have hpositive : 0 < row.phase := by omega
  have hI : ∀ f, f₀.Stirred alone output f → Along sha256 alone output part row.phase g f := fun f hf ↦
    (hs₀.stirred hf).along
  have hfault : ¬calm → StoreError → ¬calm := fun hc _ ↦ hc
  have hX : ∀ (e : StoreError) f, ¬calm → f₀.Stirred alone output f → s = s ∧
      Along sha256 alone output part row.phase g f ∧ (calm → ¬ours ∧ f₀.Stirred alone output f) := fun _ f hc hf ↦
    ⟨rfl, hI f hf, fun h ↦ absurd h hc⟩
  have hlength : ∀ f, f₀.Stirred alone output f → (f.files s.part).bytes.length = g.content.length := fun f hf ↦ by
    rw [hheld.part_eq, (hs₀.stirred hf).complete hpositive]
  refine Does.get (Looks.does (Looks.metadata steady_stirred hlength hfault) hI (.refl f₀) (fun length f hf hP ↦ ?_) hX)
  subst hf
  refine Does.failIf (fun hne ↦ absurd (hheld.total hs₀ hpositive).symm hne) fun _ ↦ ?_
  refine Looks.does (hashPart_looks hheld hs₀ hpositive hfault) hI hP (fun bytes f hbytes hP ↦ ?_) hX
  subst hbytes
  refine Does.failIf (fun hne ↦ absurd rfl hne) fun _ ↦ ?_
  refine Does.failIf (fun hmis ↦ ?_) fun _ ↦ ?_
  · rw [(hheld.mismatched_iff hs₀ hpositive).2 (hs₀.backs.matched htwo)] at hmis
    cases hmis
  refine Does.bind (linkOutput_does hs₀ htwo hP hheld hours) ?_
  rintro - s' f' ⟨rfl, hs', hshows, hlinked, hthere⟩
  have hheld' : s'.Held output part g row f' := { hheld with bytes := by rw [hs'.complete hpositive] }
  refine (record_does hs' htwo hshows hlinked hheld').mono (fun _ _ _ ⟨hs, hshows, hpoisoned, hheld⟩ ↦
    ⟨hs, hshows, hpoisoned, hheld, hthere⟩) ?_
  rintro e s'' f'' ⟨rfl, halong, hc⟩
  exact ⟨rfl, halong, fun h ↦ absurd h hc⟩

variable (calm) in
/-- The intent is recorded for a payload that is what was asked for. -/
theorem intend_does (hs₀ : f₀.Sound sha256 alone output part g row) (hone : row.phase = 1)
    (hf : f₀.Stirred alone output f) (hheld : s.Held output part g row f₀) :
    Does (world calm alone output) (Along sha256 alone output part row.phase g) s f
      (do
        let bytes ← hashPrefix s.part s.len
        Routine.failIf (sha256 bytes ≠ sha256 s.hasher) .corrupt
        Routine.failIf (s.mismatched sha256 = true) .hashMismatch
        let _ : ℕ ← db (.updatePhase 2)
        modify fun s ↦ { s with phase := 2 } : Method Unit)
      (fun _ s' f' ↦ f'.Sound sha256 alone output part g { row with phase := 2 } ∧ s'.poisoned = s.poisoned ∧
        s'.Held output part g { row with phase := 2 } f')
      fun _ s' f' ↦ s' = s ∧ Along sha256 alone output part row.phase g f' := by
  have hpositive : 0 < row.phase := by omega
  have hI : ∀ f, f₀.Stirred alone output f → Along sha256 alone output part row.phase g f := fun f hf ↦
    (hs₀.stirred hf).along
  have hforward : row.phase ≤ 2 := by omega
  refine Looks.does (hashPart_looks (ψ := fun _ ↦ True) hheld hs₀ hpositive fun _ _ ↦ trivial) hI hf
    (fun bytes f hbytes hP ↦ ?_) fun e f _ hf ↦ ⟨rfl, hI f hf⟩
  subst hbytes
  refine Does.failIf (fun hne ↦ absurd rfl hne) fun _ ↦ ?_
  refine Does.failIf (fun _ ↦ ⟨rfl, hI f hP⟩) fun hmatched ↦ ?_
  have hbacks : g.Backs sha256 output { row with phase := 2 } :=
    hs₀.backs.advance hpositive ⟨by decide, by decide⟩
      ((hheld.mismatched_iff hs₀ hpositive).1 (Bool.eq_false_iff.2 hmatched))
  have htold : ∀ f, f₀.Stirred alone output f →
      (f.update fun row ↦ { row with phase := 2 }).2.Sound sha256 alone output part g { row with phase := 2 } := by
    intro f hf
    have hs := hs₀.stirred hf
    rw [hs.update hbacks.fits.check]
    exact hs.tell hbacks hs.kept (fun _ ↦ hs.complete hpositive) hforward fun _ hthree ↦
      ((by decide : ¬(2 : ℤ) = 3) hthree).elim
  refine call_does db_eq hP steady_stirred (fun f _ hf ↦ hI f hf) (fun f _ hf ↦ ⟨_, hforward, htold f hf⟩)
    (fun f h ↦ h) (fun f _ h _ ↦ ⟨rfl, h⟩) fun f _ _ hf _ ↦ ?_
  refine ⟨htold f hf, rfl, { hheld with
    phase := rfl
    bytes := ?_
    position := fun hzero ↦ ((by decide : ¬(2 : ℤ) = 0) hzero).elim }⟩
  show ((f.update _).2.files part).bytes = g.content
  rw [Folder.update_files, (hs₀.stirred hf).complete hpositive]

/-- **Recording the intent** to publish, where the name is free. -/
theorem recordIntent_does (hs₀ : f₀.Sound sha256 alone output part g row) (hone : row.phase = 1)
    (hheld : s.Held output part g row f₀) :
    Does (world calm alone output) (Along sha256 alone output part row.phase g) s f₀ (recordIntent sha256)
      (fun _ s' f' ↦ f'.Sound sha256 alone output part g { row with phase := 2 } ∧ s'.poisoned = s.poisoned ∧
        s'.Held output part g { row with phase := 2 } f')
      fun _ s' f' ↦ s' = s ∧ Along sha256 alone output part row.phase g f' := by
  have hI : ∀ f, f₀.Stirred alone output f → Along sha256 alone output part row.phase g f := fun f hf ↦
    (hs₀.stirred hf).along
  refine Does.get (Looks.does (φ := fun _ ↦ True) (ψ := fun _ ↦ True)
    (Looks.ask rfl steady_stirred (fun _ _ _ ↦ trivial) fun _ _ ↦ trivial) hI (.refl f₀) (fun reply f _ hf ↦ ?_)
    fun _ f _ hf ↦ ⟨rfl, hI f hf⟩)
  have hrest := intend_does calm hs₀ hone hf hheld
  cases reply with
  | ok _ => exact ⟨rfl, hI f hf⟩
  | error kind => cases kind <;> first | exact hrest | exact ⟨rfl, hI f hf⟩

theorem finalizeInner_does (hs₀ : f₀.Sound sha256 alone output part g row) (hpositive : 0 < row.phase)
    (hheld : s.Held output part g row f₀)
    (hours : ours → alone ∧ f₀.node output = none ∧ row.phase = 2 ∨ f₀.Exact output g.content) :
    Does (world calm alone output) (Along sha256 alone output part row.phase g) s f₀ (finalizeInner sha256)
      (fun path s' f' ↦ path = output ∧ f'.Shows sha256 output g.content ∧ s'.poisoned = s.poisoned ∧
        (row.phase = 2 → ∀ node, f₀.node output = some node → f₀.Shows sha256 output g.content) ∧
        ∃ row' : JobRow, row'.phase = 3 ∧ f'.Sound sha256 alone output part g row' ∧ s'.Held output part g row' f')
      fun _ s' f' ↦ s'.poisoned = s.poisoned ∧ Along sha256 alone output part row.phase g f' ∧
        (row.phase = 2 → calm → ¬ours ∧ f₀.Stirred alone output f') := by
  refine Does.get ?_
  by_cases hone : s.phase = 1
  · rw [if_pos hone]
    rw [hheld.phase] at hone
    refine Does.bind ((recordIntent_does hs₀ hone hheld).mono (fun _ _ _ h ↦ h) ?_) ?_
    · rintro e s' f' ⟨rfl, halong⟩
      exact ⟨rfl, halong, by omega⟩
    rintro - s₁ f₁ ⟨hs₁, hpoisoned, hheld₁⟩
    have hforward : row.phase ≤ 2 := by omega
    have hpublish := publish_does calm hs₁ (Int.le_refl 2) hheld₁ fun h : False ↦ h.elim
    refine Does.bind ((hpublish.weaken fun f ⟨row', hle, hs⟩ ↦ ⟨row', hforward.trans hle, hs⟩).mono
      (fun _ _ _ h ↦ h) ?_) ?_
    · rintro e s' f' ⟨rfl, ⟨row', hle, hs⟩, -⟩
      exact ⟨hpoisoned, ⟨row', hforward.trans hle, hs⟩, by omega⟩
    · rintro - s' f' ⟨hs', hshows, hpoisoned', hheld', -⟩
      exact ⟨hheld.output_eq, hshows, hpoisoned'.trans hpoisoned, by omega, _, rfl, hs', hheld'⟩
  · rw [if_neg hone]
    rw [hheld.phase] at hone
    refine Does.pure_bind (Does.bind ((publish_does calm hs₀ (by omega) hheld hours).mono (fun _ _ _ h ↦ h) ?_) ?_)
    · rintro e s' f' ⟨rfl, halong, htrouble⟩
      exact ⟨rfl, halong, fun _ ↦ htrouble⟩
    · rintro - s' f' ⟨hs', hshows, hpoisoned, hheld', hthere⟩
      exact ⟨hheld.output_eq, hshows, hpoisoned, fun _ ↦ hthere, _, rfl, hs', hheld'⟩

variable (calm) in
/-- **Finalizing**: when it succeeds the output is there. A failure once publication was intended is the doing of
others, as long as no call fails. -/
theorem finalize_does (hs₀ : f₀.Sound sha256 alone output part g row)
    (hheld : s.poisoned = false → s.Held output part g row f₀)
    (hours : ours → alone ∧ f₀.node output = none ∧ row.phase = 2 ∨ f₀.Exact output g.content)
    (hcalls : ∀ e, ¬Ends (finalize sha256) s (.error e) s) :
    Does (world calm alone output) (Along sha256 alone output part row.phase g) s f₀ (finalize sha256)
      (fun path s' f' ↦ path = output ∧ f'.Shows sha256 output g.content ∧ s'.poisoned = false ∧
        (row.phase = 2 → ∀ node, f₀.node output = some node → f₀.Shows sha256 output g.content) ∧
        ∃ row' : JobRow, row'.phase = 3 ∧ f'.Sound sha256 alone output part g row' ∧ s'.Held output part g row' f')
      fun _ s' f' ↦ s'.poisoned = true ∧ Along sha256 alone output part row.phase g f' ∧
        (row.phase = 2 → calm → ¬ours ∧ f₀.Stirred alone output f') := by
  refine Does.get (Does.failIf (fun h ↦ absurd (Ends.get (Ends.refuse h)) (hcalls _)) fun hopen ↦ Does.change ?_)
  obtain ⟨hclean, hphase⟩ := not_or.1 hopen
  have hheld := hheld (Bool.eq_false_iff.2 hclean)
  have hpositive : 0 < row.phase := by
    have hrange := hs₀.backs.fits.phase
    rw [hheld.phase] at hphase
    omega
  refine Does.bind (finalizeInner_does (s := { s with poisoned := true }) hs₀ hpositive { hheld with } hours) ?_
  rintro path s' f' ⟨rfl, hshows, -, hthere, row', hthree, hs', hheld'⟩
  refine Does.change ?_
  exact ⟨rfl, hshows, rfl, hthere, row', hthree, hs', { hheld' with }⟩

end Store

end Publishing

end TransferStore

end Fhd
