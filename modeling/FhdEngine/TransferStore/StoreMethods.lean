import FhdEngine.TransferStore.StoreInvariant

/-!
# What each method of a store does

Each method is refused without a call, or it calls (`append_starts` and its like), and then a failure leaves the
handle poisoned. Whatever becomes of its calls, the folder stays sound, its row does not go back, and a handle that is
not poisoned agrees with it (`After`).
-/

namespace Fhd

namespace TransferStore

open Process (Does Ends Asks Routine Synced)

section Judgements

variable (sha256 : List UInt8 → Digest) (alone : Prop) (output : String) (part : Inode)

/-- Sound, and no further back than this phase. -/
def Along (phase : ℤ) (g : Ledger) (f : Folder) : Prop :=
  ∃ row : JobRow, phase ≤ row.phase ∧ f.Sound sha256 alone output part g row

/-- And the handle agrees with it, if it is not poisoned. -/
def After (phase : ℤ) (g : Ledger) (s : Store) (f : Folder) : Prop :=
  ∃ row : JobRow, phase ≤ row.phase ∧ f.Sound sha256 alone output part g row ∧
    (s.poisoned = false → s.Held output part g row f)

/-- Sound, with a payload like this. -/
def Folder.Loaded (φ : Synced UInt8 → Prop) (g : Ledger) (row : JobRow) (f : Folder) : Prop :=
  f.Sound sha256 alone output part g row ∧ φ (f.files part)

end Judgements

section Methods

variable {sha256 : List UInt8 → Digest} {alone calm : Prop} {output : String} {part : Inode} {g : Ledger}
  {row : JobRow} {f : Folder} {s : Store}

theorem Folder.Loaded.steady (part : Inode) (φ : Synced UInt8 → Prop) (g : Ledger) (row : JobRow) :
    Steady alone output (Folder.Loaded sha256 alone output part φ g row) := by
  rintro f f' ⟨hs, hfile⟩ hstirred
  refine ⟨hs.stirred hstirred, ?_⟩
  rw [hstirred.keeps.1 part hs.fresh]
  exact hfile

/-- A statement that keeps the constraints changes the one row. -/
theorem Folder.Sound.update (hs : f.Sound sha256 alone output part g row) {φ : JobRow → JobRow}
    (hcheck : (φ row).check = true) : f.update φ = (.ok 1, { f with job := some (φ row) }) := by
  rw [Folder.update, hs.job]
  exact if_pos hcheck

@[simp] theorem Folder.update_files (f : Folder) (φ : JobRow → JobRow) : (f.update φ).2.files = f.files := by
  rw [update]
  split
  · rfl
  · split <;> rfl

theorem Folder.Sound.along (h : f.Sound sha256 alone output part g row) : Along sha256 alone output part row.phase g f :=
  ⟨row, Int.le_refl _, h⟩

theorem Folder.Sound.mark (h : f.Sound sha256 alone output part g row) :
    f.Sound sha256 alone output part g.mark row := { h with backs := h.backs.mark }

theorem Folder.Sound.unacknowledge (h : f.Sound sha256 alone output part g.acknowledge row) (hacked : g.acked ≤ row.length) :
    f.Sound sha256 alone output part g row := { h with backs := h.backs.unacknowledge hacked }

theorem Store.Held.mark (h : s.Held output part g row f) : s.Held output part g.mark row f := { h with }

/-! ### Refusals -/

/-- A method is refused at once, and leaves the handle as it was, or it calls. -/
def Starts {α : Type} (m : Method α) (s : Store) : Prop := (∃ e, Ends m s (.error e) s) ∨ ∃ op, Asks m s op

namespace Store

theorem append_starts (bytes : List UInt8) : Starts (append bytes) s := by
  by_cases hclosed : s.poisoned = true ∨ s.phase ≠ 0
  · exact Or.inl ⟨_, Ends.get (Ends.refuse hclosed)⟩
  by_cases hoverflow : s.len + bytes.length > u64Max
  · exact Or.inl ⟨_, Ends.get (Ends.pass hclosed (Ends.refuse hoverflow))⟩
  by_cases hbeyond : s.len + bytes.length > s.identity.total
  · exact Or.inl ⟨_, Ends.get (Ends.pass hclosed (Ends.pass hoverflow (Ends.refuse hbeyond)))⟩
  · exact Or.inr ⟨.writeAll s.part s.position bytes,
      Asks.get (Asks.pass hclosed (Asks.pass hoverflow (Asks.pass hbeyond ⟨_, rfl⟩)))⟩

theorem checkpoint_starts : Starts (checkpoint sha256) s := by
  by_cases hclosed : s.poisoned = true ∨ s.phase ≠ 0
  · exact Or.inl ⟨_, Ends.get (Ends.refuse hclosed)⟩
  · exact Or.inr ⟨.syncAll s.part, Asks.get (Asks.pass hclosed ⟨_, rfl⟩)⟩

theorem rebindUrls_starts (original final : Digest) : Starts (rebindUrls original final) s := by
  by_cases hclosed : s.poisoned = true ∨ s.phase ≠ 0 ∨ s.unknownLength = true ∨ s.identity.strongEtag = none
  · exact Or.inl ⟨_, Ends.get (Ends.refuse hclosed)⟩
  · exact Or.inr ⟨.updateUrls original.toList final.toList, Asks.get (Asks.pass hclosed ⟨_, rfl⟩)⟩

theorem markTransferComplete_starts : Starts (markTransferComplete sha256) s := by
  by_cases hshort : s.unknownLength = true ∨ s.len ≠ s.identity.total
  · exact Or.inl ⟨_, Ends.get (Ends.refuse hshort)⟩
  rcases (checkpoint_starts : Starts (checkpoint sha256) s) with ⟨e, hends⟩ | ⟨op, hasks⟩
  · exact Or.inl ⟨e, Ends.get (Ends.pass hshort (Ends.bind_error hends))⟩
  · exact Or.inr ⟨op, Asks.get (Asks.pass hshort (Asks.bind hasks))⟩

theorem markUnknownTransferComplete_starts : Starts (markUnknownTransferComplete sha256) s := by
  by_cases hknown : s.unknownLength = false
  · exact Or.inl ⟨_, Ends.get (Ends.refuse hknown)⟩
  rcases (checkpoint_starts : Starts (checkpoint sha256) s) with ⟨e, hends⟩ | ⟨op, hasks⟩
  · exact Or.inl ⟨e, Ends.get (Ends.pass hknown (Ends.bind_error hends))⟩
  · exact Or.inr ⟨op, Asks.get (Asks.pass hknown (Asks.bind hasks))⟩

theorem finalize_asks (hopen : ¬(s.poisoned = true ∨ s.phase = 0)) : ∃ op, Asks (finalize sha256) s op := by
  by_cases hphase : s.phase = 1
  · refine ⟨.symlinkMetadata s.output, Asks.get (Asks.pass hopen (Asks.change (Asks.bind (Asks.get ?_))))⟩
    rw [if_pos hphase]
    exact Asks.bind ⟨_, rfl⟩
  · refine ⟨.metadata s.part, Asks.get (Asks.pass hopen (Asks.change (Asks.bind (Asks.get ?_))))⟩
    rw [if_neg hphase]
    exact Asks.after rfl (Asks.bind ⟨_, rfl⟩)

theorem finalize_starts : Starts (finalize sha256) s := by
  by_cases hclosed : s.poisoned = true ∨ s.phase = 0
  · exact Or.inl ⟨_, Ends.get (Ends.refuse hclosed)⟩
  · exact Or.inr (finalize_asks hclosed)

/-! ### Appending -/

/-- **Appending** leaves the row, and writes after all that was appended. -/
theorem append_does (hs : f.Sound sha256 alone output part g row) (hheld : s.poisoned = false → s.Held output part g row f)
    (bytes : List UInt8) (hcalls : ∀ e, ¬Ends (append bytes) s (.error e) s) :
    Does (world calm alone output) (Along sha256 alone output part row.phase g) s f (append bytes)
      (fun _ ↦ After sha256 alone output part row.phase (g.append bytes))
      fun _ s' f' ↦ s'.poisoned = true ∧ Along sha256 alone output part row.phase g f' := by
  refine Does.get (Does.failIf (fun h ↦ absurd (Ends.get (Ends.refuse h)) (hcalls _)) fun hopen ↦ ?_)
  refine Does.failIf (fun h ↦ absurd (Ends.get (Ends.pass hopen (Ends.refuse h))) (hcalls _)) fun hmax ↦ ?_
  refine Does.failIf (fun h ↦ absurd (Ends.get (Ends.pass hopen (Ends.pass hmax (Ends.refuse h)))) (hcalls _))
    fun hfits ↦ Does.change ?_
  obtain ⟨hclean, hphase⟩ := not_or.1 hopen
  have hheld := hheld (Bool.eq_false_iff.2 hclean)
  have hzero : row.phase = 0 := by
    rw [← hheld.phase]
    exact not_not.1 hphase
  have hwritten : ∀ (f : Folder) written, f.Loaded sha256 alone output part (·.bytes = g.content) g row → (f.change s.part
      (.write 0 s.position (bytes.take written))).Sound sha256 alone output part g row := by
    rintro f written ⟨hs, hbytes⟩
    rw [hheld.part_eq, hheld.position hzero]
    exact hs.change hs.backs (hs.kept.write (List.length_take_le' _ _)) (by omega)
  refine call_does io_eq ⟨hs, hheld.bytes⟩ (Folder.Loaded.steady part (·.bytes = g.content) g row)
    (fun f written hP ↦ hwritten f written hP) (fun f taken hP ↦ ?_) (fun f hs ↦ hs.along)
    (fun f kind hs _ ↦ ⟨rfl, hs.along⟩) fun f taken x hP _ ↦ ?_
  · have := hwritten f bytes.length hP
    rwa [List.take_length] at this
  · obtain ⟨hs, hbytes⟩ := hP
    have hposition : s.position = (f.files part).bytes.length := by rw [hheld.position hzero, hbytes]
    have hwrite : (f.answer taken (.writeAll s.part s.position bytes)).2 = f.change part (.write 0 s.position bytes) := by
      rw [← hheld.part_eq]
      rfl
    have hlength : (g.append bytes).content.length = g.content.length + bytes.length := List.length_append
    rw [hwrite]
    show After _ _ _ _ _ _ _ _
    refine ⟨row, Int.le_refl _, hs.change (hs.backs.append hzero bytes) ?_ (by omega), fun _ ↦
      ⟨hheld.part_eq, hheld.output_eq, hheld.identity, ?_, ?_, hheld.committed, hheld.phase, hheld.unknownLength, ?_,
        fun _ ↦ ?_, ?_⟩⟩
    · rw [Ledger.append, List.take_append_of_le_length hs.backs.covered, hheld.position hzero]
      exact hs.kept.write (List.length_take_le' _ _)
    · show s.len + bytes.length = _
      rw [hlength, hheld.len]
    · show s.hasher ++ bytes = g.content ++ bytes
      rw [hheld.hasher]
    · show (Function.update f.files part _ part).bytes = g.content ++ bytes
      rw [Function.update_self, hposition, Synced.write_bytes, hbytes]
    · show s.position + bytes.length = _
      rw [hlength, hheld.position hzero]
    · rw [hlength, ← hheld.len]
      exact Nat.le_of_not_gt hfits

/-! ### Checkpoints -/

/-- The row of a checkpoint. -/
def receipt (sha256 : List UInt8 → Digest) (g : Ledger) (row : JobRow) : JobRow :=
  { row with committed := g.content.length, digest := (sha256 g.content).toList }

/-- **A checkpoint** syncs the payload before the row tells of it. -/
theorem checkpoint_does (hs : f.Sound sha256 alone output part g row)
    (hheld : s.poisoned = false → s.Held output part g row f)
    (hcalls : ∀ e, ¬Ends (checkpoint sha256) s (.error e) s) :
    Does (world calm alone output) (Along sha256 alone output part row.phase g) s f (checkpoint sha256)
      (fun _ s' f' ↦ row.phase = 0 ∧ s.Held output part g row f ∧ s'.Held output part g (receipt sha256 g row) f' ∧
        f'.Sound sha256 alone output part g.acknowledge (receipt sha256 g row) ∧ f'.files part = ⟨g.content, none⟩)
      fun _ s' f' ↦ s'.poisoned = true ∧ Along sha256 alone output part row.phase g f' := by
  refine Does.get (Does.failIf (fun h ↦ absurd (Ends.get (Ends.refuse h)) (hcalls _)) fun hopen ↦ Does.change ?_)
  obtain ⟨hclean, hphase⟩ := not_or.1 hopen
  have h₀ := hheld (Bool.eq_false_iff.2 hclean)
  have hzero : row.phase = 0 := by
    rw [← h₀.phase]
    exact not_not.1 hphase
  have hfits : (g.content.length : ℤ) ≤ row.total := by
    obtain ⟨identity, hidentity, htotal, -⟩ := hs.backs.fits.identity
    have hle := h₀.fits
    rw [Except.ok.inj (h₀.identity.symm.trans hidentity), htotal] at hle
    have hcommitted := hs.backs.fits.committed
    omega
  have hbacks := hs.backs.receipt hzero hfits
  have hacked : g.acked ≤ (receipt sha256 g row).length := hs.backs.acked.trans hs.backs.covered
  have hreceipt : (.updateReceipt s.len (sha256 s.hasher).toList : Call) =
      .updateReceipt g.content.length (sha256 g.content).toList := by
    rw [h₀.len, h₀.hasher]
  -- the payload is synced
  have hsynced : ∀ f : Folder, f.Loaded sha256 alone output part (·.bytes = g.content) g row →
      (f.change s.part .sync).Sound sha256 alone output part g row := by
    rintro f ⟨hs, hbytes⟩
    rw [h₀.part_eq]
    exact hs.change hs.backs hs.kept.sync (by omega)
  refine call_does io_eq ⟨hs, h₀.bytes⟩ (Folder.Loaded.steady part (·.bytes = g.content) g row)
    (fun f _ hP ↦ hP.1) (fun f _ hP ↦ hsynced f hP) (fun f hs ↦ hs.along) (fun f kind hs _ ↦ ⟨rfl, hs.along⟩)
    fun f taken x hP _ ↦ ?_
  have hfile : ((f.answer taken (.syncAll s.part)).2.files part) = ⟨g.content, none⟩ := by
    show Function.update f.files s.part (f.files s.part).sync part = _
    rw [h₀.part_eq, Function.update_self, Synced.sync, hP.2]
  -- and the row tells of it
  have htold : ∀ f : Folder, f.Loaded sha256 alone output part (· = ⟨g.content, none⟩) g row →
      (f.answer taken (.updateReceipt s.len (sha256 s.hasher).toList)).2.Sound sha256 alone output part g.acknowledge
        (receipt sha256 g row) := by
    rintro f ⟨hs, hfile⟩
    rw [hreceipt]
    show (f.update _).2.Sound _ _ _ _ _ _
    rw [hs.update hbacks.fits.check]
    refine hs.tell hbacks ?_ (fun hpositive ↦ absurd hzero (ne_of_gt hpositive)) (Int.le_refl _) fun _ hthree ↦ ?_
    · rw [hfile]
      exact (Synced.keeps_sync ⟨g.content, none⟩).trans (List.take_prefix _ _)
    · exact absurd (hzero.symm.trans hthree) (by decide)
  refine call_does db_eq ⟨hsynced f hP, hfile⟩ (Folder.Loaded.steady part (· = ⟨g.content, none⟩) g row)
    (fun f _ hP ↦ hP.1.along) (fun f _ hP ↦ ?_) (fun f h ↦ h) (fun f kind h _ ↦ ⟨rfl, h⟩) fun f taken' x hP hx ↦ ?_
  · exact ⟨receipt sha256 g row, Int.le_refl _, (htold f hP).unacknowledge hacked⟩
  · have hsame : ((f.answer taken' (.updateReceipt s.len (sha256 s.hasher).toList)).2.files part) = f.files part := by
      show (f.update _).2.files part = _
      rw [Folder.update_files]
    refine ⟨hzero, h₀, ⟨h₀.part_eq, h₀.output_eq, h₀.identity, h₀.len, h₀.hasher, h₀.len,
      h₀.phase, h₀.unknownLength, ?_, h₀.position, h₀.fits⟩, htold f hP, hsame.trans hP.2⟩
    rw [hsame, hP.2]

/-! ### Other URLs -/

/-- **A rebinding** changes the two fingerprints of the row, and nothing else. -/
theorem rebindUrls_does (hs : f.Sound sha256 alone output part g row)
    (hheld : s.poisoned = false → s.Held output part g row f) (original final : Digest)
    (hcalls : ∀ e, ¬Ends (rebindUrls original final) s (.error e) s) :
    Does (world calm alone output) (Along sha256 alone output part row.phase g) s f (rebindUrls original final)
      (fun _ ↦ After sha256 alone output part row.phase g)
      fun _ s' f' ↦ s'.poisoned = true ∧ Along sha256 alone output part row.phase g f' := by
  refine Does.get (Does.failIf (fun h ↦ absurd (Ends.get (Ends.refuse h)) (hcalls _)) fun hopen ↦ Does.change ?_)
  simp only [not_or] at hopen
  obtain ⟨hclean, hphase, hlength, hetag⟩ := hopen
  have hheld := hheld (Bool.eq_false_iff.2 hclean)
  have hzero : row.phase = 0 := by
    rw [← hheld.phase]
    exact not_not.1 hphase
  have hbacks := hs.backs.urls original final
  set φ : JobRow → JobRow := fun row ↦ { row with original := original.toList, final := final.toList } with hφ
  have htold : ∀ f : Folder, f.Loaded sha256 alone output part (·.bytes = g.content) g row →
      (f.update φ).2.Sound sha256 alone output part g (φ row) := by
    rintro f ⟨hs, hfile⟩
    rw [hs.update hbacks.fits.check]
    exact hs.tell hbacks hs.kept hs.complete (Int.le_refl _) fun _ hthree ↦
      absurd (hzero.symm.trans hthree) (by decide)
  refine call_does db_eq ⟨hs, hheld.bytes⟩ (Folder.Loaded.steady part (·.bytes = g.content) g row)
    (fun f _ hP ↦ hP.1.along) (fun f _ hP ↦ ⟨φ row, Int.le_refl _, htold f hP⟩) (fun f h ↦ h) (fun f kind h _ ↦ ⟨rfl, h⟩)
    fun f taken (x : ℕ) hP hx ↦ ?_
  refine Does.failIf (fun hne ↦ ⟨rfl, φ row, Int.le_refl _, htold f hP⟩) fun _ ↦ ?_
  have hidentity : (φ row).identity = .ok { s.identity with
      originalUrlFingerprint := original, finalUrlFingerprint := final } := by
    obtain ⟨hexpected, -, -, hrest⟩ := JobRow.identity_eq_ok.1 hheld.identity
    exact JobRow.identity_eq_ok.2 ⟨hexpected, toDigest_toList original, toDigest_toList final, hrest⟩
  refine ⟨φ row, Int.le_refl _, htold f hP, fun _ ↦ ⟨hheld.part_eq, hheld.output_eq, hidentity, hheld.len,
    hheld.hasher, hheld.committed, hheld.phase, hheld.unknownLength, ?_, hheld.position, hheld.fits⟩⟩
  show ((f.update φ).2.files part).bytes = g.content
  rw [Folder.update_files, hP.2]

/-! ### Completion -/

/-- **Completion of a known length** is recorded once the row tells of every byte. -/
theorem markTransferComplete_does (hs : f.Sound sha256 alone output part g row)
    (hheld : s.poisoned = false → s.Held output part g row f)
    (hcalls : ∀ e, ¬Ends (markTransferComplete sha256) s (.error e) s) :
    Does (world calm alone output) (Along sha256 alone output part row.phase g.mark) s f (markTransferComplete sha256)
      (fun _ ↦ After sha256 alone output part row.phase g.mark.acknowledge)
      fun _ s' f' ↦ s'.poisoned = true ∧ Along sha256 alone output part row.phase g.mark f' := by
  refine Does.get (Does.failIf (fun h ↦ absurd (Ends.get (Ends.refuse h)) (hcalls _)) fun hready ↦ ?_)
  obtain ⟨hlength, hlen⟩ := not_or.1 hready
  refine Does.bind (checkpoint_does hs.mark (fun hclean ↦ (hheld hclean).mark)
    fun e hends ↦ hcalls e (Ends.get (Ends.pass hready (Ends.bind_error hends)))) ?_
  rintro - s' f' ⟨hzero, h₀, hheld, hs', hfile⟩
  refine Does.change ?_
  set row' := receipt sha256 g.mark row with hrow'
  have hlength : row'.lengthKnown ≠ some 0 := fun h ↦ hlength (h₀.unknownLength.2 h)
  have htotal : row'.committed = row'.total := by
    have hidentity := (JobRow.identity_eq_ok.1 h₀.identity).2.2.2.2
    have hcommitted := hs.backs.fits.committed
    have hlen := h₀.len.symm.trans (not_not.1 hlen)
    show ((g.mark.content.length : ℕ) : ℤ) = row.total
    omega
  have hbacks : g.mark.acknowledge.Backs sha256 output { row' with phase := 1 } :=
    hs'.backs.complete_known hzero hlength rfl htotal List.mem_cons_self
  have hforward : row.phase ≤ 1 := by omega
  have htold : ∀ f : Folder, f.Loaded sha256 alone output part (· = ⟨g.content, none⟩) g.mark.acknowledge row' →
      (f.update fun row ↦ { row with phase := 1 }).2.Sound sha256 alone output part g.mark.acknowledge
        { row' with phase := 1 } := by
    rintro f ⟨hs, hfile⟩
    rw [hs.update hbacks.fits.check]
    exact hs.tell hbacks hs.kept (fun _ ↦ hfile) hforward fun _ hthree ↦ ((by decide : ¬(1 : ℤ) = 3) hthree).elim
  have hacked : g.mark.acked ≤ row'.length := hs.backs.acked.trans hs.backs.covered
  refine call_does db_eq ⟨hs', hfile⟩ (Folder.Loaded.steady part (· = ⟨g.content, none⟩) g.mark.acknowledge row')
    (fun f _ hP ↦ ⟨row', Int.le_refl _, hP.1.unacknowledge hacked⟩) (fun f _ hP ↦ ⟨_, hforward, (htold f hP).unacknowledge hacked⟩)
    (fun f h ↦ h) (fun f kind h _ ↦ ⟨rfl, h⟩) fun f taken x hP hx ↦ ?_
  refine ⟨_, hforward, htold f hP, fun _ ↦ ⟨hheld.part_eq, hheld.output_eq, hheld.identity, hheld.len,
    hheld.hasher, hheld.committed, rfl, hheld.unknownLength, ?_,
      fun hphase ↦ ((by decide : ¬(1 : ℤ) = 0) hphase).elim, hheld.fits⟩⟩
  show ((f.update _).2.files part).bytes = g.content
  rw [Folder.update_files, hP.2]

/-- **Completion of an unknown length** makes what was received the total, in the statement that records it. -/
theorem markUnknownTransferComplete_does (hs : f.Sound sha256 alone output part g row)
    (hheld : s.poisoned = false → s.Held output part g row f)
    (hcalls : ∀ e, ¬Ends (markUnknownTransferComplete sha256) s (.error e) s) :
    Does (world calm alone output) (Along sha256 alone output part row.phase g.mark) s f
      (markUnknownTransferComplete sha256) (fun _ ↦ After sha256 alone output part row.phase g.mark.acknowledge)
      fun _ s' f' ↦ s'.poisoned = true ∧ Along sha256 alone output part row.phase g.mark f' := by
  refine Does.get (Does.failIf (fun h ↦ absurd (Ends.get (Ends.refuse h)) (hcalls _)) fun hunknown ↦ ?_)
  refine Does.bind (checkpoint_does hs.mark (fun hclean ↦ (hheld hclean).mark)
    fun e hends ↦ hcalls e (Ends.get (Ends.pass hunknown (Ends.bind_error hends)))) ?_
  rintro - s' f' ⟨hzero, h₀, hheld, hs', hfile⟩
  refine Does.change (Does.get ?_)
  set row' := receipt sha256 g.mark row with hrow'
  have hversion : row'.version = 3 := by
    have hknown : row.lengthKnown = some 0 := h₀.unknownLength.1 (Bool.of_not_eq_false hunknown)
    rcases hs.backs.fits.version with ⟨-, h⟩ | ⟨h, -⟩ | ⟨h, -⟩
    · rw [hknown] at h
      cases h
    · exact h
    · exact h
  have hbacks : g.mark.acknowledge.Backs sha256 output (Folder.completed s'.len row') := by
    rw [hheld.len]
    exact hs'.backs.complete_unknown hversion rfl rfl List.mem_cons_self
  have hforward : row.phase ≤ 1 := by omega
  have htold : ∀ f : Folder, f.Loaded sha256 alone output part (· = ⟨g.content, none⟩) g.mark.acknowledge row' →
      (f.update (Folder.completed s'.len)).2.Sound sha256 alone output part g.mark.acknowledge
        (Folder.completed s'.len row') := by
    rintro f ⟨hs, hfile⟩
    rw [hs.update hbacks.fits.check]
    exact hs.tell hbacks hs.kept (fun _ ↦ hfile) hforward fun _ hthree ↦ ((by decide : ¬(1 : ℤ) = 3) hthree).elim
  have hacked : g.mark.acked ≤ row'.length := hs.backs.acked.trans hs.backs.covered
  have hsteady : Steady alone output (Folder.Loaded sha256 alone output part (· = ⟨g.content, none⟩) g.mark.acknowledge row') :=
    Folder.Loaded.steady part _ _ _
  have halong : ∀ f : Folder, f.Loaded sha256 alone output part (· = ⟨g.content, none⟩) g.mark.acknowledge row' →
      Along sha256 alone output part row.phase g.mark f := fun f hP ↦
    ⟨row', Int.le_refl _, hP.1.unacknowledge hacked⟩
  refine call_does db_eq ⟨hs', hfile⟩ hsteady (fun f _ hP ↦ hP) (fun f _ hP ↦ hP) halong
    (fun f _ hP _ ↦ ⟨rfl, halong f hP⟩) fun f _ _ hP _ ↦ ?_
  refine call_does db_eq hP hsteady (fun f _ hP ↦ hP) (fun f taken hP ↦ ?_) halong
    (fun f _ hP _ ↦ ⟨rfl, halong f hP⟩) fun f taken (changed : ℕ) hP _ ↦ ?_
  · rwa [f.answer_of_looks rfl]
  rw [f.answer_of_looks rfl]
  refine Does.failIf (fun _ ↦ ⟨rfl, halong f hP⟩) fun _ ↦ ?_
  refine call_does db_eq hP hsteady (fun f _ hP ↦ halong f hP)
    (fun f _ hP ↦ ⟨_, hforward, (htold f hP).unacknowledge hacked⟩) (fun f h ↦ h) (fun f _ h _ ↦ ⟨rfl, h⟩)
    fun f taken x hP _ ↦ ?_
  have hidentity : (Folder.completed s'.len row').identity = .ok { s'.identity with total := s'.len } := by
    obtain ⟨hexpected, horiginal, hfinal, hetag, -⟩ := JobRow.identity_eq_ok.1 hheld.identity
    exact JobRow.identity_eq_ok.2 ⟨hexpected, horiginal, hfinal, hetag, Int.toNat_natCast _⟩
  refine ⟨_, hforward, htold f hP, fun _ ↦ ⟨hheld.part_eq, hheld.output_eq, hidentity, hheld.len, hheld.hasher,
    hheld.committed, rfl, iff_of_false Bool.false_ne_true (by decide : ¬some (1 : ℤ) = some 0), ?_,
      fun hphase ↦ ((by decide : ¬(1 : ℤ) = 0) hphase).elim, hheld.len.ge⟩⟩
  show ((f.update _).2.files part).bytes = g.content
  rw [Folder.update_files, hP.2]

end Store

end Methods

end TransferStore

end Fhd
