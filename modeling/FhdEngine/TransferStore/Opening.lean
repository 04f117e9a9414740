import FhdEngine.TransferStore.Publishing

/-!
# Creating and opening a store

Opening looks at everything first: the names, the row, the length of the payload and the hash of what the row tells
of. Only then it discards what the row does not tell of. In a sound folder every check succeeds, so opening succeeds
if no call fails, as long as nobody else put something at the output that the store has to look at.
-/

namespace Fhd

namespace TransferStore

open Process (Does Ends Asks Routine Synced)

section Opening

variable {sha256 : List UInt8 → Digest} {alone calm ours : Prop} {output : String} {part : Inode} {g : Ledger}
  {row : JobRow} {f f₀ : Folder} {s : Store} {τ : Type}

/-! ### What opening looks at -/

/-- No name of these stands for a link. -/
theorem rejectLinks_looks {P : Folder → Prop} {ψ : StoreError → Prop} (hsteady : Steady alone output P)
    (hfault : ¬calm → ∀ e, ψ e) {names : List String}
    (hnames : ∀ name ∈ names, (∀ e, ψ e) ∨ ∀ f, P f → ∃ node, f.node name = some node ∧ node ≠ .other) :
    Looks (τ := τ) calm alone output P (rejectLinks names) (fun _ ↦ True) ψ := by
  induction names with
  | nil => exact Looks.pure trivial
  | cons name names ih =>
    refine Looks.bind (φ := fun _ ↦ True) ?_ fun _ _ ↦ ih fun name h ↦ hnames name (List.mem_cons_of_mem _ h)
    rcases hnames name List.mem_cons_self with hψ | hnode
    · refine Looks.bind (Looks.call_any io_eq rfl hsteady |>.mono (fun _ h ↦ h) fun e _ ↦ hψ e) fun _ _ ↦ ?_
      exact (Looks.failIf_last fun _ ↦ hψ _).mono (fun _ _ ↦ trivial) fun _ ↦ id
    · refine Looks.bind (φ := fun fileType ↦ fileType ≠ FileType.other)
        (Looks.call io_eq rfl hsteady (fun f taken hP x hx ↦ ?_) (fun f taken hP kind hx ↦ ?_) hfault) fun _ hne ↦ ?_
      · obtain ⟨node, hnode, hne⟩ := hnode f hP
        simp only [Folder.answer, hnode] at hx
        cases hx
        cases node with
        | other => exact absurd rfl hne
        | file | directory => rintro ⟨⟩
      · obtain ⟨node, hnode, -⟩ := hnode f hP
        simp only [Folder.answer, hnode] at hx
        cases hx
      · exact (Looks.failIf_last fun h ↦ absurd h hne).mono (fun _ _ ↦ trivial) fun _ ↦ id

theorem JobRow.Fits.not_corrupt (h : row.Fits output) :
    rowCorrupt row (decide (row.lengthKnown = some 0)) = false := by
  have hphase := h.phase
  have hcommitted := h.committed
  have hcomplete := h.complete
  rcases h.version with ⟨hversion, hknown⟩ | ⟨hversion, hknown, hzero, htotal⟩ | ⟨hversion, hknown, hpositive⟩
  · simp [rowCorrupt, hversion, hknown]
    omega
  · simp [rowCorrupt, hversion, hknown, hzero, htotal]
    omega
  · simp [rowCorrupt, hversion, hknown]
    omega

/-- A folder whose database tells of this row. -/
def Folder.Tells (row : JobRow) (f : Folder) : Prop := f.job = some row ∧ (f.node "state.sqlite").isSome = true

section Rows

variable {P : Folder → Prop} {ψ : StoreError → Prop} (hsteady : Steady alone output P)
  (hP : ∀ f, P f → f.Tells row) (hfault : ¬calm → ∀ e, ψ e)

include hsteady hP hfault

theorem openDatabase_looks :
    Looks (τ := τ) calm alone output P (db (.openDatabase "state.sqlite" false)) (fun _ ↦ True) ψ := by
  refine Looks.call db_eq rfl hsteady (fun _ _ _ _ _ ↦ trivial) (fun f taken h kind hx ↦ ?_) hfault
  simp only [Folder.answer, (hP f h).2, if_true] at hx
  cases hx

theorem selectVersion_looks :
    Looks (τ := τ) calm alone output P (db .selectVersion) (fun version : ℤ ↦ version = row.version) ψ := by
  refine Looks.call db_eq rfl hsteady (fun f taken h version hx ↦ ?_) (fun f taken h kind hx ↦ ?_) hfault
  · simp only [Folder.answer, (hP f h).1] at hx
    exact (Except.ok.inj hx).symm
  · simp only [Folder.answer, (hP f h).1] at hx
    cases hx

theorem selectJob_looks :
    Looks (τ := τ) calm alone output P (db .selectJob) (fun row' : JobRow ↦ row' = row) ψ := by
  refine Looks.call db_eq rfl hsteady (fun f taken h row' hx ↦ ?_) (fun f taken h kind hx ↦ ?_) hfault
  · simp only [Folder.answer, (hP f h).1] at hx
    exact (Except.ok.inj hx).symm
  · simp only [Folder.answer, (hP f h).1] at hx
    cases hx

/-- The length is unknown as long as the row says so. -/
theorem readLengthKnown_looks (hfits : row.Fits output) :
    Looks (τ := τ) calm alone output P (readLengthKnown row.version)
      (fun unknown ↦ unknown = decide (row.lengthKnown = some 0)) ψ := by
  rw [readLengthKnown]
  have hcolumn : row.version = 3 → ∃ known, row.lengthKnown = some known ∧ (known = 0 ∨ known = 1) := by
    intro hversion
    rcases hfits.version with ⟨h, -⟩ | ⟨-, h, -⟩ | ⟨-, h, -⟩
    · omega
    · exact ⟨0, h, Or.inl rfl⟩
    · exact ⟨1, h, Or.inr rfl⟩
  split
  next hversion =>
    obtain ⟨known, hknown, hvalue⟩ := hcolumn hversion
    refine Looks.bind (φ := fun known' : ℤ ↦ known' = known) (Looks.call db_eq rfl hsteady
      (fun f taken h known' hx ↦ ?_) (fun f taken h kind hx ↦ ?_) hfault) fun known' heq ↦ ?_
    · simp only [Folder.answer, (hP f h).1, Option.bind_some, hknown] at hx
      exact (Except.ok.inj hx).symm
    · simp only [Folder.answer, (hP f h).1, Option.bind_some, hknown] at hx
      cases hx
    · subst heq
      refine Looks.failIf (fun hbad ↦ by omega) fun _ ↦ Looks.pure ?_
      rw [hknown]
      simp
  next hversion =>
    refine Looks.pure ?_
    rcases hfits.version with ⟨-, h⟩ | ⟨h, -⟩ | ⟨h, -⟩
    · rw [h]
      rfl
    · exact absurd h hversion
    · exact absurd h hversion

theorem readRow_looks (hfits : row.Fits output) :
    Looks (τ := τ) calm alone output P readRow (fun r ↦ r = (row, decide (row.lengthKnown = some 0))) ψ := by
  refine Looks.bind (openDatabase_looks hsteady hP hfault) fun _ _ ↦ ?_
  refine Looks.bind (selectVersion_looks hsteady hP hfault) fun version hversion ↦ ?_
  subst hversion
  refine Looks.failIf (fun hbad ↦ ?_) fun _ ↦ ?_
  · rcases hfits.version with ⟨h, -⟩ | ⟨h, -⟩ | ⟨h, -⟩
    · exact absurd (Or.inl h) hbad
    · exact absurd (Or.inr h) hbad
    · exact absurd (Or.inr h) hbad
  refine Looks.bind (openDatabase_looks hsteady hP hfault) fun _ _ ↦ ?_
  refine Looks.bind (selectJob_looks hsteady hP hfault) fun row' hrow ↦ ?_
  subst hrow
  refine Looks.bind (readLengthKnown_looks hsteady hP hfault hfits) fun unknown hunknown ↦ ?_
  subst hunknown
  refine Looks.failIf (fun hbad ↦ ?_) fun _ ↦ Looks.pure rfl
  rw [hfits.not_corrupt] at hbad
  cases hbad

end Rows

/-! ### What opening changes -/

/-- Only bytes the row does not tell of are discarded. -/
theorem discardTail_does {t : τ} (hs₀ : f₀.Sound sha256 alone output part g row) (hf : f₀.Stirred alone output f) :
    Does (world calm alone output) (Along sha256 alone output part row.phase g) t f (discardTail part row.length)
      (fun _ t' f' ↦ t' = t ∧ f'.Loaded sha256 alone output part (·.bytes = g.content.take row.length) g row ∧
        (0 < row.phase → f₀.Stirred alone output f'))
      fun _ _ f' ↦ Along sha256 alone output part row.phase g f' ∧ ¬calm ∧
        (0 < row.phase → f₀.Stirred alone output f') := by
  have hI : ∀ f, f₀.Stirred alone output f → Along sha256 alone output part row.phase g f := fun f hf ↦
    (hs₀.stirred hf).along
  have hfile : ∀ f, f₀.Stirred alone output f → f.files part = f₀.files part := fun f hf ↦
    hf.keeps.1 part hs₀.fresh
  have hbase : (g.content.take row.length).length = row.length := by
    rw [List.length_take, min_eq_left hs₀.backs.covered]
  refine Looks.does (ψ := fun _ ↦ ¬calm) (Looks.metadata steady_stirred (fun f hf ↦ by rw [hfile f hf]) fun h _ ↦ h)
    hI hf (fun length f hlength hf ↦ ?_) fun _ f hc hf ↦ ⟨hI f hf, hc, fun _ ↦ hf⟩
  subst hlength
  obtain ⟨tail, htail⟩ := hs₀.kept.starts
  refine Does.ite (fun hne ↦ ?_) fun heq ↦ ?_
  · have hzero : ¬0 < row.phase := fun hpositive ↦ hne (by
      rw [hs₀.complete hpositive]
      exact (hs₀.backs.complete hpositive).1.symm)
    have hcut : ∀ f, f₀.Stirred alone output f →
        (f.change part (.setLen 0 row.length)).Sound sha256 alone output part g row := fun f hf ↦
      (hs₀.stirred hf).change hs₀.backs ((hs₀.stirred hf).kept.setLen hbase.le) fun h ↦ absurd h hzero
    have hbytes : (Synced.setLen (0 : UInt8) row.length (f₀.files part)).bytes = g.content.take row.length := by
      have hle : row.length ≤ (f₀.files part).bytes.length := by
        rw [← hbase]
        exact hs₀.kept.starts.length_le
      rw [Synced.setLen_bytes hle, ← htail]
      exact List.take_left' hbase
    refine call_does io_eq hf steady_stirred (fun f _ hf ↦ hI f hf) (fun f _ hf ↦ (hcut f hf).along) (fun f h ↦ h)
      (fun f kind h hc ↦ ⟨h, fun hcalm ↦ ?_, fun h ↦ absurd h hzero⟩) fun f taken x hf _ ↦ ?_
    · obtain ⟨f, taken, kind, -, hrefused⟩ := hc hcalm
      cases hrefused
    have hloaded : (f.change part (.setLen 0 row.length)).Loaded sha256 alone output part
        (·.bytes = g.content.take row.length) g row := by
      refine ⟨hcut f hf, ?_⟩
      show (Function.update f.files part ((f.files part).setLen 0 row.length) part).bytes = _
      rw [Function.update_self, hfile f hf, hbytes]
    have hsynced : ∀ f : Folder, f.Loaded sha256 alone output part (·.bytes = g.content.take row.length) g row →
        (f.change part .sync).Loaded sha256 alone output part (·.bytes = g.content.take row.length) g row := by
      rintro f ⟨hs, hbytes⟩
      refine ⟨hs.change hs.backs hs.kept.sync fun h ↦ absurd h hzero, ?_⟩
      show (Function.update f.files part (f.files part).sync part).bytes = _
      rw [Function.update_self]
      exact hbytes
    refine call_last io_eq hloaded (Folder.Loaded.steady part (·.bytes = g.content.take row.length) g row)
      (fun f _ h ↦ h.1.along) (fun f _ h ↦ (hsynced f h).1.along) (fun f h ↦ h)
      (fun f kind h hc ↦ ⟨h, fun hcalm ↦ ?_, fun h ↦ absurd h hzero⟩) fun f taken x h _ ↦
      ⟨rfl, hsynced f h, fun h ↦ absurd h hzero⟩
    obtain ⟨f, taken, kind, -, hrefused⟩ := hc hcalm
    cases hrefused
  · refine ⟨rfl, ⟨hs₀.stirred hf, ?_⟩, fun _ ↦ hf⟩
    show (f.files part).bytes = _
    rw [hfile f hf, ← htail]
    have hlength := congrArg List.length htail
    rw [List.length_append, hbase, not_not.1 heq] at hlength
    rw [List.eq_nil_of_length_eq_zero (by omega : tail.length = 0), List.append_nil]

theorem checkLength_looks {P : Folder → Prop} {ψ : StoreError → Prop} (hsteady : Steady alone output P)
    (hfault : ¬calm → ∀ e, ψ e) {file : Synced UInt8} (hfile : ∀ f, P f → f.files part = file) {committed : ℕ} {phase : ℤ}
    (hlength : committed ≤ file.bytes.length) (hcomplete : 0 < phase → file.bytes.length = committed) :
    Looks (τ := τ) calm alone output P (checkLength part committed phase) (fun _ ↦ True) ψ := by
  have hmetadata := Looks.metadata (τ := τ) hsteady (fun f hf ↦ by rw [hfile f hf]) hfault
  refine Looks.bind hmetadata fun length hlen ↦ ?_
  subst hlen
  refine Looks.failIf (fun hlt ↦ absurd hlength (Nat.not_le_of_gt hlt)) fun _ ↦ ?_
  split
  next hpositive =>
    refine Looks.bind hmetadata fun length hlen ↦ ?_
    subst hlen
    exact (Looks.failIf_last fun hne ↦ absurd (hcomplete hpositive) hne).mono (fun _ _ ↦ trivial) fun _ ↦ id
  · exact Looks.pure trivial

/-- A folder that was opened: what the row does not tell of is gone from its ledger. -/
theorem Folder.Sound.cut (h : f.Sound sha256 alone output part g row) :
    f.Sound sha256 alone output part (g.cut row.length) row := by
  refine { h with backs := h.backs.cut, kept := ?_, complete := fun hpositive ↦ ?_ }
  · rw [Ledger.cut, List.take_take, min_self]
    exact h.kept
  · rw [Ledger.cut, (h.backs.complete hpositive).1, List.take_length]
    exact h.complete hpositive

/-- **The payload is opened**: everything checks, and the handle stands where the row says. -/
theorem openPayload_does {t : τ} (hs₀ : f₀.Sound sha256 alone output part g row) (hf : f₀.Stirred alone output f)
    (hours : ours → alone ∧ f₀.node output = none ∧ row.phase ≠ 3 ∨ f₀.Exact output g.content) :
    Does (world calm alone output) (Along sha256 alone output part row.phase g) t f
      (openPayload sha256 row (decide (row.lengthKnown = some 0)) : StoreM τ Store)
      (fun s _ f' ↦ f'.Sound sha256 alone output part (g.cut row.length) row ∧
        s.Held output part (g.cut row.length) row f' ∧ (s.poisoned = true ↔ row.lengthKnown = some 0) ∧
        (0 < row.phase → f₀.Stirred alone output f'))
      fun _ _ f' ↦ Along sha256 alone output part row.phase g f' ∧ (calm → ¬ours) ∧
        (0 < row.phase → f₀.Stirred alone output f') := by
  have hI : ∀ f, f₀.Stirred alone output f → Along sha256 alone output part row.phase g f := fun f hf ↦
    (hs₀.stirred hf).along
  have hX : ∀ (e : StoreError) f, ¬calm → f₀.Stirred alone output f →
      Along sha256 alone output part row.phase g f ∧ (calm → ¬ours) ∧
        (0 < row.phase → f₀.Stirred alone output f) := fun _ f hc hf ↦ ⟨hI f hf, fun h ↦ absurd h hc, fun _ ↦ hf⟩
  have hfault : ¬calm → StoreError → ¬calm := fun hc _ ↦ hc
  have hfile : ∀ f, f₀.Stirred alone output f → f.files part = f₀.files part := fun f hf ↦
    hf.keeps.1 part hs₀.fresh
  obtain ⟨identity, hidentity, htotal, -⟩ := hs₀.backs.fits.identity
  rw [openPayload, hidentity, hs₀.backs.fits.output_eq]
  refine Does.ofExcept nofun fun identity' h ↦ ?_
  cases h
  rw [hs₀.backs.fits.validateIdentity hidentity]
  refine Does.ofExcept nofun fun _ _ ↦ ?_
  rw [hs₀.backs.fits.name]
  refine Does.ofExcept nofun fun _ _ ↦ ?_
  refine Looks.does (Looks.openOptions steady_stirred (fun f hf ↦ (hs₀.stirred hf).payload) hfault) hI hf
    (fun part' f hpart hf ↦ ?_) hX
  subst hpart
  have hstarts := hs₀.kept.starts
  have hbase : (g.content.take row.length).length = row.length := by
    rw [List.length_take, min_eq_left hs₀.backs.covered]
  have hle : row.length ≤ (f₀.files part').bytes.length := by
    rw [← hbase]
    exact hstarts.length_le
  refine Looks.does (checkLength_looks steady_stirred hfault hfile hle fun hpositive ↦ ?_) hI hf (fun _ f _ hf ↦ ?_) hX
  · rw [hs₀.complete hpositive]
    exact (hs₀.backs.complete hpositive).1.symm
  refine Looks.does (Looks.hashPrefix steady_stirred (fun f hf ↦ by rw [hfile f hf]) hfault hle) hI hf
    (fun hasher f hhasher hf ↦ ?_) hX
  have hhash : hasher = g.content.take row.length := by
    obtain ⟨tail, htail⟩ := hstarts
    rw [hhasher, ← htail]
    exact List.take_left' hbase
  subst hhash
  refine Does.failIf (fun hne ↦ absurd hs₀.backs.digest.symm hne) fun _ ↦ ?_
  refine Does.bind ((discardTail_does hs₀ hf).mono (fun _ _ _ h ↦ h) ?_) ?_
  · rintro e t' f' ⟨halong, hc, hunchanged⟩
    exact ⟨halong, fun h ↦ absurd h hc, hunchanged⟩
  rintro - t' f' ⟨rfl, hloaded, hunchanged⟩
  set P : Folder → Prop := fun f ↦ f.Loaded sha256 alone output part' (·.bytes = g.content.take row.length) g row ∧
    (0 < row.phase → f₀.Stirred alone output f) with hP
  have hsteady : Steady alone output P := fun f f' h hstirred ↦
    ⟨Folder.Loaded.steady part' (·.bytes = g.content.take row.length) g row f f' h.1 hstirred,
      fun hpositive ↦ (h.2 hpositive).trans hstirred⟩
  have hI₂ : ∀ f, P f → Along sha256 alone output part' row.phase g f := fun f h ↦ h.1.1.along
  refine Looks.does (φ := fun _ ↦ True) (ψ := fun _ ↦ ¬calm) (Looks.call io_eq rfl hsteady (fun _ _ _ _ _ ↦ trivial)
    (fun _ _ _ _ h ↦ by cases h) fun hc _ ↦ hc) hI₂ ⟨hloaded, hunchanged⟩ (fun _ f _ h ↦ ?_) fun _ f hc h ↦
    ⟨hI₂ f h, fun h ↦ absurd h hc, h.2⟩
  extract_lets store
  have hheld : ∀ f, P f → store.Held output part' (g.cut row.length) row f := by
    intro f h
    refine ⟨rfl, rfl, hidentity, hbase.symm, rfl, rfl, rfl, decide_eq_true_iff, h.1.2, fun _ ↦ hbase.symm, ?_⟩
    have hcommitted := hs₀.backs.fits.committed
    show (g.content.take row.length).length ≤ identity.total
    rw [hbase, htotal, JobRow.length]
    omega
  have hdone : ∀ f, P f → f.Sound sha256 alone output part' (g.cut row.length) row ∧
      store.Held output part' (g.cut row.length) row f ∧ (store.poisoned = true ↔ row.lengthKnown = some 0) ∧
      (0 < row.phase → f₀.Stirred alone output f) := fun f h ↦
    ⟨h.1.1.cut, hheld f h, decide_eq_true_iff, h.2⟩
  -- a published output is looked at again
  have hverify : Looks (τ := τ) calm alone output P (if row.phase = 3 then store.verifyDestination sha256 else pure ())
      (fun _ ↦ True) fun _ ↦ calm → ¬ours := by
    split
    next hthree =>
      have hpositive : 0 < row.phase := by omega
      by_cases hour : ours
      · obtain ⟨inode, hnode, hbytes⟩ : f₀.Exact output g.content := by
          rcases hours hour with ⟨-, -, hne⟩ | hexact
          · exact absurd hthree hne
          · exact hexact
        have hsame : ∀ f, P f → f = f₀ := fun f h ↦ (h.2 hpositive).eq_of_node hnode
        have hPeq : P = (· = f₀) := funext fun f₁ ↦ propext ⟨hsame f₁, fun heq ↦ by rw [heq, ← hsame f h]; exact h⟩
        have hlength := (hs₀.backs.complete hpositive).1
        have hcontent : store.hasher = g.content := by
          show g.content.take row.length = g.content
          rw [hlength, List.take_length]
        have htotal' : store.identity.total = store.len := by
          show identity.total = row.length
          rw [htotal, JobRow.length, hs₀.backs.fits.complete hpositive]
        rw [hPeq]
        refine (verifyDestination_looks sha256 alone calm (s := store) hnode rfl (by rw [hcontent]; exact hlength) htotal').mono
          (fun _ _ ↦ trivial) fun _ hnot hc _ ↦ hnot hc ?_
        rw [hcontent]
        exact ⟨inode, hnode, hbytes⟩
      · exact (Looks.verifyDestination_any hsteady).mono (fun _ _ ↦ trivial) fun _ _ _ ↦ hour
    · exact Looks.pure trivial
  exact Looks.does hverify hI₂ h (fun _ f _ h ↦ hdone f h) fun _ f hc h ↦ ⟨hI₂ f h, hc, h.2⟩

variable (calm) in
/-- **Opening** a sound folder. -/
theorem openStore_does {t : τ} (hs₀ : f₀.Sound sha256 alone output part g row)
    (hours : ours → alone ∧ f₀.node output = none ∧ row.phase ≠ 3 ∨ f₀.Exact output g.content) :
    Does (world calm alone output) (Along sha256 alone output part row.phase g) t f₀
      (openStore sha256 : StoreM τ Store)
      (fun s _ f' ↦ f'.Sound sha256 alone output part (g.cut row.length) row ∧
        s.Held output part (g.cut row.length) row f' ∧ (s.poisoned = true ↔ row.lengthKnown = some 0) ∧
        (0 < row.phase → f₀.Stirred alone output f'))
      fun _ _ f' ↦ Along sha256 alone output part row.phase g f' ∧ (calm → ¬ours) ∧
        (0 < row.phase → f₀.Stirred alone output f') := by
  have hI : ∀ f, f₀.Stirred alone output f → Along sha256 alone output part row.phase g f := fun f hf ↦
    (hs₀.stirred hf).along
  have hX : ∀ (e : StoreError) f, (calm → ¬ours) → f₀.Stirred alone output f →
      Along sha256 alone output part row.phase g f ∧ (calm → ¬ours) ∧
        (0 < row.phase → f₀.Stirred alone output f) := fun _ f h hf ↦ ⟨hI f hf, h, fun _ ↦ hf⟩
  have hfault : ¬calm → StoreError → calm → ¬ours := fun hc _ h ↦ absurd h hc
  have hown : ∀ name ∈ ownNames, ∃ inode, ∀ f, f₀.Stirred alone output f → f.node name = some (.file inode) := by
    intro name hname
    obtain ⟨inode, hinode⟩ := hs₀.own name hname
    exact ⟨inode, fun f hf ↦ hf.stays hinode⟩
  have hsame : ours → ∀ f, f₀.Stirred alone output f → f = f₀ := by
    intro h f hf
    rcases hours h with ⟨halone, -⟩ | ⟨inode, hinode, -⟩
    · exact hf.eq_of_alone halone
    · exact hf.eq_of_node hinode
  have hdir : Looks (τ := τ) calm alone output (f₀.Stirred alone output) (io .readDir)
      (fun names : List String ↦ ours → names = f₀.entries.map (·.1)) fun _ ↦ calm → ¬ours := by
    refine Looks.call io_eq rfl steady_stirred (fun f _ hf names h hour ↦ ?_) (fun _ _ _ _ h ↦ ?_) hfault
    · cases h
      rw [hsame hour f hf]
    · cases h
  have hnone : ∀ names : List String, (ours → names = f₀.entries.map (·.1)) → ∀ name ∈ names,
      (∀ _ : StoreError, calm → ¬ours) ∨
        ∀ f, f₀.Stirred alone output f → ∃ node, f.node name = some node ∧ node ≠ .other := by
    intro names hnames name hname
    by_cases hour : ours
    · right
      intro f hf
      rw [hnames hour] at hname
      obtain ⟨node, hnode⟩ := Folder.node_of_mem hname
      refine ⟨node, hf.stays hnode, ?_⟩
      rintro rfl
      obtain ⟨hothers, rfl⟩ := hs₀.strange name hnode
      rcases hours hour with ⟨halone, -⟩ | ⟨inode, hinode, -⟩
      · exact hothers halone
      · cases hnode.symm.trans hinode
    · exact Or.inl fun _ _ ↦ hour
  refine Looks.does (φ := fun _ ↦ True) (Looks.call io_eq rfl steady_stirred (fun _ _ _ _ _ ↦ trivial)
    (fun _ _ _ _ h ↦ by cases h) hfault) hI (.refl f₀) (fun _ f _ hf ↦ ?_) hX
  refine Looks.does hdir hI hf (fun names f hnames hf ↦ ?_) hX
  refine Looks.does (rejectLinks_looks steady_stirred hfault (hnone names hnames)) hI hf (fun _ f _ hf ↦ ?_) hX
  obtain ⟨lock, hlock⟩ := hown "owner.lock" (by simp [ownNames])
  obtain ⟨database, hdatabase⟩ := hown "state.sqlite" (by simp [ownNames])
  have hfile : ∀ inode : Inode, (∀ i, Node.file inode ≠ .file i) → ∀ _ : StoreError, calm → ¬ours := fun inode h ↦
    absurd rfl (h inode)
  refine Looks.does (Looks.requireFile steady_stirred hlock (hfile lock) hfault) hI hf (fun _ f _ hf ↦ ?_) hX
  refine Looks.does (Looks.requireFile steady_stirred hdatabase (hfile database) hfault) hI hf (fun _ f _ hf ↦ ?_) hX
  refine Looks.does (Looks.requireFile steady_stirred (fun f hf ↦ (hs₀.stirred hf).payload) (hfile part) hfault) hI hf
    (fun _ f _ hf ↦ ?_) hX
  refine Looks.does (Looks.openOptions steady_stirred hlock hfault) hI hf (fun _ f _ hf ↦ ?_) hX
  refine Looks.does (Looks.tryLock steady_stirred hfault) hI hf (fun _ f _ hf ↦ ?_) hX
  have htells : ∀ f, f₀.Stirred alone output f → f.Tells row := fun f hf ↦
    ⟨(hs₀.stirred hf).job, by rw [hdatabase f hf]; rfl⟩
  refine Looks.does (readRow_looks steady_stirred htells hfault hs₀.backs.fits) hI hf (fun r f hr hf ↦ ?_) hX
  subst hr
  exact openPayload_does hs₀ hf hours

/-! ### Creating -/

/-- **A folder in the making**, with the names the store has made so far, and the row once it is there. -/
structure Folder.Begun (alone : Prop) (output : String) (saved : Option JobRow) (made : List (String × Inode))
    (f : Folder) : Prop where
  own : ∀ e ∈ made, f.node e.1 = some (.file e.2) ∧ e.2 < f.fresh
  free : ∀ name ∈ ownNames, name ∉ made.map Prod.fst → f.node name = none
  strange : ∀ name, f.node name = some .other → ¬alone ∧ name = output
  clean : alone → f.node output = none
  unmade : ∀ inode, (output, inode) ∉ f.made
  empty : ∀ inode, ("payload.part", inode) ∈ made → (f.files inode).bytes = []
  job : f.job = saved

section Creating

variable {made : List (String × Inode)} {saved : Option JobRow} (houtput : validateName output = .ok ())

include houtput in
theorem Folder.Begun.steady (saved : Option JobRow) (made : List (String × Inode)) :
    Steady alone output (Folder.Begun alone output saved made) := by
  intro f f' h hstirred
  obtain ⟨hfiles, hfresh, hjob, -, hghost⟩ := hstirred.keeps
  refine ⟨fun e he ↦ ?_, fun name hname hnot ↦ ?_, fun name hname ↦ ?_, fun halone ↦ ?_, ?_, fun inode hinode ↦ ?_,
    hjob.trans h.job⟩
  · exact ⟨hstirred.stays (h.own e he).1, Nat.lt_of_lt_of_le (h.own e he).2 hfresh⟩
  · rw [hstirred.node_of_ne (ne_of_validateName houtput hname)]
    exact h.free name hname hnot
  · by_cases hne : name = output
    · refine ⟨fun halone ↦ ?_, hne⟩
      rw [hstirred.eq_of_alone halone] at hname
      exact (h.strange name hname).1 halone
    · rw [hstirred.node_of_ne hne] at hname
      exact h.strange name hname
  · rw [hstirred.eq_of_alone halone]
    exact h.clean halone
  · rw [hghost]
    exact h.unmade
  · rw [hfiles inode (h.own _ hinode).2]
    exact h.empty inode hinode

include houtput in
/-- One more name. -/
theorem Folder.Begun.create (h : f.Begun alone output saved made) {name : String} (hname : name ∈ ownNames)
    (hnew : name ∉ made.map Prod.fst) : (f.create name).Begun alone output saved (made ++ [(name, f.fresh)]) := by
  have hfree := h.free name hname hnew
  have hne := ne_of_validateName houtput hname
  have hother : ∀ q, q ≠ name → (f.create name).node q = f.node q := fun q hq ↦ link_node_of_ne hq
  refine ⟨fun e he ↦ ?_, fun q hq hnot ↦ ?_, fun q hq ↦ ?_, fun halone ↦ ?_, fun inode hinode ↦ ?_,
    fun inode hinode ↦ ?_, h.job⟩
  · rcases List.mem_append.1 he with he | he
    · obtain ⟨hnode, hlt⟩ := h.own e he
      exact ⟨link_node_of_some hnode _, Nat.lt_succ_of_lt hlt⟩
    · obtain rfl := List.mem_singleton.1 he
      exact ⟨link_node_self hfree, Nat.lt_succ_self _⟩
  · rw [List.map_append, List.mem_append, not_or] at hnot
    rw [hother q fun heq ↦ hnot.2 (by rw [heq]; exact List.mem_singleton_self _)]
    exact h.free q hq hnot.1
  · by_cases heq : q = name
    · subst heq
      cases (link_node_self hfree).symm.trans hq
    · exact h.strange q (hother q heq ▸ hq)
  · rw [hother output hne.symm]
    exact h.clean halone
  · rcases List.mem_append.1 hinode with hbefore | hnow
    · exact h.unmade inode hbefore
    · cases List.mem_singleton.1 hnow
      exact hne rfl
  · show (Function.update f.files f.fresh .empty inode).bytes = []
    rcases List.mem_append.1 hinode with hbefore | hnow
    · rw [Function.update_of_ne (Nat.ne_of_lt (h.own _ hbefore).2)]
      exact h.empty inode hbefore
    · cases List.mem_singleton.1 hnow
      rw [Function.update_self]
      rfl

/-- Nothing was appended yet. -/
def Ledger.nothing (unknown : Bool) : Ledger := ⟨[], 0, [], unknown⟩

variable (sha256) in
/-- **The row of a new store** is one a store accepts. -/
theorem newRow_backs {identity : Identity} (hname : validateName output = .ok ())
    (hidentity : validateIdentity identity = .ok ()) {unknown : Bool} (hunknown : unknown = true → identity.total ≠ 0) :
    (Ledger.nothing unknown).Backs sha256 output (newRow sha256 identity output unknown) := by
  rw [TransferStore.validateIdentity] at hidentity
  split at hidentity
  · cases hidentity
  next hvalid =>
  obtain ⟨htotal, hetag⟩ := not_or.1 hvalid
  have hphase : (newRow sha256 identity output unknown).phase = 0 := rfl
  have hfits : (newRow sha256 identity output unknown).Fits output :=
    { version := by
        cases unknown with
        | false => exact Or.inl ⟨rfl, rfl⟩
        | true => exact Or.inr (Or.inl ⟨rfl, rfl, rfl, Int.natCast_ne_zero.2 (hunknown rfl)⟩)
      original := by simp [newRow]
      final := by simp [newRow]
      etag := Bool.eq_false_iff.2 hetag
      total := by
        show (identity.total : ℤ) ≤ i64Max
        omega
      expected := by
        intro bytes hbytes
        obtain ⟨digest, -, rfl⟩ := Option.map_eq_some_iff.1 hbytes
        simp
      output_eq := rfl
      name := hname
      committed := ⟨Int.le_refl _, Int.natCast_nonneg _⟩
      digest := by simp [newRow]
      phase := by omega
      complete := by omega }
  refine ⟨hfits, rfl, Nat.le_refl _, Nat.le_refl _, by omega, ?_, by omega⟩
  cases unknown with
  | false => exact iff_of_false Bool.false_ne_true (by decide : ¬(2 : ℤ) = 3)
  | true => exact iff_of_true rfl rfl

theorem newRow_identity (identity : Identity) (unknown : Bool) :
    (newRow sha256 identity output unknown).identity = .ok identity := by
  refine JobRow.identity_eq_ok.2 ⟨?_, toDigest_toList _, toDigest_toList _, rfl, rfl⟩
  show (identity.expectedSha256.map Vector.toList).mapM toDigest = _
  cases identity.expectedSha256 with
  | none => rfl
  | some digest =>
    rw [Option.map_some, Option.mapM_some, toDigest_toList]
    rfl

/-- A call of a creation, of which nothing is asked should it fail. -/
theorem making_does {β : Type} {t : τ} {op : Call} {err : ErrorKind → StoreError} {x : StoreM τ (TransferStore.Output op)}
    {k : TransferStore.Output op → StoreM τ β} {Q : β → τ → Folder → Prop} {P : Folder → Prop} (hx : x = called err op)
    (hP : P f) (hsteady : Steady alone output P)
    (hok : ∀ f taken x, P f → (f.answer taken op).1 = .ok x →
      Does (world calm alone output) (fun _ ↦ True) t (f.answer taken op).2 (k x) Q fun _ _ _ ↦ True) :
    Does (world calm alone output) (fun _ ↦ True) t f (x >>= k) Q fun _ _ _ ↦ True :=
  call_does (R := fun _ ↦ True) hx hP hsteady (fun _ _ _ ↦ trivial) (fun _ _ _ ↦ trivial) (fun _ _ ↦ trivial)
    (fun _ _ _ _ ↦ trivial) hok

theorem open_new (h : f.Begun alone output saved made) (name : String) (hname : name ∈ ownNames)
    (hnew : name ∉ made.map Prod.fst) (taken : ℕ) :
    f.answer taken (.openOptions name true) = (.ok f.fresh, f.create name) := by
  simp only [Folder.answer, h.free name hname hnew, if_true]

theorem database_new (h : f.Begun alone output saved made) (hnew : "state.sqlite" ∉ made.map Prod.fst) (taken : ℕ) :
    f.answer taken (.openDatabase "state.sqlite" true) = (.ok (), f.create "state.sqlite") := by
  simp [Folder.answer, h.free "state.sqlite" (by simp [ownNames]) hnew]

theorem Folder.Begun.change (h : f.Begun alone output saved made) (inode : Inode) (φ : Synced UInt8 → Synced UInt8)
    (hφ : ∀ file, (φ file).bytes = file.bytes) : (f.change inode φ).Begun alone output saved made := by
  refine { h with empty := fun i hi ↦ ?_ }
  show (Function.update f.files inode (φ (f.files inode)) i).bytes = []
  by_cases heq : i = inode
  · subst heq
    rw [Function.update_self, hφ]
    exact h.empty i hi
  · rw [Function.update_of_ne heq]
    exact h.empty i hi

/-- Once everything is made and synced. -/
theorem Folder.Begun.finished {identity : Identity} {unknown : Bool} {lock database : Inode}
    (h : f.Begun alone output (some (newRow sha256 identity output unknown))
      [("owner.lock", lock), ("payload.part", part), ("state.sqlite", database)])
    (hbacks : (Ledger.nothing unknown).Backs sha256 output (newRow sha256 identity output unknown)) :
    ({ f with settled := f.entries.map (·.1) } : Folder).Sound sha256 alone output part (Ledger.nothing unknown)
        (newRow sha256 identity output unknown) ∧
      Store.Held output part (Ledger.nothing unknown) (newRow sha256 identity output unknown)
        { part := part, identity := identity, output := output, unknownLength := unknown, position := 0, len := 0,
          committed := 0, phase := 0, hasher := [], poisoned := false }
        { f with settled := f.entries.map (·.1) } := by
  have hphase : (newRow sha256 identity output unknown).phase = 0 := rfl
  have hpart : ("payload.part", part) ∈ [("owner.lock", lock), ("payload.part", part), ("state.sqlite", database)] :=
    List.mem_cons_of_mem _ List.mem_cons_self
  have hown : ∀ name ∈ ownNames, ∃ inode, f.node name = some (.file inode) := by
    intro name hname
    rcases List.mem_cons.1 hname with rfl | hname
    · exact ⟨lock, (h.own ("owner.lock", lock) List.mem_cons_self).1⟩
    rcases List.mem_cons.1 hname with rfl | hname
    · exact ⟨database, (h.own ("state.sqlite", database) (by simp)).1⟩
    · obtain rfl := List.mem_singleton.1 hname
      exact ⟨part, (h.own _ hpart).1⟩
  constructor
  · refine ⟨hbacks, h.job, hown, (h.own _ hpart).1, fun name hname ↦ ?_, h.strange, fun halone ↦
      Or.inl ⟨h.clean halone, by omega⟩, by omega, (h.own _ hpart).2, Synced.keeps_nil, by omega, fun inode hinode ↦
      absurd hinode (h.unmade inode)⟩
    obtain ⟨inode, hinode⟩ := hown name hname
    exact Folder.mem_of_node hinode
  · refine ⟨rfl, rfl, newRow_identity identity unknown, rfl, rfl, rfl, rfl, ?_, h.empty part hpart, fun _ ↦ rfl,
      Nat.zero_le _⟩
    cases unknown with
    | false => exact iff_of_false Bool.false_ne_true nofun
    | true => exact iff_of_true rfl rfl

/-- **A new store** is sound, and nothing was appended to it. -/
theorem createInner_does {t : τ} {identity : Identity} {unknown : Bool} (h₀ : f₀.Begun alone output none [])
    (hunknown : unknown = true → identity.total ≠ 0) :
    Does (world calm alone output) (fun _ ↦ True) t f₀ (createInner sha256 identity output unknown : StoreM τ Store)
      (fun s _ f' ↦ f'.Sound sha256 alone output s.part (Ledger.nothing unknown) (newRow sha256 identity output unknown) ∧
        s.Held output s.part (Ledger.nothing unknown) (newRow sha256 identity output unknown) f')
      fun _ _ _ ↦ True := by
  refine Does.ofExcept (fun _ _ ↦ trivial) fun _ hname ↦ ?_
  refine Does.ofExcept (fun _ _ ↦ trivial) fun _ hidentity ↦ ?_
  have hsteady : ∀ saved made, Steady alone output (Folder.Begun alone output saved made) := Folder.Begun.steady hname
  refine making_does io_eq h₀ (hsteady none []) fun f _ _ h _ ↦ ?_
  refine making_does io_eq h (hsteady none []) fun f taken _ h _ ↦ ?_
  have h₁ : (f.answer taken .createDir).2.Begun alone output none [] := by
    simp only [Folder.answer]
    split
    · exact h
    · exact { h with }
  refine making_does io_eq h₁ (hsteady none []) fun f taken lock h hlock ↦ ?_
  have hlock' := open_new h "owner.lock" (by simp [ownNames]) (by simp) taken
  rw [hlock'] at hlock ⊢
  cases hlock
  have h := h.create hname (by simp [ownNames] : "owner.lock" ∈ ownNames) (by simp)
  refine Looks.does (ψ := fun _ ↦ True) (Looks.tryLock (hsteady none _) fun _ _ ↦ trivial) (fun _ _ ↦ trivial) h
    (fun _ f₁ _ h ↦ ?_) fun _ _ _ _ ↦ trivial
  refine making_does io_eq h (hsteady none _) fun f₂ taken part h hpart ↦ ?_
  have hpart' := open_new h "payload.part" (by simp [ownNames]) (by simp) taken
  rw [hpart'] at hpart ⊢
  cases hpart
  have h := h.create hname (by simp [ownNames] : "payload.part" ∈ ownNames) (by simp)
  generalize f.fresh = lock at h
  generalize f₂.fresh = part at h
  refine making_does io_eq h (hsteady none _) fun f₃ taken _ h _ ↦ ?_
  have h₃ := h.change part .sync fun file ↦ rfl
  refine making_does db_eq h₃ (hsteady none _) fun f₄ taken _ h _ ↦ ?_
  have hdatabase := database_new h (by simp) taken
  rw [hdatabase]
  have h := h.create hname (by simp [ownNames] : "state.sqlite" ∈ ownNames) (by simp)
  generalize f₄.fresh = database at h
  refine making_does db_eq h (hsteady none _) fun f₅ _ _ h _ ↦ ?_
  have hcolumn : Does (world calm alone output) (fun _ ↦ True) t f₅
      (if unknown = true then db .addLengthKnown else pure () : StoreM τ Unit)
      (fun _ t' f' ↦ t' = t ∧ f'.Begun alone output none
        ([] ++ [("owner.lock", lock)] ++ [("payload.part", part)] ++ [("state.sqlite", database)]))
      fun _ _ _ ↦ True := by
    refine Does.ite (fun _ ↦ ?_) fun _ ↦ ⟨rfl, h⟩
    exact call_last (R := fun _ ↦ True) db_eq h (hsteady none _) (fun _ _ _ ↦ trivial) (fun _ _ _ ↦ trivial)
      (fun _ _ ↦ trivial) (fun _ _ _ _ ↦ trivial) fun _ _ _ h _ ↦ ⟨rfl, h⟩
  refine Does.bind hcolumn ?_
  rintro _ t' f₆ ⟨rfl, h⟩
  refine making_does db_eq h (hsteady none _) fun f₇ taken _ h _ ↦ ?_
  have hbacks := newRow_backs sha256 hname hidentity hunknown
  have hinsert : f₇.answer taken (.insertJob (newRow sha256 identity output unknown)) =
      (.ok (), { f₇ with job := some (newRow sha256 identity output unknown) }) :=
    if_pos ⟨hbacks.fits.check, h.job⟩
  rw [hinsert]
  have h₈ : { f₇ with job := some (newRow sha256 identity output unknown) }.Begun alone output
      (some (newRow sha256 identity output unknown))
      ([] ++ [("owner.lock", lock)] ++ [("payload.part", part)] ++ [("state.sqlite", database)]) :=
    { h with job := rfl }
  refine making_does io_eq h₈ (hsteady _ _) fun f _ _ h _ ↦ ?_
  exact h.finished hbacks

end Creating

end Opening

end TransferStore

end Fhd
