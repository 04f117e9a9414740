import FhdEngine.DownloadEngine.Jobs

/-!
# The folder that keeps a vault

The world of a download over the folder of a sequential store, with the handle it has open (`keeping`). The folder is a
vault (`Keeps`): the row and the payload tell what is committed, the handle what was appended. Every blocking job does
to that vault what `FhdEngine.DownloadEngine.Vault` says it may (`keeping_refines`), and so does a crash
(`Represents.crashed`).
-/

namespace Fhd.DownloadEngine

open Process (Does Ends Ensures Environment)
open TransferStore

/-! ### The world of a download over a folder -/

/-- What a download sees of a store. -/
def openedOf (s : Store) : Opened := ⟨s.identity, s.output, s.status, s.unknownLength, s.committed⟩

section World

variable {Url PathBuf : Type} (asStr : Url → String) (sha256 : Bytes → Digest) (serving : Serving) (directory : Path)

/-- A job on the open store, which is lost unless the job succeeds. -/
def operating {α β : Type} (x : Method α) (tell : α → β) (D : TransferStore.Desk) (answer : Option (Except StoreError β))
    (D' : TransferStore.Desk) : Prop :=
  match D.handle with
  | none => D' = D ∧ Failed answer
  | some s => ∃ done, Worked x s D.folder done D'.folder ∧ answer = told tell done ∧ D'.handle = left done

/-- A job that opens or creates a store. -/
def founding {β : Type} (x : StoreM Unit Store) (tell : Store → β) (D : TransferStore.Desk)
    (answer : Option (Except StoreError β)) (D' : TransferStore.Desk) : Prop :=
  ∃ done, Worked x () D.folder done D'.folder ∧ answer = told tell done ∧
    D'.handle = done.bind fun r ↦ r.toOption.map Prod.fst

/-- Where the output of a store is. -/
def outputPath (name : String) : Path := directory ++ [name]

def completion : Method String := do
  Store.markTransferComplete sha256
  Store.finalize sha256

def completionUnknown : Method String := do
  Store.markUnknownTransferComplete sha256
  Store.finalize sha256

def working (D : TransferStore.Desk) : (port : TransferPort) → TransferAnswer port → TransferStore.Desk → Prop
  | .isCancelled, _, D' | .limits, _, D' | .pace _, _, D' | .report _, _, D' | .spawn _ _, _, D' => D' = D
  | .range f range, answer, D' => D' = D ∧ f.Fetched asStr sha256 serving range answer
  | .join f _, ended, D' => D' = D ∧ ∀ r ∈ ended.2, f.Fetched asStr sha256 serving ended.1.1.1 r
  | .append bytes, answer, D' => operating (Store.append bytes) id D answer D'
  | .checkpoint, answer, D' => operating (Store.checkpoint sha256) id D answer D'
  | .complete, answer, D' => operating (completion sha256) (outputPath directory) D answer D'

def downloading (D : TransferStore.Desk) :
    (port : DownloadPort Url PathBuf) → DownloadAnswer Url PathBuf port → TransferStore.Desk → Prop
  | .buildClient, _, D' | .isCancelled, _, D' | .beforeTransfer _ _, _, D' => D' = D
  | .tryExists, answer, D' => D' = D ∧ ∀ there, answer = .ok there → there = D.folder.ordinary
  | .openStore, answer, D' => founding (openStore sha256) openedOf D answer D'
  | .send request, exchange, D' => D' = D ∧ ∀ answered, exchange = .answered answered →
    answered.response.url = request.url ∧ Honest asStr sha256 serving answered
  | .create identity output unknown, answer, D' =>
    founding (creation sha256 output identity unknown) (fun _ ↦ ()) D answer D'
  | .rebindUrls original final, answer, D' => operating (Store.rebindUrls original final) id D answer D'
  | .finalize, answer, D' => operating (Store.finalize sha256) (outputPath directory) D answer D'
  | .completeUnknown, answer, D' => operating (completionUnknown sha256) (outputPath directory) D answer D'
  | .transfer port, answer, D' => working asStr sha256 serving directory D port answer D'

/-- **The download over its folder.** -/
def keeping : Environment TransferStore.Desk (DownloadPort Url PathBuf) (DownloadAnswer Url PathBuf) :=
  fun D port answer D' ↦ downloading asStr sha256 serving directory D port answer D'

end World

/-! ### The vault of a folder -/

section Vaults

variable {sha256 : Bytes → Digest} {output : String} {part : Inode} {g g' : TransferStore.Ledger} {row row' : JobRow}
  {f f' : Folder} {s : Store} {v v' : Vault sha256}

/-- `status`, of a phase. -/
def statusOf (phase : ℤ) : Status :=
  if phase = 0 then .downloading else if phase = 3 then .published else .readyToPublish

theorem statusOf_downloading {phase : ℤ} : statusOf phase = .downloading ↔ phase = 0 := by
  unfold statusOf
  split
  · simp_all
  · split <;> simp_all

theorem statusOf_published {phase : ℤ} : statusOf phase = .published ↔ phase = 3 := by
  unfold statusOf
  split
  next h => simp [h]
  · split <;> simp_all

/-- **What a row and a ledger tell of a vault.** -/
structure Vault.Told (g : TransferStore.Ledger) (row : JobRow) (v : Vault sha256) : Prop where
  identity : row.identity = .ok v.identity
  content : v.content = g.content
  committed : v.committed = row.length
  status : v.status = statusOf row.phase
  unknownLength : v.unknownLength = true ↔ row.lengthKnown = some 0

/-- **There is such a vault.** -/
theorem exists_told (hbacks : g.Backs sha256 output row) (refreshed founded : Bool) :
    ∃ v : Vault sha256, v.Told g row ∧ v.output = output ∧ v.refreshed = refreshed ∧ v.founded = founded := by
  obtain ⟨identity, hidentity, htotal, -⟩ := hbacks.fits.identity
  have hphase : statusOf row.phase ≠ .downloading → 0 < row.phase := by
    intro hne
    have hrange := hbacks.fits.phase.1
    have hzero : row.phase ≠ 0 := fun h ↦ hne (statusOf_downloading.2 h)
    omega
  let v : Vault sha256 :=
    { identity := identity, output := output, content := g.content, committed := row.length,
      status := statusOf row.phase, unknownLength := decide (row.lengthKnown = some 0), refreshed := refreshed,
      founded := founded, committed_le := hbacks.covered
      complete := by
        intro hstatus
        have hpositive := hphase hstatus
        have hall := (hbacks.complete hpositive).1
        refine ⟨hall, ?_, ?_⟩
        · rw [htotal, ← hall, JobRow.length, hbacks.fits.complete hpositive]
        · rw [decide_eq_false_iff_not]
          intro hknown
          rcases hbacks.fits.version with ⟨-, h⟩ | ⟨-, -, h, -⟩ | ⟨-, h, -⟩
          · rw [h] at hknown
            cases hknown
          · omega
          · rw [h] at hknown
            cases hknown
      matched := by
        intro hstatus digest hdigest
        have hthree := statusOf_published.1 hstatus
        have hall := (hbacks.complete (by omega)).1
        have hmatched := hbacks.matched (by omega)
        rw [hbacks.digest, hall, List.take_length] at hmatched
        have hexpected := (JobRow.expected_iff hidentity (sha256 g.content)).2 hmatched
        rw [Option.mem_def.1 hdigest, Option.any_some, decide_eq_false_iff_not, not_not] at hexpected
        exact hexpected }
  exact ⟨v, ⟨hidentity, rfl, rfl, rfl, decide_eq_true_iff⟩, rfl, rfl, rfl⟩

/-- Only one vault is told of. -/
theorem Vault.Told.unique (h : v.Told g row) (h' : v'.Told g row) (houtput : v'.output = v.output)
    (hrefreshed : v'.refreshed = v.refreshed) (hfounded : v'.founded = v.founded) : v' = v := by
  have hidentity : v'.identity = v.identity := Except.ok.inj (h'.identity.symm.trans h.identity)
  have hunknown : v'.unknownLength = v.unknownLength := Bool.eq_iff_iff.2 (h'.unknownLength.trans h.unknownLength.symm)
  have hcontent := h'.content.trans h.content.symm
  have hcommitted := h'.committed.trans h.committed.symm
  have hstatus := h'.status.trans h.status.symm
  cases v
  cases v'
  simp only [Vault.mk.injEq]
  exact ⟨hidentity, houtput, hcontent, hcommitted, hstatus, hunknown, hrefreshed, hfounded⟩

/-- A desk whose folder and handle are those of a vault. The folder may not be settled yet, if it was never told that
the vault was created. -/
structure Vault.In (D : TransferStore.Desk) (part : Inode) (g : TransferStore.Ledger) (row : JobRow) (f : Folder) (v : Vault sha256) :
    Prop where
  lags : D.folder.Lags f
  settled : v.founded = true → f = D.folder
  sound : f.Sound sha256 True v.output part g row
  acked : row.length = g.acked
  told : v.Told g row
  held : ∀ s, D.handle = some s → s.poisoned = false → s.Held v.output part g row f

/-- **The vault of a desk.** -/
def Represents (D : TransferStore.Desk) : Place sha256 → Prop
  | .vacant => D.folder.Empty ∧ D.handle = none
  | .broken => D.folder.Broken ∧ D.handle = none
  | .kept v => ∃ part g row f, v.In D part g row f

/-- A desk like this is one of the vault, whatever was acknowledged. -/
theorem represents_of_told {D : TransferStore.Desk} (hlags : D.folder.Lags f) (hsettled : v.founded = true → f = D.folder)
    (hs : f.Sound sha256 True v.output part g row) (htold : v.Told g row)
    (hheld : ∀ s, D.handle = some s → s.poisoned = false → s.Held v.output part g row f) :
    Represents D (.kept v) := by
  refine ⟨part, { g with acked := row.length }, row, f, hlags, hsettled, ?_, rfl, { htold with }, fun s hs' hclean ↦ ?_⟩
  · exact { hs with backs := { hs.backs with acked := Nat.le_refl _ } }
  · exact { hheld s hs' hclean with }

end Vaults

/-! ### Jobs on the open store -/

section Operations

variable {sha256 : Bytes → Digest} {part : Inode} {g : TransferStore.Ledger} {row : JobRow} {f f₀ f' : Folder} {s : Store}
  {v : Vault sha256} {α : Type} {x : Method α} {T TS : JobRow → Prop} {done : Option (Except StoreError (α × Store))}

theorem Worked.only {τ : Type} {x : StoreM τ α} {t : τ} {done : Option (Except StoreError (α × τ))}
    (hw : Worked x t f done f') (hx : Only (Call.Within T) x) (hT : ∀ row ∈ f.job, T row) : ∀ row ∈ f'.job, T row := by
  have hensures : Ensures (onFolder True "") _ _ f (x.run.run t) := hx.ensures t hT
  rw [onFolder_alone] at hensures
  rcases done with _ | e | ⟨a, t'⟩
  · obtain ⟨p, hreaches⟩ := hw
    exact (hensures.reaches hreaches hT).1
  · obtain ⟨t', hreturns⟩ := hw
    exact hensures.returns hreturns
  · exact hensures.returns hw

/-- **A job on the open store** of a vault: what it does to the row and the ledger it does to the vault. -/
theorem Vault.In.works (gI gS : TransferStore.Ledger) (phase : ℤ) (next success : Vault sha256 → Vault sha256 → Prop)
    (h : v.In ⟨f₀, some s⟩ part g row f) (hstarts : TransferStore.Starts x s)
    (hdoes : (∀ e, ¬Ends x s (.error e) s) → Does (world False True v.output)
      (Along sha256 True v.output part row.phase gI) s f x (fun _ ↦ After sha256 True v.output part phase gS)
      fun _ s' f' ↦ s'.poisoned = true ∧ Along sha256 True v.output part row.phase gI f')
    (hbegin : Along sha256 True v.output part row.phase gI f)
    (hT : ∀ done f', Worked x s f done f' → ∀ row ∈ f'.job, T row)
    (hTS : ∀ a f', Worked x s f (some (.ok a)) f' → ∀ row ∈ f'.job, TS row)
    (hI : (∀ e, ¬Ends x s (.error e) s) → ∀ row', row.phase ≤ row'.phase → gI.Backs sha256 v.output row' → T row' →
      ∃ v' : Vault sha256, v'.Told gI row' ∧ v'.output = v.output ∧ v'.founded = v.founded ∧ (v' = v ∨ next v v'))
    (hS : (∀ e, ¬Ends x s (.error e) s) → ∀ row', phase ≤ row'.phase → gS.Backs sha256 v.output row' → TS row' →
      ∃ v' : Vault sha256, v'.Told gS row' ∧ v'.output = v.output ∧ v'.founded = v.founded ∧ next v v' ∧ success v v')
    (hw : Worked x s f₀ done f') :
    ∃ v', (v' = v ∧ Failed done ∨ next v v' ∧ (Failed done ∨ success v v')) ∧ Represents ⟨f', left done⟩ (.kept v') := by
  rcases hstarts with ⟨e, hends⟩ | ⟨call, hasks⟩
  · obtain ⟨hfailed, rfl⟩ := hw.refused hends
    refine ⟨v, Or.inl ⟨rfl, hfailed⟩, represents_of_told h.lags h.settled h.sound h.told fun s' hs' ↦ ?_⟩
    rw [hfailed.left] at hs'
    cases hs'
  obtain ⟨f₁, hw', hlags, hsame⟩ := hw.lags h.lags
  have hcalls : ∀ e, ¬Ends x s (.error e) s := fun e ↦ hasks.not_ends
  have hsettled : ∀ {v' : Vault sha256}, v'.founded = v.founded → v'.founded = true → f₁ = f' := fun hv' hfounded ↦
    hsame (h.settled (hv' ▸ hfounded))
  rcases hw'.ends (hdoes hcalls) hbegin with ⟨a, s', rfl, row', hphase, hs', hheld'⟩ | ⟨hfailed, hend⟩
  · obtain ⟨v', htold, houtput, hfounded, hnext, hsuccess⟩ :=
      hS hcalls row' hphase hs'.backs (hTS _ _ hw' row' hs'.job)
    rw [← houtput] at hs' hheld'
    refine ⟨v', Or.inr ⟨hnext, Or.inr hsuccess⟩, represents_of_told hlags (hsettled hfounded) hs' htold fun s₁ h₁ ↦ ?_⟩
    cases h₁
    exact hheld'
  · have hend : Along sha256 True v.output part row.phase gI f₁ := by
      rcases hend with halong | ⟨e, s', -, halong⟩
      · exact halong
      · exact halong
    obtain ⟨row', hphase, hs'⟩ := hend
    obtain ⟨v', htold, houtput, hfounded, hnext⟩ := hI hcalls row' hphase hs'.backs (hT _ _ hw' row' hs'.job)
    rw [← houtput] at hs'
    refine ⟨v', hnext.imp (fun h ↦ ⟨h, hfailed⟩) fun h ↦ ⟨h, Or.inl hfailed⟩,
      represents_of_told hlags (hsettled hfounded) hs' htold fun s₁ h₁ ↦ ?_⟩
    rw [hfailed.left] at h₁
    cases h₁

/-- A row that only tells of more. -/
def Kin (row row' : JobRow) : Prop :=
  ∃ committed digest phase, row' = { row with committed := committed, digest := digest, phase := phase }

theorem Kin.refl (row : JobRow) : Kin row row := ⟨row.committed, row.digest, row.phase, rfl⟩

variable {row' : JobRow} {g' : TransferStore.Ledger} {v' : Vault sha256}

theorem Vault.Told.same (h : v.Told g row) (h' : v'.Told g' row') (hrow : Kin row row') (houtput : v'.output = v.output)
    (hrefreshed : v'.refreshed = v.refreshed) (hfounded : v'.founded = v.founded) : v.Same v' := by
  obtain ⟨committed, digest, phase, rfl⟩ := hrow
  exact ⟨Except.ok.inj (h'.identity.symm.trans h.identity), houtput,
    Bool.eq_iff_iff.2 (h'.unknownLength.trans h.unknownLength.symm), hrefreshed, hfounded⟩

/-- The vault of a row that tells of more. -/
theorem Vault.Told.advances (h : v.Told g row) (hrow : Kin row row') (hbacks : g'.Backs sha256 v.output row')
    (hcontent : g'.content = g.content) (hlength : row.length ≤ row'.length) (hphase : row.phase ≤ row'.phase)
    (hrange : 0 ≤ row.phase) :
    ∃ v' : Vault sha256, v'.Told g' row' ∧ v'.output = v.output ∧ v'.founded = v.founded ∧ v.Advances v' := by
  obtain ⟨v', h', houtput, hrefreshed, hfounded⟩ := exists_told hbacks v.refreshed v.founded
  refine ⟨v', h', houtput, hfounded, ?_⟩
  refine { h.same h' hrow houtput hrefreshed hfounded with
           content := h'.content.trans (hcontent.trans h.content.symm)
           committed := by rw [h.committed, h'.committed]; exact hlength
           status := fun hstatus ↦ ?_
           published := fun hstatus ↦ ?_ }
  · rw [h.status] at hstatus
    rw [h'.status]
    intro hzero
    have hzero := statusOf_downloading.1 hzero
    exact hstatus (statusOf_downloading.2 (by omega))
  · rw [h.status] at hstatus
    rw [h'.status]
    have hthree := statusOf_published.1 hstatus
    have hlast := hbacks.fits.phase.2
    exact statusOf_published.2 (by omega)

/-- What a method needs to be open. -/
theorem Vault.In.opened (h : v.In ⟨f₀, some s⟩ part g row f) (hopen : ¬(s.poisoned = true ∨ s.phase ≠ 0)) :
    row.phase = 0 ∧ s.Held v.output part g row f := by
  obtain ⟨hclean, hphase⟩ := not_or.1 hopen
  have hheld := h.held s rfl (Bool.eq_false_iff.2 hclean)
  exact ⟨hheld.phase ▸ not_not.1 hphase, hheld⟩

theorem Vault.In.downloading (h : v.In ⟨f₀, some s⟩ part g row f) (hzero : row.phase = 0) : v.status = .downloading := by
  rw [h.told.status]
  exact statusOf_downloading.2 hzero

theorem Vault.In.append (h : v.In ⟨f₀, some s⟩ part g row f) {bytes : Bytes}
    {done : Option (Except StoreError (Unit × Store))} (hw : Worked (Store.append bytes) s f₀ done f') :
    ∃ v', (v' = v ∧ Failed done ∨ v.Grows bytes v' ∧ (Failed done ∨ True)) ∧ Represents ⟨f', left done⟩ (.kept v') := by
  have honly : ∀ done f', Worked (Store.append bytes) s f done f' → ∀ row' ∈ f'.job, row' = row := by
    refine fun done f' hw ↦ hw.only (Store.append_only bytes) fun row' hrow ↦ ?_
    rw [h.sound.job] at hrow
    exact (Option.some.inj hrow).symm
  refine h.works g (g.append bytes) row.phase (Vault.Grows bytes) (fun _ _ ↦ True) (Store.append_starts bytes)
    (Store.append_does h.sound (h.held s rfl) bytes) h.sound.along honly (fun a f' ↦ honly _ f') ?_ ?_ hw
  · rintro - row' - hbacks rfl
    exact ⟨v, h.told, rfl, rfl, Or.inl rfl⟩
  · rintro hcalls row' - hbacks rfl
    obtain ⟨v', h', houtput, hrefreshed, hfounded⟩ := exists_told hbacks v.refreshed v.founded
    have hzero := (h.opened fun hclosed ↦ hcalls _ (Ends.get (Ends.refuse hclosed))).1
    refine ⟨v', h', houtput, hfounded, ?_, trivial⟩
    exact { h.told.same h' (.refl row') houtput hrefreshed hfounded with
            downloading := h.downloading hzero
            status := h'.status.trans h.told.status.symm
            content := h'.content.trans (congrArg (· ++ bytes) h.told.content.symm) }

theorem Vault.In.checkpoint (h : v.In ⟨f₀, some s⟩ part g row f) {done : Option (Except StoreError (Unit × Store))}
    (hw : Worked (Store.checkpoint sha256) s f₀ done f') :
    ∃ v', (v' = v ∧ Failed done ∨ (v.Advances v' ∧ v'.status = v.status) ∧
      (Failed done ∨ v'.committed = v'.content.length)) ∧ Represents ⟨f', left done⟩ (.kept v') := by
  have honly : ∀ done f', Worked (Store.checkpoint sha256) s f done f' → ∀ row' ∈ f'.job,
      Kin row row' ∧ row'.phase = row.phase := by
    refine fun done f' hw ↦ hw.only (Store.checkpoint_only ?_) fun row' hrow ↦ ?_
    · rintro committed digest _ ⟨⟨committed', digest', phase, rfl⟩, hphase⟩
      exact ⟨⟨committed, digest, phase, rfl⟩, hphase⟩
    · rw [h.sound.job] at hrow
      cases hrow
      exact ⟨.refl row, rfl⟩
  have hadvances : ∀ {g' : TransferStore.Ledger} row', g'.Backs sha256 v.output row' → g'.content = g.content →
      row.length ≤ row'.length → Kin row row' ∧ row'.phase = row.phase →
        ∃ v' : Vault sha256, v'.Told g' row' ∧ v'.output = v.output ∧ v'.founded = v.founded ∧ v.Advances v' ∧
          v'.status = v.status := by
    rintro g' row' hbacks hcontent hlength ⟨hkin, hphase⟩
    obtain ⟨v', h', houtput, hfounded, hadvances⟩ :=
      h.told.advances hkin hbacks hcontent hlength hphase.ge h.sound.backs.fits.phase.1
    refine ⟨v', h', houtput, hfounded, hadvances, ?_⟩
    rw [h'.status, hphase, h.told.status]
  refine h.works g g.acknowledge row.phase (fun v v' ↦ v.Advances v' ∧ v'.status = v.status)
    (fun _ v' ↦ v'.committed = v'.content.length)
    Store.checkpoint_starts (fun hcalls ↦ ?_) h.sound.along honly (fun a f' ↦ honly _ f') ?_ ?_ hw
  · refine (Store.checkpoint_does h.sound (h.held s rfl) hcalls).mono ?_ fun _ _ _ h ↦ h
    rintro - s' f' ⟨-, -, hheld', hs', -⟩
    exact ⟨Store.receipt sha256 g row, Int.le_refl _, hs', fun _ ↦ { hheld' with }⟩
  · rintro - row' - hbacks hrow
    obtain ⟨v', h', houtput, hfounded, hnext⟩ := hadvances row' hbacks rfl (h.acked ▸ hbacks.acked) hrow
    exact ⟨v', h', houtput, hfounded, Or.inr hnext⟩
  · rintro - row' - hbacks hrow
    have hall : g.content.length ≤ row'.length := hbacks.acked
    obtain ⟨v', h', houtput, hfounded, hnext⟩ :=
      hadvances row' hbacks rfl (h.sound.backs.covered.trans hall) hrow
    refine ⟨v', h', houtput, hfounded, hnext, ?_⟩
    rw [h'.committed, h'.content]
    exact Nat.le_antisymm hbacks.covered hall

theorem Vault.In.markTransferComplete (h : v.In ⟨f₀, some s⟩ part g row f)
    {done : Option (Except StoreError (Unit × Store))} (hw : Worked (Store.markTransferComplete sha256) s f₀ done f') :
    ∃ v', (v' = v ∧ Failed done ∨ v.Advances v' ∧ (Failed done ∨ True)) ∧ Represents ⟨f', left done⟩ (.kept v') := by
  have honly : ∀ done f', Worked (Store.markTransferComplete sha256) s f done f' → ∀ row' ∈ f'.job, Kin row row' := by
    refine fun done f' hw ↦ hw.only (Store.markTransferComplete_only ?_ ?_) fun row' hrow ↦ ?_
    · rintro committed digest _ ⟨committed', digest', phase, rfl⟩
      exact ⟨committed, digest, phase, rfl⟩
    · rintro _ ⟨committed, digest, phase, rfl⟩
      exact ⟨committed, digest, 1, rfl⟩
    · rw [h.sound.job] at hrow
      cases hrow
      exact .refl row
  have hrange := h.sound.backs.fits.phase.1
  refine h.works g.mark g.mark.acknowledge row.phase Vault.Advances (fun _ _ ↦ True) Store.markTransferComplete_starts
    (Store.markTransferComplete_does h.sound (h.held s rfl)) h.sound.mark.along honly (fun a f' ↦ honly _ f') ?_ ?_ hw
  · rintro - row' hphase hbacks hrow
    obtain ⟨v', h', houtput, hfounded, hnext⟩ :=
      h.told.advances hrow hbacks rfl (h.acked ▸ hbacks.acked) hphase hrange
    exact ⟨v', h', houtput, hfounded, Or.inr hnext⟩
  · rintro - row' hphase hbacks hrow
    obtain ⟨v', h', houtput, hfounded, hnext⟩ :=
      h.told.advances hrow hbacks rfl (h.sound.backs.covered.trans hbacks.acked) hphase hrange
    exact ⟨v', h', houtput, hfounded, hnext, trivial⟩

theorem Vault.In.finalize (h : v.In ⟨f₀, some s⟩ part g row f) {done : Option (Except StoreError (String × Store))}
    (hw : Worked (Store.finalize sha256) s f₀ done f') :
    ∃ v', (v' = v ∧ Failed done ∨ (v.status ≠ .downloading ∧ v.Advances v') ∧ (Failed done ∨ v'.status = .published)) ∧
      Represents ⟨f', left done⟩ (.kept v') := by
  have honly : ∀ done f', Worked (Store.finalize sha256) s f done f' → ∀ row' ∈ f'.job,
      Kin row row' ∧ row'.length = row.length := by
    refine fun done f' hw ↦ hw.only (Store.finalize_only ?_) fun row' hrow ↦ ?_
    · rintro phase - _ ⟨⟨committed, digest, phase', rfl⟩, hlength⟩
      exact ⟨⟨committed, digest, phase, rfl⟩, hlength⟩
    · rw [h.sound.job] at hrow
      cases hrow
      exact ⟨.refl row, rfl⟩
  have hrange := h.sound.backs.fits.phase.1
  have hcomplete : (∀ e, ¬Ends (Store.finalize sha256) s (.error e) s) → v.status ≠ .downloading := by
    intro hcalls hstatus
    obtain ⟨hclean, hphase⟩ := not_or.1 fun hclosed ↦ hcalls _ (Ends.get (Ends.refuse hclosed))
    rw [(h.held s rfl (Bool.eq_false_iff.2 hclean)).phase] at hphase
    rw [h.told.status] at hstatus
    exact hphase (statusOf_downloading.1 hstatus)
  refine h.works g g 3 (fun v v' ↦ v.status ≠ .downloading ∧ v.Advances v') (fun _ v' ↦ v'.status = .published) Store.finalize_starts
    (fun hcalls ↦ ?_) h.sound.along honly (fun a f' ↦ honly _ f') ?_ ?_ hw
  · refine (Store.finalize_does False h.sound (h.held s rfl) (fun h : False ↦ h.elim) hcalls).mono ?_ ?_
    · rintro path s' f' ⟨-, -, -, -, row', hthree, hs', hheld'⟩
      exact ⟨row', hthree.ge, hs', fun _ ↦ hheld'⟩
    · rintro e s' f' ⟨hpoisoned, halong, -⟩
      exact ⟨hpoisoned, halong⟩
  · rintro hcalls row' hphase hbacks ⟨hrow, hlength⟩
    obtain ⟨v', h', houtput, hfounded, hnext⟩ := h.told.advances hrow hbacks rfl hlength.ge hphase hrange
    exact ⟨v', h', houtput, hfounded, Or.inr ⟨hcomplete hcalls, hnext⟩⟩
  · rintro hcalls row' hphase hbacks ⟨hrow, hlength⟩
    obtain ⟨v', h', houtput, hfounded, hnext⟩ :=
      h.told.advances hrow hbacks rfl hlength.ge (h.sound.backs.fits.phase.2.trans hphase) hrange
    refine ⟨v', h', houtput, hfounded, ⟨hcomplete hcalls, hnext⟩, ?_⟩
    rw [h'.status]
    exact statusOf_published.2 (Int.le_antisymm hbacks.fits.phase.2 hphase)

/-- **A rebinding that succeeds** changed the row. -/
theorem rebindUrls_tells {output : String} (hs : f.Sound sha256 True output part g row) (original final : Digest) :
    Does (world False True output) (fun _ ↦ True) s f (Store.rebindUrls original final)
      (fun _ _ f' ↦ f'.job = some { row with original := original.toList, final := final.toList }) fun _ _ _ ↦ True := by
  refine Does.get (Does.failIf (fun _ ↦ trivial) fun _ ↦ Does.change ?_)
  refine call_does (P := (· = f)) (R := fun _ ↦ True) db_eq rfl (steady_of_alone _) (fun _ _ _ ↦ trivial)
    (fun _ _ _ ↦ trivial) (fun _ _ ↦ trivial) (fun _ _ _ _ ↦ trivial) ?_
  rintro _ taken (changed : ℕ) rfl -
  refine Does.failIf (fun _ ↦ trivial) fun _ ↦ ?_
  show (Folder.update _ _).2.job = _
  rw [hs.update (hs.backs.urls original final).fits.check]

theorem Vault.In.rebindUrls (h : v.In ⟨f₀, some s⟩ part g row f) {original final : Digest}
    {done : Option (Except StoreError (Unit × Store))} (hw : Worked (Store.rebindUrls original final) s f₀ done f') :
    ∃ v', (v' = v ∧ Failed done ∨ v.Rebound original final v' ∧ (Failed done ∨ True)) ∧
      Represents ⟨f', left done⟩ (.kept v') := by
  have honly : ∀ done f', Worked (Store.rebindUrls original final) s f done f' → ∀ row' ∈ f'.job,
      row' = row ∨ row' = { row with original := original.toList, final := final.toList } := by
    refine fun done f' hw ↦ hw.only (Store.rebindUrls_only ?_) fun row' hrow ↦ ?_
    · rintro _ (rfl | rfl)
      · exact Or.inr rfl
      · exact Or.inr rfl
    · rw [h.sound.job] at hrow
      exact Or.inl (Option.some.inj hrow).symm
  have htells : ∀ a f', Worked (Store.rebindUrls original final) s f (some (.ok a)) f' → ∀ row' ∈ f'.job,
      row' = { row with original := original.toList, final := final.toList } := by
    intro a f' hw row' hrow
    rcases hw.ends (rebindUrls_tells h.sound original final) trivial with ⟨_, _, -, hjob⟩ | ⟨hfailed, -⟩
    · rw [hjob] at hrow
      exact (Option.some.inj hrow).symm
    · exact absurd rfl (hfailed a)
  have hrebound : (∀ e, ¬Ends (Store.rebindUrls original final) s (.error e) s) → ∀ row',
      g.Backs sha256 v.output row' → row' = { row with original := original.toList, final := final.toList } →
        ∃ v' : Vault sha256, v'.Told g row' ∧ v'.output = v.output ∧ v'.founded = v.founded ∧
          v.Rebound original final v' := by
    rintro hcalls row' hbacks rfl
    obtain ⟨v', h', houtput, hrefreshed, hfounded⟩ := exists_told hbacks true v.founded
    obtain ⟨hclean, hphase⟩ := not_or.1 fun hclosed ↦ hcalls _ (Ends.get (Ends.refuse hclosed))
    have hzero := (h.opened (not_or.2 ⟨hclean, not_not.2 (not_not.1 (not_or.1 hphase).1)⟩)).1
    refine ⟨v', h', houtput, hfounded, h.downloading hzero, h'.content.trans h.told.content.symm, houtput,
      h'.status.trans h.told.status.symm, Bool.eq_iff_iff.2 (h'.unknownLength.trans h.told.unknownLength.symm),
      hrefreshed, hfounded, Except.ok.inj (h'.identity.symm.trans ?_)⟩
    obtain ⟨hexpected, -, -, hrest⟩ := JobRow.identity_eq_ok.1 h.told.identity
    exact JobRow.identity_eq_ok.2 ⟨hexpected, toDigest_toList original, toDigest_toList final, hrest⟩
  refine h.works g g row.phase (Vault.Rebound original final) (fun _ _ ↦ True)
    (Store.rebindUrls_starts original final) (Store.rebindUrls_does h.sound (h.held s rfl) original final) h.sound.along
    honly htells ?_ ?_ hw
  · rintro hcalls row' - hbacks (rfl | hrow)
    · exact ⟨v, h.told, rfl, rfl, Or.inl rfl⟩
    · obtain ⟨v', h', houtput, hfounded, hnext⟩ := hrebound hcalls row' hbacks hrow
      exact ⟨v', h', houtput, hfounded, Or.inr hnext⟩
  · rintro hcalls row' - hbacks hrow
    obtain ⟨v', h', houtput, hfounded, hnext⟩ := hrebound hcalls row' hbacks hrow
    exact ⟨v', h', houtput, hfounded, hnext, trivial⟩

/-- A row whose length was learned, or that only tells of more. -/
def Learned (row row' : JobRow) : Prop :=
  Kin row row' ∧ row'.phase = row.phase ∨
    ∃ committed digest total, row' =
      Folder.completed total { row with committed := committed, digest := digest }

theorem Vault.In.markUnknownTransferComplete (h : v.In ⟨f₀, some s⟩ part g row f)
    {done : Option (Except StoreError (Unit × Store))}
    (hw : Worked (Store.markUnknownTransferComplete sha256) s f₀ done f') :
    ∃ v', (v' = v ∧ Failed done ∨ (v.Advances v' ∧ v'.status = .downloading ∨ v.Learns v') ∧ (Failed done ∨ True)) ∧
      Represents ⟨f', left done⟩ (.kept v') := by
  have honly : ∀ done f', Worked (Store.markUnknownTransferComplete sha256) s f done f' → ∀ row' ∈ f'.job,
      Learned row row' := by
    refine fun done f' hw ↦ hw.only (Store.markUnknownTransferComplete_only ?_ ?_) fun row' hrow ↦ ?_
    · rintro committed digest _ (⟨⟨committed', digest', phase, rfl⟩, hphase⟩ | ⟨committed', digest', total, rfl⟩)
      · exact Or.inl ⟨⟨committed, digest, phase, rfl⟩, hphase⟩
      · exact Or.inr ⟨committed, digest, total, rfl⟩
    · rintro total _ (⟨⟨committed, digest, phase, rfl⟩, hphase⟩ | ⟨committed, digest, total', rfl⟩)
      · exact Or.inr ⟨committed, digest, total, rfl⟩
      · exact Or.inr ⟨committed, digest, total, rfl⟩
    · rw [h.sound.job] at hrow
      cases hrow
      exact Or.inl ⟨.refl row, rfl⟩
  have hnext : ∀ {g' : TransferStore.Ledger} row', (∀ e, ¬Ends (Store.markUnknownTransferComplete sha256) s (.error e) s) →
      g'.Backs sha256 v.output row' → g'.content = g.content → row.length ≤ row'.length → Learned row row' →
        ∃ v' : Vault sha256, v'.Told g' row' ∧ v'.output = v.output ∧ v'.founded = v.founded ∧
          (v.Advances v' ∧ v'.status = .downloading ∨ v.Learns v') := by
    intro g' row' hcalls hbacks hcontent hlength hlearned
    have hunknown : ¬s.unknownLength = false := fun hknown ↦ hcalls _ (Ends.get (Ends.refuse hknown))
    obtain ⟨hzero, hheld⟩ := h.opened fun hclosed ↦
      hcalls _ (Ends.get (Ends.pass hunknown (Ends.bind_error (Ends.get (Ends.refuse hclosed)))))
    rcases hlearned with ⟨hkin, hphase⟩ | ⟨committed, digest, total, rfl⟩
    · obtain ⟨v', h', houtput, hfounded, hadvances⟩ :=
        h.told.advances hkin hbacks hcontent hlength hphase.ge hzero.ge
      refine ⟨v', h', houtput, hfounded, Or.inl ⟨hadvances, ?_⟩⟩
      rw [h'.status]
      exact statusOf_downloading.2 (hphase.trans hzero)
    · obtain ⟨v', h', houtput, hrefreshed, hfounded⟩ := exists_told hbacks v.refreshed v.founded
      have hpositive : 0 < (Folder.completed total { row with committed := committed, digest := digest }).phase :=
        (by decide : (0 : ℤ) < 1)
      have hstatus : v'.status ≠ .downloading := by
        rw [h'.status]
        exact fun h ↦ absurd (statusOf_downloading.1 h) hpositive.ne'
      have hsame : v'.content = v.content := h'.content.trans (hcontent.trans h.told.content.symm)
      refine ⟨v', h', houtput, hfounded, Or.inr
        { unknown := h.told.unknownLength.2 (hheld.unknownLength.1 (Bool.of_not_eq_false hunknown))
          content := hsame
          output := houtput
          refreshed := hrefreshed
          founded := hfounded
          identity := ?_
          unknownLength := (v'.complete hstatus).2.2
          status := hstatus }⟩
      have htotal : v'.identity.total = v.content.length := by
        rw [← (v'.complete hstatus).2.1, hsame]
      obtain ⟨hexpected, horiginal, hfinal, hetag, -⟩ := JobRow.identity_eq_ok.1 h.told.identity
      obtain ⟨-, -, -, -, htotal'⟩ := JobRow.identity_eq_ok.1 h'.identity
      refine Except.ok.inj (h'.identity.symm.trans (JobRow.identity_eq_ok.2 ⟨hexpected, horiginal, hfinal, hetag, ?_⟩))
      exact htotal'.trans htotal
  refine h.works g.mark g.mark.acknowledge row.phase
    (fun v v' ↦ v.Advances v' ∧ v'.status = .downloading ∨ v.Learns v') (fun _ _ ↦ True) Store.markUnknownTransferComplete_starts
    (Store.markUnknownTransferComplete_does h.sound (h.held s rfl)) h.sound.mark.along honly (fun a f' ↦ honly _ f')
    ?_ ?_ hw
  · rintro hcalls row' - hbacks hrow
    obtain ⟨v', h', houtput, hfounded, hnext⟩ := hnext row' hcalls hbacks rfl (h.acked ▸ hbacks.acked) hrow
    exact ⟨v', h', houtput, hfounded, Or.inr hnext⟩
  · rintro hcalls row' - hbacks hrow
    obtain ⟨v', h', houtput, hfounded, hnext⟩ :=
      hnext row' hcalls hbacks rfl (h.sound.backs.covered.trans hbacks.acked) hrow
    exact ⟨v', h', houtput, hfounded, hnext, trivial⟩

end Operations

end Fhd.DownloadEngine
