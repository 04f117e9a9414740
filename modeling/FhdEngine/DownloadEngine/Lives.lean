import FhdEngine.DownloadEngine.Refinement
import FhdEngine.DownloadEngine.VaultRuns

/-!
# Every life of a download

A download is begun again and again over one folder, with whatever options. Each time it ends, or a crash finds it
somewhere (`Life`). What it tells once stays so: the output has the bytes of one representation that was served, or bytes
with the digest that was asked for, and neither a later download nor a crash takes them (`downloads_last`).
-/

namespace Fhd.DownloadEngine

open Process (Does Ensures Reaches Returns)
open TransferStore

/-! ### What is published stays -/

section Vaults

variable {Url PathBuf : Type} {asStr : Url → String} {sha256 : Bytes → Digest} {serving : Serving} {v v' : Vault sha256}
  {p p' : Place sha256} {options : Options PathBuf} {outcome : Outcome}

theorem Vault.Advances.refl (v : Vault sha256) : v.Advances v :=
  { Same.refl v with content := rfl, committed := Nat.le_refl _, status := id, published := id }

/-- A complete vault is all there when it is opened again. -/
theorem Vault.advances_reopened (hstatus : v.status ≠ .downloading) : v.Advances v.reopened :=
  { Same.refl v with
    content := v.take_committed hstatus, committed := Nat.le_refl _, status := id, published := id }

/-- **A complete vault only advances**, whatever a download calls. -/
theorem complete_advances {port : DownloadPort Url PathBuf} {answer : DownloadAnswer Url PathBuf port}
    (hstatus : v.status ≠ .downloading) (hcall : onVault asStr serving (.kept v) port answer p') :
    ∃ v', p' = .kept v' ∧ v.Advances v' := by
  have hsame : p' = .kept v → ∃ v', p' = .kept v' ∧ v.Advances v' := fun h ↦ ⟨v, h, .refl v⟩
  have hends : ∀ {v'}, p' = .kept v' → v' = v ∨ v.Advances v' → ∃ v', p' = .kept v' ∧ v.Advances v' := by
    rintro v' hp' (rfl | hadvances)
    · exact hsame hp'
    · exact ⟨v', hp', hadvances⟩
  cases port with
  | buildClient | isCancelled | beforeTransfer => exact hsame hcall
  | tryExists | send => exact hsame hcall.1
  | openStore =>
    rcases hcall with ⟨hp, -⟩ | ⟨v', hv', -, rfl⟩
    · exact hsame hp
    · cases hv'
      exact ⟨v.reopened, rfl, v.advances_reopened hstatus⟩
  | create identity output unknown =>
    rcases hcall with ⟨hp, -⟩ | ⟨hvacant, -⟩
    · exact hsame hp
    · cases hvacant
  | rebindUrls original final =>
    obtain ⟨v', hp', h⟩ := hcall
    exact hends hp' (h.imp And.left fun h ↦ absurd h.1.downloading hstatus)
  | finalize =>
    obtain ⟨v', hp', h⟩ := hcall
    exact hends hp' (h.imp And.left fun h ↦ h.1.2)
  | completeUnknown =>
    obtain ⟨v', hp', h⟩ := hcall
    refine hends hp' (h.imp And.left fun h ↦ ?_)
    rcases h.1 with ⟨hadvances, -⟩ | hlearns
    · exact hadvances
    · exact absurd (hlearns.unknown.symm.trans (v.complete hstatus).2.2) Bool.noConfusion
  | transfer port =>
    cases port with
    | isCancelled | limits | pace | report | spawn => exact hsame hcall
    | range | join => exact hsame hcall.1
    | append bytes =>
      obtain ⟨v', hp', h⟩ := hcall
      exact hends hp' (h.imp And.left fun h ↦ absurd h.1.downloading hstatus)
    | checkpoint =>
      obtain ⟨v', hp', h⟩ := hcall
      exact hends hp' (h.imp And.left fun h ↦ h.1.1)
    | complete =>
      obtain ⟨v', hp', h⟩ := hcall
      exact hends hp' (h.imp And.left And.left)

theorem Vault.Obtained.advances (h : v.Obtained serving options outcome) (hadvances : v.Advances v') :
    v'.Obtained serving options outcome where
  honest := h.honest.advances hadvances
  published := hadvances.published h.published
  output := hadvances.output.trans h.output
  expected := by rw [hadvances.identity]; exact h.expected
  bytes := by rw [hadvances.content]; exact h.bytes

/-- The directory has what a download told. -/
def Holding (serving : Serving) (options : Options PathBuf) (outcome : Outcome) (p : Place sha256) : Prop :=
  ∃ v, p = .kept v ∧ v.Obtained serving options outcome

theorem Holding.called {port : DownloadPort Url PathBuf} {answer : DownloadAnswer Url PathBuf port}
    (h : Holding serving options outcome p) (hcall : onVault asStr serving p port answer p') :
    Holding serving options outcome p' := by
  obtain ⟨v, rfl, hv⟩ := h
  obtain ⟨v', rfl, hadvances⟩ := complete_advances (hv.published ▸ Status.noConfusion) hcall
  exact ⟨v', rfl, hv.advances hadvances⟩

theorem Holding.crashed (h : Holding serving options outcome p) (hcrash : p.Crashes p') :
    Holding serving options outcome p' := by
  obtain ⟨v, rfl, hv⟩ := h
  rcases hcrash with rfl | ⟨-, v', heq, -, hunpublished⟩
  · exact ⟨v, rfl, hv⟩
  · cases heq
    exact absurd hv.published hunpublished

theorem Place.Honest.crashed (h : p.Honest serving) (hcrash : p.Crashes p') : p'.Honest serving := by
  rcases hcrash with rfl | ⟨rfl, -⟩
  · exact h
  · trivial

end Vaults

/-! ### Lives -/

section Lives

variable {Url UrlOrigin PathBuf : Type} [DecidableEq UrlOrigin] (U : UrlLibrary Url UrlOrigin)
  (parent : PathBuf → Option PathBuf) (sha256 : Bytes → Digest) (serving : Serving) (directory : Path)

/-- **One life of a download** over a folder. -/
inductive Life (options : Options PathBuf) (f : Folder) : Option (Except Error Outcome) → Folder → Prop
  | ended {r : Except Error Outcome} {D : TransferStore.Desk}
      (hreturns : Returns (keeping U.asStr sha256 serving directory) ⟨f, none⟩
        ((downloadControlled U parent sha256 options).run.run ()) (r, ()) D) : Life options f (some r) D.folder
  | crashed {D : TransferStore.Desk} {p : _} {f' : Folder}
      (hreaches : Reaches (keeping U.asStr sha256 serving directory) ⟨f, none⟩
        ((downloadControlled U parent sha256 options).run.run ()) D p) (hcrash : D.folder.Crashed f') :
      Life options f none f'

/-- One life after another, with what each of them told, the last one first. -/
inductive Lives (f₀ : Folder) : List (Options PathBuf × Option (Except Error Outcome)) → Folder → Prop
  | start : Lives f₀ [] f₀
  | life {log : List (Options PathBuf × Option (Except Error Outcome))} {options : Options PathBuf}
      {r : Option (Except Error Outcome)} {f f' : Folder} (hlives : Lives f₀ log f)
      (hlife : Life U parent sha256 serving directory options f r f') : Lives f₀ ((options, r) :: log) f'

/-- **What lasts in the folder** after a download told this. -/
structure Lasts (options : Options PathBuf) (outcome : Outcome) (content : Bytes) (f : Folder) : Prop where
  /-- The output has these bytes, and no crash takes the file or its name. -/
  output : ∃ inode, f.node options.outputName = some (.file inode) ∧ f.files inode = ⟨content, none⟩
  settled : options.outputName ∈ f.settled
  bytes : outcome.bytes = content.length
  /-- They have the digest that was asked for. -/
  matched : ∀ digest ∈ options.expectedSha256, digest = sha256 content
  /-- And they are a representation that was served, if none was asked for. -/
  served : options.expectedSha256 = none → ∃ final tag, serving final tag content

variable {U parent sha256 serving directory} {f₀ f f' : Folder} {p : Place sha256} {options : Options PathBuf}
  {outcome : Outcome} {D : TransferStore.Desk}

theorem Represents.close (hR : Represents D p) : Represents ⟨D.folder, none⟩ p := by
  cases p with
  | vacant => exact ⟨hR.1, rfl⟩
  | broken => exact ⟨hR.1, rfl⟩
  | kept v =>
    obtain ⟨part, g, row, f, h⟩ := hR
    refine ⟨part, g, row, f, { h with held := ?_ }⟩
    rintro s ⟨⟩

/-- What one life keeps. -/
theorem Life.keeps {r : Option (Except Error Outcome)} (htags : StrongTags serving)
    (hlife : Life U parent sha256 serving directory options f r f') (hR : Represents ⟨f, none⟩ p)
    (hp : p.Honest serving) :
    ∃ p' : Place sha256, Represents ⟨f', none⟩ p' ∧ p'.Honest serving ∧
      (∀ outcome, r = some (.ok outcome) → Holding serving options outcome p') ∧
      ∀ (options : Options PathBuf) outcome, Holding serving options outcome p → Holding serving options outcome p' := by
  have hobtains : Ensures (onVault U.asStr serving : World Url PathBuf sha256) (Place.Honest serving) _ p
      ((downloadControlled U parent sha256 options).run.run ()) :=
    downloadControlled_obtains U parent options htags hp
  have hholding : ∀ (options' : Options PathBuf) outcome, Holding serving options' outcome p →
      Ensures (onVault U.asStr serving : World Url PathBuf sha256) (Holding serving options' outcome)
        (fun _ ↦ Holding serving options' outcome) p ((downloadControlled U parent sha256 options).run.run ()) := by
    intro options' outcome h
    have hdoes : Does (onVault U.asStr serving : World Url PathBuf sha256) _ () p
        (downloadControlled U parent sha256 options) _ _ := Does.keeps (fun _ _ _ _ h hcall ↦ h.called hcall) h
    refine Ensures.mono hdoes ?_
    rintro ⟨r, _⟩ p' h
    cases r with
    | ok a => exact h
    | error e => exact h
  cases hlife with
  | @ended r D hreturns =>
    obtain ⟨p', hreturns', hR'⟩ := (keeping_refines U.asStr serving directory).returns hR hreturns
    refine ⟨p', hR'.close, (hobtains.reaches hreturns'.reaches hp).1, ?_, fun options' outcome h ↦
      (hholding options' outcome h).returns hreturns'⟩
    rintro outcome ⟨⟩
    exact hobtains.returns hreturns'
  | @crashed D q f' hreaches hcrash =>
    obtain ⟨p', hreaches', hR'⟩ := (keeping_refines U.asStr serving directory).reaches hR hreaches
    obtain ⟨p'', hcrashes, hR''⟩ := hR'.crashed hcrash
    refine ⟨p'', hR'', (hobtains.reaches hreaches' hp).1.crashed hcrashes, ?_, fun options' outcome h ↦ ?_⟩
    · rintro _ ⟨⟩
    · exact ((hholding options' outcome h).reaches hreaches' h).1.crashed hcrashes

/-- **What every history keeps.** -/
theorem Lives.keeps {log : List (Options PathBuf × Option (Except Error Outcome))} (htags : StrongTags serving)
    (h₀ : f₀.Empty) (hlives : Lives U parent sha256 serving directory f₀ log f) :
    ∃ p : Place sha256, Represents ⟨f, none⟩ p ∧ p.Honest serving ∧
      ∀ options outcome, (options, some (.ok outcome)) ∈ log → Holding serving options outcome p := by
  induction hlives with
  | start =>
    refine ⟨.vacant, ⟨h₀, rfl⟩, trivial, fun options outcome h ↦ ?_⟩
    cases h
  | life hlives hlife ih =>
    obtain ⟨p, hR, hp, hlog⟩ := ih
    obtain ⟨p', hR', hp', htold, hkept⟩ := hlife.keeps htags hR hp
    refine ⟨p', hR', hp', fun options outcome h ↦ ?_⟩
    rcases List.mem_cons.1 h with heq | hmem
    · cases heq
      exact htold outcome rfl
    · exact hkept options outcome (hlog options outcome hmem)

/-- The folder of a published vault. -/
theorem Holding.lasts (hR : Represents D p) (h : Holding serving options outcome p) :
    ∃ content, Lasts sha256 serving options outcome content D.folder := by
  obtain ⟨v, rfl, hv⟩ := h
  obtain ⟨part, g, row, f, hin⟩ := hR
  have hthree : row.phase = 3 := statusOf_published.1 (hin.told.status ▸ hv.published)
  have hmem : v.output ∈ f.settled := hin.sound.published trivial hthree
  -- such a folder does not lag
  have hsettled : f = D.folder := by
    rcases hin.lags.2 with hsame | ⟨-, hown⟩
    · exact hsame
    · rw [hown] at hmem
      exact absurd rfl (hin.sound.backs.fits.ne_output hmem)
  subst hsettled
  have hnode : D.folder.node v.output = some (.file part) := by
    rcases hin.sound.linked trivial with ⟨-, hunpublished⟩ | ⟨hnode, -⟩
    · exact absurd hthree hunpublished
    · exact hnode
  refine ⟨v.content, ⟨part, hv.output ▸ hnode, ?_⟩, hv.output ▸ hmem, hv.bytes, fun digest hdigest ↦ ?_, fun hnone ↦ ?_⟩
  · rw [hin.told.content]
    exact hin.sound.complete (by omega)
  · exact v.matched hv.published digest (hv.expected ▸ hdigest)
  · have hplain : v.refreshed = false := by
      refine Bool.eq_false_iff.2 fun hrefreshed ↦ ?_
      have hexpected := hv.honest.refreshed hrefreshed
      rw [hv.expected, hnone] at hexpected
      cases hexpected
    obtain ⟨representation, hof⟩ := hv.honest.of hplain
    obtain ⟨tag, hserved, -⟩ := hof.served
    rw [hof.whole (hv.published ▸ Status.noConfusion)]
    exact ⟨_, tag, hserved⟩

/-- **What a download told stays so**: in every history of downloads over one folder, with crashes anywhere, whatever
was told of an output is there, and it is right. -/
theorem downloads_last {log : List (Options PathBuf × Option (Except Error Outcome))} (htags : StrongTags serving)
    (h₀ : f₀.Empty) (hlives : Lives U parent sha256 serving directory f₀ log f)
    (htold : (options, some (.ok outcome)) ∈ log) : ∃ content, Lasts sha256 serving options outcome content f := by
  obtain ⟨p, hR, -, hlog⟩ := hlives.keeps htags h₀
  exact (hlog options outcome htold).lasts hR

/-- **The folder follows the vault**: whatever a program may come to that calls the store over a folder, it may come to
over the vault that the folder keeps, with the same calls and the same answers. At every moment the folder keeps the
vault, and what a crash then leaves of the folder keeps what a crash may leave of the vault. -/
theorem folder_follows_vault {α : Type} {asStr : Url → String} {D₀ : TransferStore.Desk}
    {x y : Process.Prog (DownloadPort Url PathBuf) (DownloadAnswer Url PathBuf) α} (hR : Represents D₀ p)
    (hreaches : Reaches (keeping asStr sha256 serving directory) D₀ x D y) :
    ∃ p' : Place sha256, Reaches (onVault asStr serving) p x p' y ∧ Represents D p' ∧
      ∀ f, D.folder.Crashed f → ∃ p'' : Place sha256, p'.Crashes p'' ∧ Represents ⟨f, none⟩ p'' := by
  obtain ⟨p', hreaches', hR'⟩ := (keeping_refines asStr serving directory).reaches hR hreaches
  exact ⟨p', hreaches', hR', fun f hcrash ↦ hR'.crashed hcrash⟩

end Lives

/-! ### Three bytes -/

namespace Sample

/-- Every URL serves these bytes, with whatever tag. -/
def alike (_ : Digest) (_ : Option Bytes) (representation : Bytes) : Prop := representation = [7, 8, 9]

def response (url : String) : Answered String :=
  ⟨⟨200, [(.contentLength, ascii "3")], url⟩, .http11, .chunk [7, 8, 9] .ended⟩

def download : Options String := ⟨"https://a/f", "/d/j", "file", none, false, 1, 8, none, 1, .default, none⟩

/-- A job on the open store, where nothing fails. -/
def operate {α β : Type} (x : Method α) (tell : α → β) (D : TransferStore.Desk) :
    Option (Option (Except StoreError β) × TransferStore.Desk) :=
  match D.handle with
  | none => none
  | some s =>
    match (x.run.run s).exec (TransferStore.Sample.obey true) D.folder with
    | some ((.ok a, s'), f') => some (some (.ok (tell a)), ⟨f', some s'⟩)
    | _ => none

def found {β : Type} (x : StoreM Unit Store) (tell : Store → β) (D : TransferStore.Desk) :
    Option (Option (Except StoreError β) × TransferStore.Desk) :=
  match (x.run.run ()).exec (TransferStore.Sample.obey true) D.folder with
  | some ((.ok s, _), f') => some (some (.ok (tell s)), ⟨f', some s⟩)
  | _ => none

def serve (D : TransferStore.Desk) :
    (port : DownloadPort String String) → Option (DownloadAnswer String String port × TransferStore.Desk)
  | .buildClient => some (true, D)
  | .isCancelled => some (false, D)
  | .tryExists => some (.ok D.folder.ordinary, D)
  | .openStore => found (openStore TransferStore.Sample.checksum) openedOf D
  | .beforeTransfer _ _ => some (.ok (), D)
  | .send request => some (.answered (response request.url), D)
  | .create identity output unknown =>
    found (creation TransferStore.Sample.checksum output identity unknown) (fun _ ↦ ()) D
  | .transfer .isCancelled => some (false, D)
  | .transfer .limits => some ([], D)
  | .transfer (.pace _) => some (.ok (), D)
  | .transfer (.report _) => some ((), D)
  | .transfer (.append bytes) => operate (Store.append bytes) id D
  | .transfer .checkpoint => operate (Store.checkpoint TransferStore.Sample.checksum) id D
  | .transfer .complete => operate (completion TransferStore.Sample.checksum) (outputPath ["d", "j"]) D
  | _ => none

theorem returns_of_obey {α : Type} {p : Process.Prog Call TransferStore.Reply α} {a : α} {f f' : Folder}
    (h : p.exec (TransferStore.Sample.obey true) f = some (a, f')) : Returns undisturbed f p a f' := by
  have hreturns := Returns.of_exec (TransferStore.Sample.onFolder_of_obey True true) h
  rw [onFolder_alone] at hreturns
  exact hreturns

theorem operating_of_operate {α β : Type} {x : Method α} {tell : α → β} {D D' : TransferStore.Desk}
    {answer : Option (Except StoreError β)} (h : operate x tell D = some (answer, D')) :
    operating x tell D answer D' := by
  obtain ⟨f, handle⟩ := D
  cases handle with
  | none => cases h
  | some s =>
    have h : (match (x.run.run s).exec (TransferStore.Sample.obey true) f with
      | some ((.ok a, s'), f') => some (some (.ok (tell a)), ⟨f', some s'⟩)
      | _ => none) = some (answer, D') := h
    split at h
    next a s' f' hexec =>
      cases h
      exact ⟨some (.ok (a, s')), returns_of_obey hexec, rfl, rfl⟩
    next => cases h

theorem founding_of_found {β : Type} {x : StoreM Unit Store} {tell : Store → β} {D D' : TransferStore.Desk}
    {answer : Option (Except StoreError β)} (h : found x tell D = some (answer, D')) : founding x tell D answer D' := by
  unfold found at h
  split at h
  next s t f' hexec =>
    cases h
    exact ⟨some (.ok (s, t)), returns_of_obey hexec, rfl, rfl⟩
  next => cases h

theorem honest_response (url : String) : Honest sites.asStr TransferStore.Sample.checksum alike (response url) := by
  refine ⟨[7, 8, 9], rfl, fun _ ↦ List.prefix_rfl, fun _ n hn ↦ ?_, fun _ hframing ↦ ?_, fun hstatus ↦ ?_⟩
  · have hlength : contentLength [(.contentLength, ascii "3")] = .ok 3 := by decide +kernel
    exact Except.ok.inj (hn.symm.trans hlength)
  · cases hframing
  · exact absurd hstatus (by decide : ¬(200 : ℕ) = 206)

theorem keeping_of_serve (D : TransferStore.Desk) (port : DownloadPort String String)
    (x : DownloadAnswer String String port) (D' : TransferStore.Desk) (h : serve D port = some (x, D')) :
    keeping sites.asStr TransferStore.Sample.checksum alike ["d", "j"] D port x D' := by
  cases port with
  | buildClient | isCancelled | beforeTransfer =>
    cases h
    rfl
  | tryExists =>
    cases h
    exact ⟨rfl, fun there h ↦ (Except.ok.inj h).symm⟩
  | openStore => exact founding_of_found h
  | send request =>
    cases h
    refine ⟨rfl, fun answered h ↦ ?_⟩
    cases h
    exact ⟨rfl, honest_response request.url⟩
  | create identity output unknown => exact founding_of_found h
  | rebindUrls | finalize | completeUnknown => cases h
  | transfer port =>
    cases port with
    | isCancelled | limits | pace | report =>
      cases h
      rfl
    | append bytes => exact operating_of_operate h
    | checkpoint => exact operating_of_operate h
    | complete => exact operating_of_operate h
    | range | spawn | join => cases h

theorem downloaded : ∃ D, Returns (keeping sites.asStr TransferStore.Sample.checksum alike ["d", "j"])
    ⟨TransferStore.Sample.vacant, none⟩
    ((downloadControlled sites some TransferStore.Sample.checksum download).run.run ())
    (.ok ⟨3, 0, ["d", "j", "file"]⟩, ()) D := by
  have hover : (((downloadControlled sites some TransferStore.Sample.checksum download).run.run ()).exec
      serve ⟨TransferStore.Sample.vacant, none⟩).map (fun r ↦ r.1.1.toOption) =
        some (some ⟨3, 0, ["d", "j", "file"]⟩) := by
    decide +kernel
  obtain ⟨⟨⟨r, t⟩, D⟩, hexec, hr⟩ := Option.map_eq_some_iff.1 hover
  obtain rfl : r = .ok ⟨3, 0, ["d", "j", "file"]⟩ := by
    cases r with
    | error e => cases hr
    | ok outcome => exact congrArg Except.ok (Option.some.inj hr)
  exact ⟨D, Returns.of_exec keeping_of_serve hexec⟩

end Sample

/-- A download of three bytes. -/
theorem downloads_last_three : ∃ log f, Lives Sample.sites some TransferStore.Sample.checksum Sample.alike ["d", "j"]
    TransferStore.Sample.vacant log f ∧ (Sample.download, some (.ok ⟨3, 0, ["d", "j", "file"]⟩)) ∈ log ∧
      ∃ content, Lasts TransferStore.Sample.checksum Sample.alike Sample.download ⟨3, 0, ["d", "j", "file"]⟩ content f := by
  obtain ⟨D, hreturns⟩ := Sample.downloaded
  have hlives := Lives.start.life (Life.ended hreturns)
  have htags : StrongTags Sample.alike := fun _ _ _ _ h h' ↦ h.trans h'.symm
  exact ⟨_, D.folder, hlives, List.mem_cons_self, downloads_last htags ⟨⟨rfl, rfl, rfl, rfl⟩, rfl⟩ hlives List.mem_cons_self⟩

/-- The vault of that download. -/
theorem folder_follows_vault_three : ∃ D' p', Reaches
    (onVault Sample.sites.asStr Sample.alike : World String String TransferStore.Sample.checksum) .vacant
    ((downloadControlled Sample.sites some TransferStore.Sample.checksum Sample.download).run.run ()) p'
    (.done (.ok ⟨3, 0, ["d", "j", "file"]⟩, ())) ∧ Represents D' p' := by
  obtain ⟨D, hreturns⟩ := Sample.downloaded
  have hvacant : Represents ⟨TransferStore.Sample.vacant, none⟩ (.vacant : Place TransferStore.Sample.checksum) :=
    ⟨⟨⟨rfl, rfl, rfl, rfl⟩, rfl⟩, rfl⟩
  obtain ⟨p', hreaches, hR, -⟩ := folder_follows_vault hvacant hreturns.reaches
  exact ⟨D, p', hreaches, hR⟩

end Fhd.DownloadEngine
