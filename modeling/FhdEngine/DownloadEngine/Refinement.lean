import FhdEngine.DownloadEngine.Keeping
import FhdEngine.DownloadEngine.VaultTransfers

/-!
# The folder refines the vault

Whatever a download may see of its folder, it may see of the vault that the folder keeps (`keeping_refines`), and a crash
does to that vault what a crash may do (`Represents.crashed`).
-/

namespace Fhd.DownloadEngine

open Process (Does Environment Refines)
open TransferStore

section Jobs

variable {sha256 : Bytes → Digest} {part : Inode} {g : TransferStore.Ledger} {row : JobRow} {f f₀ f' : Folder} {s : Store}
  {v v' v'' : Vault sha256} {p : Place sha256} {D D' : TransferStore.Desk}

theorem Vault.Advances.trans (h : v.Advances v') (h' : v'.Advances v'') : v.Advances v'' where
  identity := h'.identity.trans h.identity
  output := h'.output.trans h.output
  unknownLength := h'.unknownLength.trans h.unknownLength
  refreshed := h'.refreshed.trans h.refreshed
  founded := h'.founded.trans h.founded
  content := h'.content.trans h.content
  committed := h.committed.trans h'.committed
  status hstatus := h'.status (h.status hstatus)
  published hstatus := h'.published (h.published hstatus)

theorem Vault.Learns.advances (h : v.Learns v') (h' : v'.Advances v'') : v.Learns v'' where
  unknown := h.unknown
  content := h'.content.trans h.content
  output := h'.output.trans h.output
  refreshed := h'.refreshed.trans h.refreshed
  founded := h'.founded.trans h.founded
  identity := h'.identity.trans h.identity
  unknownLength := h'.unknownLength.trans h.unknownLength
  status := h'.status h.status

/-- Marked, and then published. -/
theorem Vault.In.completion (h : v.In ⟨f₀, some s⟩ part g row f) {done : Option (Except StoreError (String × Store))}
    (hw : Worked (DownloadEngine.completion sha256) s f₀ done f') :
    ∃ v', (v' = v ∧ Failed done ∨ v.Advances v' ∧ (Failed done ∨ v'.status = .published)) ∧
      Represents ⟨f', left done⟩ (.kept v') := by
  rcases hw.of_bind with ⟨hfailed, done', hfailed', hmark⟩ | ⟨_, t₁, f₁, hmark, hpublish⟩
  · obtain ⟨v', hnext, hR⟩ := h.markTransferComplete hmark
    rw [hfailed'.left] at hR
    refine ⟨v', ?_, hfailed.left.symm ▸ hR⟩
    exact hnext.imp (fun h ↦ ⟨h.1, hfailed⟩) fun h ↦ ⟨h.1, Or.inl hfailed⟩
  · obtain ⟨v₁, hnext, part₁, g₁, row₁, f₁', h₁⟩ := h.markTransferComplete hmark
    have hmarked : v.Advances v₁ := hnext.elim (fun h ↦ absurd rfl (h.2 _)) And.left
    obtain ⟨v', hnext', hR⟩ := Vault.In.finalize h₁ hpublish
    refine ⟨v', Or.inr ?_, hR⟩
    rcases hnext' with ⟨rfl, hfailed⟩ | ⟨⟨-, hadvances⟩, hend⟩
    · exact ⟨hmarked, Or.inl hfailed⟩
    · exact ⟨hmarked.trans hadvances, hend⟩

theorem Vault.In.completionUnknown (h : v.In ⟨f₀, some s⟩ part g row f)
    {done : Option (Except StoreError (String × Store))}
    (hw : Worked (DownloadEngine.completionUnknown sha256) s f₀ done f') :
    ∃ v', (v' = v ∧ Failed done ∨ (v.Advances v' ∧ v'.status = .downloading ∨ v.Learns v') ∧
      (Failed done ∨ v'.status = .published)) ∧ Represents ⟨f', left done⟩ (.kept v') := by
  rcases hw.of_bind with ⟨hfailed, done', hfailed', hmark⟩ | ⟨_, t₁, f₁, hmark, hpublish⟩
  · obtain ⟨v', hnext, hR⟩ := h.markUnknownTransferComplete hmark
    rw [hfailed'.left] at hR
    refine ⟨v', ?_, hfailed.left.symm ▸ hR⟩
    exact hnext.imp (fun h ↦ ⟨h.1, hfailed⟩) fun h ↦ ⟨h.1, Or.inl hfailed⟩
  · obtain ⟨v₁, hnext, part₁, g₁, row₁, f₁', h₁⟩ := h.markUnknownTransferComplete hmark
    have hmarked : v.Advances v₁ ∧ v₁.status = .downloading ∨ v.Learns v₁ :=
      hnext.elim (fun h ↦ absurd rfl (h.2 _)) And.left
    obtain ⟨v', hnext', hR⟩ := Vault.In.finalize h₁ hpublish
    refine ⟨v', Or.inr ?_, hR⟩
    rcases hnext' with ⟨rfl, hfailed⟩ | ⟨⟨hcomplete, hadvances⟩, hend⟩
    · exact ⟨hmarked, Or.inl hfailed⟩
    · refine ⟨Or.inr ?_, hend⟩
      rcases hmarked with ⟨-, hstatus⟩ | hlearns
      · exact absurd hstatus hcomplete
      · exact hlearns.advances hadvances

/-- **A job on the open store**, if there is one. -/
theorem Represents.operate {α β : Type} {x : Method α} {tell : α → β} {answer : Option (Except StoreError β)}
    {next success : Vault sha256 → Vault sha256 → Prop}
    (hworks : ∀ {v : Vault sha256} {part g row f f₀ s done f'}, v.In ⟨f₀, some s⟩ part g row f → Worked x s f₀ done f' →
      ∃ v', (v' = v ∧ Failed done ∨ next v v' ∧ (Failed done ∨ success v v')) ∧ Represents ⟨f', left done⟩ (.kept v'))
    (hR : Represents D p) (hcall : operating x tell D answer D') :
    ∃ p', p.Operates next success answer p' ∧ Represents D' p' := by
  obtain ⟨f₀, handle⟩ := D
  have hnone : handle = none → D' = ⟨f₀, handle⟩ ∧ Failed answer := by
    rintro rfl
    exact hcall
  cases p with
  | vacant =>
    obtain ⟨rfl, hfailed⟩ := hnone hR.2
    exact ⟨.vacant, ⟨rfl, hfailed⟩, hR⟩
  | broken =>
    obtain ⟨rfl, hfailed⟩ := hnone hR.2
    exact ⟨.broken, ⟨rfl, hfailed⟩, hR⟩
  | kept v =>
    cases handle with
    | none =>
      obtain ⟨rfl, hfailed⟩ := hnone rfl
      exact ⟨.kept v, ⟨v, rfl, Or.inl ⟨rfl, hfailed⟩⟩, hR⟩
    | some s =>
      obtain ⟨part, g, row, f, h⟩ := hR
      obtain ⟨done, hw, rfl, hhandle⟩ := hcall
      obtain ⟨v', hnext, hR'⟩ := hworks h hw
      obtain ⟨f', handle'⟩ := D'
      obtain rfl : handle' = left done := hhandle
      refine ⟨.kept v', ⟨v', rfl, ?_⟩, hR'⟩
      exact hnext.imp (fun h ↦ ⟨h.1, h.2.told⟩) fun h ↦ ⟨h.1, h.2.imp Failed.told id⟩

/-! ### Opening and creating -/

theorem founded_none {α τ : Type} {done : Option (Except StoreError (α × τ))} (h : Failed done) :
    (done.bind fun r ↦ r.toOption.map Prod.fst) = none := by
  rcases done with _ | e | a
  · rfl
  · rfl
  · exact absurd rfl (h a)

/-- **Opening** finds what the vault has. -/
theorem Represents.opens {answer : Option (Except StoreError Opened)} (hR : Represents D p)
    (hcall : founding (openStore sha256) openedOf D answer D') : ∃ p', p.Opens answer p' ∧ Represents D' p' := by
  obtain ⟨done, hw, rfl, hhandle⟩ := hcall
  obtain ⟨f₀, handle⟩ := D
  obtain ⟨f₁, handle'⟩ := D'
  have hhandle : handle' = done.bind fun r ↦ r.toOption.map Prod.fst := hhandle
  have hw : Worked (openStore sha256) () f₀ done f₁ := hw
  have hnothing : (f₀.job = none ∨ ∃ name ∈ ownNames, f₀.node name = none) → Failed done ∧ f₁ = f₀ ∧ handle' = none := by
    intro h
    have hdoes : Does (world False True "") (· = f₀) () f₀ (openStore sha256 : StoreM Unit Store) _ _ :=
      openStore_broken h (· = f₀) () f₀ (fun _ h ↦ h) rfl
    rcases hw.ends hdoes rfl with ⟨_, _, -, hopened, -⟩ | ⟨hfailed, hsame | ⟨_, _, -, -, hsame⟩⟩
    · exact hopened.elim
    · exact ⟨hfailed, hsame, hhandle.trans (founded_none hfailed)⟩
    · exact ⟨hfailed, hsame, hhandle.trans (founded_none hfailed)⟩
  cases p with
  | vacant =>
    obtain ⟨hfailed, rfl, rfl⟩ := hnothing (Or.inl hR.1.job)
    exact ⟨.vacant, Or.inl ⟨rfl, hfailed.told⟩, hR.1, rfl⟩
  | broken =>
    obtain ⟨hfailed, rfl, rfl⟩ := hnothing hR.1.2
    exact ⟨.broken, Or.inl ⟨rfl, hfailed.told⟩, hR.1, rfl⟩
  | kept v =>
    obtain ⟨part, g, row, f, h⟩ := hR
    obtain ⟨f', hw', hlags, hsame⟩ := hw.lags h.lags
    have hsettled : v.founded = true → f' = f₁ := fun hfounded ↦ hsame (h.settled hfounded)
    have hrow : ∀ row' ∈ f'.job, row' = row := by
      refine hw'.only openStore_only fun row' hrow ↦ ?_
      rw [h.sound.job] at hrow
      exact (Option.some.inj hrow).symm
    rcases hw'.ends (openStore_does False h.sound fun h : False ↦ h.elim) h.sound.along with
      ⟨s, _, rfl, hs', hheld, hpoisoned, -⟩ | ⟨hfailed, hend⟩
    · refine ⟨.kept v.reopened, Or.inr ⟨v, rfl, ?_, rfl⟩, ?_⟩
      · have hunknown : s.unknownLength = v.unknownLength :=
          Bool.eq_iff_iff.2 (hheld.unknownLength.trans h.told.unknownLength.symm)
        have hstatus : s.status = v.status := by
          rw [h.told.status, ← hheld.phase]
          rfl
        have hopened : openedOf s = v.opened := by
          rw [openedOf, Vault.opened, Except.ok.inj (hheld.identity.symm.trans h.told.identity), hheld.output_eq, hstatus,
            hunknown, hheld.committed, h.told.committed]
        rw [← hopened]
        rfl
      · have hcontent : v.content.take v.committed = g.content.take row.length := by
          rw [h.told.content, h.told.committed]
        have htold : v.reopened.Told (g.cut row.length) row := { h.told with content := hcontent }
        refine represents_of_told hlags hsettled hs' htold fun s' hs' _ ↦ ?_
        cases hhandle.symm.trans hs'
        exact hheld
    · have hend : Along sha256 True v.output part row.phase g f' := by
        rcases hend with halong | ⟨e, s', halong, -⟩
        · exact halong
        · exact halong
      obtain ⟨row', -, hs'⟩ := hend
      obtain rfl := hrow row' hs'.job
      refine ⟨.kept v, Or.inl ⟨rfl, hfailed.told⟩, represents_of_told hlags hsettled hs' h.told fun s' hs' ↦ ?_⟩
      cases (hhandle.trans (founded_none hfailed)).symm.trans hs'

/-- The vault of a new store. -/
theorem Vault.told_new {identity : Identity} {output : String} {unknown founded : Bool} :
    (Vault.new sha256 identity output unknown founded).Told (.nothing unknown) (newRow sha256 identity output unknown) where
  identity := newRow_identity identity unknown
  content := rfl
  committed := rfl
  status := rfl
  unknownLength := by
    cases unknown with
    | false => exact iff_of_false Bool.false_ne_true (by decide : ¬(none : Option ℤ) = some 0)
    | true => exact iff_of_true rfl rfl

/-- **A creation** makes the vault, or it leaves something that never becomes one, or a vault that was never told. -/
theorem Represents.creates {identity : Identity} {output : String} {unknown : Bool} {answer : Option (Except StoreError Unit)}
    (hR : Represents D p) (hcall : founding (creation sha256 output identity unknown) (fun _ ↦ ()) D answer D') :
    ∃ p', p.Creates identity output unknown answer p' ∧ Represents D' p' := by
  obtain ⟨done, hw, rfl, hhandle⟩ := hcall
  obtain ⟨f₀, handle⟩ := D
  obtain ⟨f₁, handle'⟩ := D'
  have hhandle : handle' = done.bind fun r ↦ r.toOption.map Prod.fst := hhandle
  have hw : Worked (creation sha256 output identity unknown) () f₀ done f₁ := hw
  have hstays : f₀.ordinary = true → Failed done ∧ f₁ = f₀ ∧ handle' = none := by
    intro hordinary
    have hdoes : Does (world False True output) (· = f₀) () f₀
        (creation sha256 output identity unknown : StoreM Unit Store) _ _ := creation_stays hordinary
    rcases hw.ends hdoes rfl with ⟨_, _, -, hcreated⟩ | ⟨hfailed, hsame | ⟨_, _, hsame⟩⟩
    · exact hcreated.elim
    · exact ⟨hfailed, hsame, hhandle.trans (founded_none hfailed)⟩
    · exact ⟨hfailed, hsame, hhandle.trans (founded_none hfailed)⟩
  cases p with
  | vacant =>
    have hdoes : Does (world False True output) (Made sha256 output identity unknown) () f₀
        (creation sha256 output identity unknown : StoreM Unit Store) _ _ := creation_makes hR.1
    rcases hw.ends hdoes (Or.inl hR.1) with ⟨s, _, rfl, hordinary, hs, hheld⟩ | ⟨hfailed, hend⟩
    · refine ⟨.kept (.new sha256 identity output unknown true), Or.inr ⟨rfl, Or.inr ⟨true, rfl, Or.inl rfl⟩⟩, ?_⟩
      refine represents_of_told ⟨hordinary, Or.inl rfl⟩ (fun _ ↦ rfl) hs Vault.told_new fun s' hs' _ ↦ ?_
      cases hhandle.symm.trans hs'
      exact hheld
    · have hmade : Made sha256 output identity unknown f₁ := by
        rcases hend with hmade | ⟨e, _, hmade⟩
        · exact hmade
        · exact hmade
      obtain rfl : handle' = none := hhandle.trans (founded_none hfailed)
      rcases hmade with hempty | hbroken | ⟨part, g, hlags, hs⟩
      · exact ⟨.vacant, Or.inl ⟨rfl, hfailed.told⟩, hempty, rfl⟩
      · exact ⟨.broken, Or.inr ⟨rfl, Or.inl ⟨rfl, hfailed.told⟩⟩, hbroken, rfl⟩
      · refine ⟨.kept (.new sha256 identity output unknown false),
          Or.inr ⟨rfl, Or.inr ⟨false, rfl, Or.inr hfailed.told⟩⟩, ?_⟩
        refine represents_of_told hlags (fun h ↦ Bool.noConfusion h) hs Vault.told_new fun s' hs' ↦ ?_
        cases hs'
  | broken =>
    obtain ⟨hfailed, rfl, rfl⟩ := hstays hR.1.1
    exact ⟨.broken, Or.inl ⟨rfl, hfailed.told⟩, hR.1, rfl⟩
  | kept v =>
    obtain ⟨part, g, row, f, h⟩ := hR
    obtain ⟨hfailed, rfl, rfl⟩ := hstays h.lags.1
    refine ⟨.kept v, Or.inl ⟨rfl, hfailed.told⟩, represents_of_told h.lags h.settled h.sound h.told fun s' hs' ↦ ?_⟩
    cases hs'

/-- A directory is there unless the place is vacant. -/
theorem Represents.there (hR : Represents D p) : D.folder.ordinary = true ↔ p ≠ .vacant := by
  cases p with
  | vacant =>
    rw [hR.1.ordinary]
    exact iff_of_false Bool.false_ne_true fun h ↦ h rfl
  | broken =>
    refine iff_of_true hR.1.1 ?_
    rintro ⟨⟩
  | kept v =>
    obtain ⟨part, g, row, f, h⟩ := hR
    refine iff_of_true h.lags.1 ?_
    rintro ⟨⟩

/-! ### The refinement -/

/-- **A crash** does to the vault of a folder what a crash may do to a vault. -/
theorem Represents.crashed {f₁ : Folder} (hR : Represents D p) (hcrash : D.folder.Crashed f₁) :
    ∃ p', p.Crashes p' ∧ Represents ⟨f₁, none⟩ p' := by
  cases p with
  | vacant => exact ⟨.vacant, Or.inl rfl, hR.1.crashed hcrash, rfl⟩
  | broken => exact ⟨.broken, Or.inl rfl, hR.1.crashed hcrash, rfl⟩
  | kept v =>
    obtain ⟨part, g, row, f, h⟩ := hR
    have hkept : ∀ {f'}, f₁.Lags f' → f.Crashed f' → (v.founded = true → f' = f₁) →
        ∃ p', (Place.kept v).Crashes p' ∧ Represents ⟨f₁, none⟩ p' := by
      intro f' hlags hcrash' hsettled
      refine ⟨.kept v, Or.inl rfl, represents_of_told hlags hsettled (h.sound.crashed hcrash') h.told fun s hs ↦ ?_⟩
      cases hs
    by_cases heq : f = D.folder
    · obtain ⟨hordinary, -⟩ := h.lags
      exact hkept ⟨hcrash.ordinary.trans hordinary, Or.inl rfl⟩ (heq.symm ▸ hcrash) fun _ ↦ rfl
    · have hunsettled : ¬v.founded = true := fun hfounded ↦ heq (h.settled hfounded)
      rcases h.lags.crashed hcrash with ⟨-, hsettled, hbroken⟩ | ⟨f', hlags, hcrash'⟩
      · refine ⟨.broken, Or.inr ⟨rfl, v, rfl, Bool.eq_false_iff.2 hunsettled, fun hpublished ↦ ?_⟩, hbroken, rfl⟩
        -- the name of the output would be settled, and it is none of the store's own
        rw [h.told.status] at hpublished
        have hmem := h.sound.published trivial (statusOf_published.1 hpublished)
        rw [hsettled] at hmem
        exact h.sound.backs.fits.ne_output hmem rfl
      · exact hkept hlags hcrash' fun hfounded ↦ absurd hfounded hunsettled

variable {Url PathBuf : Type} (asStr : Url → String) (serving : Serving) (directory : Path)

/-- A download over its folder. -/
abbrev OverFolder (Url PathBuf : Type) :=
  Environment TransferStore.Desk (DownloadPort Url PathBuf) (DownloadAnswer Url PathBuf)

/-- **The folder refines the vault.** -/
theorem keeping_refines : Refines (keeping asStr sha256 serving directory : OverFolder Url PathBuf)
    (onVault asStr serving : World Url PathBuf sha256) Represents := by
  intro D p port answer D' hR hcall
  have hsame : ∀ {D'}, D' = D → (∀ p', p' = p → onVault asStr serving p port answer p') →
      ∃ p', onVault asStr serving p port answer p' ∧ Represents D' p' := by
    rintro _ rfl h
    exact ⟨p, h p rfl, hR⟩
  cases port with
  | buildClient | isCancelled | beforeTransfer => exact hsame hcall fun _ h ↦ h
  | tryExists =>
    obtain ⟨hD, hthere⟩ := hcall
    exact hsame hD fun _ h ↦ ⟨h, fun there hanswer ↦ by rw [hthere there hanswer]; exact hR.there⟩
  | openStore => exact hR.opens hcall
  | send request => exact hsame hcall.1 fun _ h ↦ ⟨h, hcall.2⟩
  | create identity output unknown => exact hR.creates hcall
  | rebindUrls original final => exact hR.operate (fun h hw ↦ h.rebindUrls hw) hcall
  | finalize => exact hR.operate (fun h hw ↦ h.finalize hw) hcall
  | completeUnknown => exact hR.operate (fun h hw ↦ h.completionUnknown hw) hcall
  | transfer port =>
    cases port with
    | isCancelled | limits | pace | report | spawn => exact hsame hcall fun _ h ↦ h
    | range | join => exact hsame hcall.1 fun _ h ↦ ⟨h, hcall.2⟩
    | append bytes => exact hR.operate (fun h hw ↦ h.append hw) hcall
    | checkpoint => exact hR.operate (fun h hw ↦ h.checkpoint hw) hcall
    | complete => exact hR.operate (fun h hw ↦ h.completion hw) hcall

end Jobs

end Fhd.DownloadEngine
