import FhdEngine.DownloadEngine.VaultTransfers

/-!
# Downloads on a vault

Every step of a download keeps its vault honest (`Vault.Honest`): what the vault holds is a front of one representation
that is served at the URL it was made for, and all of it once the vault is complete; a vault whose URLs were bound anew
has a digest to be checked against. A download that returns has published such a vault (`downloadControlled_obtains`).
-/

namespace Fhd.DownloadEngine

open Fallible
open Process (Does Ensures Environment Reaches Returns Routine Simulates)
open ResumePolicy (ContentRange)
open TransferStore (Identity Status StoreError)

/-! ### Honest vaults -/

namespace Vault

variable {sha256 : Bytes → Digest} {serving : Serving} {representation : Bytes} {v v' : Vault sha256}

/-- **What the vault holds** is of this representation. -/
structure Of (serving : Serving) (representation : Bytes) (v : Vault sha256) : Prop where
  served : ∃ tag, serving v.identity.finalUrlFingerprint tag representation ∧
    ∀ t, identityTag v.identity = some t → tag = some t
  content : v.content <+: representation
  total : v.unknownLength = false → v.identity.total = representation.length

/-- A complete vault holds all of it. -/
theorem Of.whole (h : v.Of serving representation) (hstatus : v.status ≠ .downloading) : v.content = representation := by
  obtain ⟨-, hlength, hknown⟩ := v.complete hstatus
  exact h.content.eq_of_length (hlength.trans (h.total hknown))

theorem Of.same (h : v.Of serving representation) (hsame : v.Same v') (hcontent : v'.content <+: representation) :
    v'.Of serving representation where
  served := hsame.identity.symm ▸ h.served
  content := hcontent
  total hknown := hsame.identity.symm ▸ h.total (hsame.unknownLength ▸ hknown)

/-- **An honest vault.** -/
structure Honest (serving : Serving) (v : Vault sha256) : Prop where
  refreshed : v.refreshed = true → v.identity.expectedSha256.isSome
  of : v.refreshed = false → ∃ representation, v.Of serving representation

theorem Honest.advances (h : v.Honest serving) (hadvances : v.Advances v') : v'.Honest serving where
  refreshed hrefreshed := by
    rw [hadvances.identity]
    exact h.refreshed (hadvances.refreshed ▸ hrefreshed)
  of hrefreshed := by
    obtain ⟨representation, hof⟩ := h.of (hadvances.refreshed ▸ hrefreshed)
    exact ⟨representation, hof.same hadvances.toSame (hadvances.content ▸ hof.content)⟩

theorem Honest.reopened (h : v.Honest serving) : v.reopened.Honest serving where
  refreshed := h.refreshed
  of hrefreshed := by
    obtain ⟨representation, hof⟩ := h.of hrefreshed
    exact ⟨representation, hof.served, (List.take_prefix _ _).trans hof.content, hof.total⟩

/-- What a download leaves that returns. -/
structure Obtained {PathBuf : Type} (serving : Serving) (options : Options PathBuf) (outcome : Outcome)
    (v : Vault sha256) : Prop where
  honest : v.Honest serving
  published : v.status = .published
  output : v.output = options.outputName
  expected : v.identity.expectedSha256 = options.expectedSha256
  bytes : outcome.bytes = v.content.length

end Vault

def Place.Honest {sha256 : Bytes → Digest} (serving : Serving) : Place sha256 → Prop
  | .kept v => v.Honest serving
  | _ => True

/-! ### The steps of a download -/

section Download

variable {Url PathBuf : Type} {asStr : Url → String} {sha256 : Bytes → Digest} {serving : Serving}

/-- What a download does, as long as its vault stays honest. -/
abbrev Keeps {α : Type} (asStr : Url → String) (serving : Serving) (p : Place sha256) (x : DownloadM Url PathBuf α)
    (Q : α → Place sha256 → Prop) : Prop :=
  Does (onVault asStr serving) (Place.Honest serving) () p x (fun a _ p ↦ Q a p) fun _ _ _ ↦ True

/-- What returns has published an honest vault. -/
abbrev Obtains (asStr : Url → String) (serving : Serving) (options : Options PathBuf) (p : Place sha256)
    (x : DownloadM Url PathBuf Outcome) : Prop :=
  Keeps asStr serving p x fun outcome p ↦ ∃ v, p = .kept v ∧ v.Obtained serving options outcome

variable {p : Place sha256} {v : Vault sha256}

open DownloadM

theorem unlessCancelled_keeps {Q : Unit → Place sha256 → Prop} (hp : p.Honest serving) (hQ : Q () p) :
    Keeps asStr serving p (unlessCancelled : DownloadM Url PathBuf Unit) Q := by
  refine Does.ask fun cancelled p' hcall ↦ ?_
  obtain rfl : p' = p := hcall
  refine ⟨hp, ?_⟩
  split
  next => exact Does.throw trivial
  next => exact Does.pure hQ

theorem beforeTransfer_keeps {directory : PathBuf} {bytes : ℕ} {Q : Unit → Place sha256 → Prop}
    (hp : p.Honest serving) (hQ : Q () p) :
    Keeps asStr serving p (beforeTransfer directory bytes : DownloadM Url PathBuf Unit) Q := by
  refine Does.ask fun enough p' hcall ↦ ?_
  obtain rfl : p' = p := hcall
  exact ⟨hp, Does.except (fun _ _ ↦ trivial) fun _ _ ↦ hQ⟩

theorem report_keeps {committed : ℕ} {Q : Unit → Place sha256 → Prop} (hp : p.Honest serving) (hQ : Q () p) :
    Keeps asStr serving p (report committed : DownloadM Url PathBuf Unit) Q := by
  intro answer p' hcall
  obtain rfl : p' = p := hcall
  exact ⟨hp, hQ⟩

/-- A store that is complete. -/
theorem publishExisting_keeps {options : Options PathBuf} {opened : Opened} (hv : v.Honest serving)
    (hopened : v.opened = opened) (hstatus : v.status ≠ .downloading) (hexpected : opened.identity.expectedSha256 =
      options.expectedSha256) (houtput : opened.output = options.outputName) :
    Obtains asStr serving options (.kept v) (publishExisting opened : DownloadM Url PathBuf Outcome) := by
  subst hopened
  refine Does.bind (unlessCancelled_keeps (Q := fun _ p ↦ p = .kept v) hv rfl) ?_
  rintro _ _ _ rfl
  refine Does.bind (Q := fun _ _ p ↦ ∃ v', p = .kept v' ∧ v.Advances v' ∧ v'.status = .published) ?_ ?_
  · refine Does.ask fun done p' hcall ↦ ?_
    obtain ⟨v', rfl, h⟩ := hcall
    have hadvances : v' = v ∨ v.Advances v' := h.imp And.left fun h ↦ h.1.2
    refine ⟨?_, ?_⟩
    · rcases hadvances with rfl | hadvances
      · exact hv
      · exact hv.advances hadvances
    · refine Does.except (fun _ _ ↦ trivial) fun path hpath ↦ ⟨v', rfl, ?_⟩
      have hdone := disk_eq_ok.1 hpath
      rcases h with ⟨-, hfailed⟩ | ⟨⟨-, hadvances⟩, hpublished⟩
      · exact absurd hdone (hfailed path)
      · exact ⟨hadvances, hpublished.resolve_left fun hfailed ↦ hfailed path hdone⟩
  · rintro path _ _ ⟨v', rfl, hadvances, hpublished⟩
    refine Does.pure ⟨v', rfl, hv.advances hadvances, hpublished, hadvances.output.trans houtput, ?_, ?_⟩
    · rw [hadvances.identity]
      exact hexpected
    · rw [hadvances.content]
      exact (v.complete hstatus).2.1.symm

/-- **What a transfer begins with**: a vault that is checked by its digest, or one whose bytes and whose body are of
one representation. -/
def Vault.Ready (serving : Serving) (body : Body) (v : Vault sha256) : Prop :=
  v.refreshed = true ∧ v.identity.expectedSha256.isSome ∨
    v.refreshed = false ∧ v.unknownLength = false ∧ ∃ representation, v.Of serving representation ∧
      Delivers representation v.content.length body

theorem Vault.Ready.honest {body : Body} (h : v.Ready serving body) : v.Honest serving := by
  rcases h with ⟨hrefreshed, hexpected⟩ | ⟨hrefreshed, -, representation, hof, -⟩
  · exact ⟨fun _ ↦ hexpected, fun h ↦ absurd (hrefreshed.symm.trans h) Bool.noConfusion⟩
  · exact ⟨fun h ↦ absurd (hrefreshed.symm.trans h) Bool.noConfusion, fun _ ↦ ⟨representation, hof⟩⟩

theorem Vault.level {representation : Bytes} (hcontent : v.content <+: representation) (committed : ℕ) :
    Level representation v.identity v.content.length ⟨v.identity, v.content.length, committed⟩
      (Site.ofContent v.content) := by
  have hlevel : Level representation v.identity v.content.length ⟨v.identity, v.content.length, committed⟩ _ :=
    level_ofContent hcontent.length_le
  rw [← List.prefix_iff_eq_take.1 hcontent] at hlevel
  exact hlevel

/-- The ranges of a vault are served from its representation. -/
theorem Vault.Of.serves {representation : Bytes} (hof : v.Of serving representation) (tag : Bytes)
    (htag : identityTag v.identity = some tag) : serving v.identity.finalUrlFingerprint (some tag) representation := by
  obtain ⟨tag', hserved, hsame⟩ := hof.served
  exact hsame tag htag ▸ hserved

/-- A vault is honest that is beside a right site. -/
theorem Vault.Of.beside {representation : Bytes} {s : Site} (hof : v.Of serving representation)
    (hrefreshed : v.refreshed = false) (h : Beside v p s) (hright : s.Right representation) : p.Honest serving := by
  obtain ⟨v', rfl, hsame, hcontent⟩ := h
  refine ⟨fun h ↦ ?_, fun _ ↦ ⟨representation, hof.same hsame (hcontent ▸ hright.content)⟩⟩
  exact absurd (hrefreshed.symm.trans (hsame.refreshed.symm.trans h)) Bool.noConfusion

/-- **A transfer of known length.** -/
theorem transferring_keeps {plan : Plan} {body : Body} {attempt : DownloadCore.AttemptToken} {committed : ℕ}
    (htags : StrongTags serving) (hready : v.Ready serving body) :
    Keeps asStr serving (.kept v)
      (transferring ⟨v.identity, v.content.length, committed⟩
        (finishTransfer plan v.content.length body ⟨.downloading, attempt⟩) : DownloadM Url PathBuf (Outcome × Handle))
      fun r p ↦ ∃ v', p = .kept v' ∧ v.Same v' ∧ v'.Honest serving ∧ v'.status = .published ∧
        r.1.bytes = v'.content.length := by
  rw [finishTransfer_eq]
  let h : Handle := ⟨v.identity, v.content.length, committed⟩
  let x : DownloadM Url PathBuf (Outcome × Handle) := transferring h (finishDownload plan v.content.length body)
  have hpublishes : Does (onVault asStr serving) (Kept v) () (.kept v) x _ _ :=
    Does.within (vault_transfers asStr serving) rfl (finishDownload_publishes (h := h) ⟨v, rfl, .refl v⟩)
      fun _ _ hs h ↦ hs ▸ h
  have hlength : ∀ {v' : Vault sha256}, v.Same v' → v'.status = .published → v.identity.total = v'.content.length := by
    intro v' hsame hpublished
    rw [(v'.complete (hpublished ▸ Status.noConfusion)).2.1, hsame.identity]
  rcases hready with ⟨hrefreshed, hexpected⟩ | ⟨hrefreshed, hknown, representation, hof, hdelivers⟩
  · -- the bytes may be of any representation, and the digest is checked
    have hhonest : ∀ {v' : Vault sha256}, v.Same v' → v'.Honest serving := fun hsame ↦
      ⟨fun _ ↦ hsame.identity.symm ▸ hexpected, fun h ↦ absurd ((hsame.refreshed.trans hrefreshed).symm.trans h)
        Bool.noConfusion⟩
    refine (hpublishes.weaken fun p hp ↦ ?_).mono (fun r _ p hr ↦ ?_) fun _ _ _ _ ↦ trivial
    · obtain ⟨v', rfl, hsame⟩ := hp
      exact hhonest hsame
    · obtain ⟨-, _, rfl, hbytes, v', rfl, hsame, hpublished⟩ := hr
      exact ⟨v', rfl, hsame, hhonest hsame, hpublished, hbytes.trans (hlength hsame hpublished)⟩
  · have hruns : Runs asStr sha256 representation h _ (finishDownload plan v.content.length body) _ :=
      finishDownload_runs (hof.total hknown) (Vault.level hof.content committed) hdelivers
    have hown : Minds v.identity h True (finishDownload plan v.content.length body) :=
      finishDownload_own (h := h) rfl _ _
    have hwhole : Does (onVault asStr serving) (Place.Honest serving) () (.kept v) x _ _ :=
      Does.within (vault_simulates htags hof.serves) ⟨v, rfl, .refl v, rfl⟩ (hruns.allow hown)
        fun _ _ ↦ hof.beside hrefreshed
    refine (hwhole.and hpublishes).mono (fun r _ p hr ↦ ?_) fun _ _ _ _ ↦ trivial
    obtain ⟨⟨-, s, ⟨v', rfl, hsame, hcontent⟩, hs⟩, -, _, rfl, hbytes, v'', heq, -, hpublished⟩ := hr
    obtain rfl := Place.kept.inj heq
    have hcontent' : v'.content = representation := hcontent.trans hs
    refine ⟨v', rfl, hsame, ⟨fun h ↦ ?_, fun _ ↦ ⟨representation, hof.same hsame ?_⟩⟩, hpublished,
      hbytes.trans (hlength hsame hpublished)⟩
    · exact absurd (hrefreshed.symm.trans (hsame.refreshed.symm.trans h)) Bool.noConfusion
    · rw [hcontent']

theorem downloading_of_probeSucceeded {job job' : DownloadCore.Download} (h : jobEvent job .probeSucceeded = .ok job') :
    job' = ⟨.downloading, job'.attempt⟩ := by
  obtain ⟨state, attempt⟩ := job
  obtain ⟨state', attempt'⟩ := job'
  unfold jobEvent at h
  cases hevent : DownloadCore.Download.event ⟨state, attempt⟩ attempt .probeSucceeded with
  | error e =>
    rw [hevent] at h
    cases h
  | ok job'' =>
    rw [hevent] at h
    cases h
    obtain ⟨-, -, hlearn⟩ := DownloadCore.Download.event_eq_ok.1 hevent
    have hstate : state' = .downloading := by
      cases state <;> cases hlearn
      rfl
    rw [hstate]

/-- **A transfer of unknown length**, to an end that was told from an interruption. -/
theorem drainUnknown_keeps {representation : Bytes} {plan : Plan} {limit : ℕ} {body : Body} (htags : StrongTags serving)
    (hof : v.Of serving representation) (hempty : v.content = []) (hrefreshed : v.refreshed = false)
    (hbytes : body.bytes <+: representation) (hend : body.Whole → body.bytes = representation) :
    Keeps asStr serving (.kept v)
      (transferring ⟨v.identity, 0, 0⟩ (drainUnknown plan limit body) : DownloadM Url PathBuf (ℕ × Handle))
      fun r p ↦ ∃ v', p = .kept v' ∧ v.Same v' ∧ v'.content = representation ∧ r.1 = representation.length := by
  let h : Handle := ⟨v.identity, 0, 0⟩
  have hlevel : Level representation v.identity 0 h (Site.ofContent v.content) := by
    have hlevel := Vault.level hof.content 0
    rw [hempty] at hlevel ⊢
    exact hlevel
  have hruns : Runs asStr sha256 representation h _ (drainUnknown plan limit body) _ := drainUnknown_runs hlevel hbytes
  have hown : Minds v.identity h True (drainUnknown plan limit body) := drainUnknown_minds (h := h) rfl _ _
  have hwhole : Does (onVault asStr serving) (Place.Honest serving) () (.kept v)
      (transferring h (drainUnknown plan limit body) : DownloadM Url PathBuf (ℕ × Handle)) _ _ :=
    Does.within (vault_simulates htags hof.serves) ⟨v, rfl, .refl v, rfl⟩ (hruns.allow hown)
      fun _ _ ↦ hof.beside hrefreshed
  refine hwhole.mono (fun r _ p hr ↦ ?_) fun _ _ _ _ ↦ trivial
  obtain ⟨-, s, ⟨v', rfl, hsame, hcontent⟩, hlevel, hended, hreceived⟩ := hr
  rw [hend hended, Nat.zero_add] at hreceived
  refine ⟨v', rfl, hsame, ?_, hreceived⟩
  rw [hcontent, hlevel.content, hreceived, List.take_length]

/-- What becomes of a vault whose length is learned. -/
structure Vault.Completes (serving : Serving) (representation : Bytes) (v v' : Vault sha256) : Prop where
  of : v'.Of serving representation
  content : v'.content = representation
  refreshed : v'.refreshed = false
  output : v'.output = v.output
  expected : v'.identity.expectedSha256 = v.identity.expectedSha256

theorem completeUnknown_keeps {representation : Bytes} (hof : v.Of serving representation)
    (hcontent : v.content = representation) (hrefreshed : v.refreshed = false) :
    Keeps asStr serving (.kept v) (completeUnknown : DownloadM Url PathBuf Path) fun _ p ↦
      ∃ v', p = .kept v' ∧ v.Completes serving representation v' ∧ v'.status = .published := by
  have hnext : ∀ v' : Vault sha256, v.Advances v' ∧ v'.status = .downloading ∨ v.Learns v' →
      v.Completes serving representation v' := by
    rintro v' (⟨hadvances, -⟩ | hlearns)
    · have hcontent' : v'.content = representation := hadvances.content.trans hcontent
      exact ⟨hof.same hadvances.toSame (hcontent' ▸ List.prefix_rfl), hcontent', hadvances.refreshed.trans hrefreshed,
        hadvances.output, by rw [hadvances.identity]⟩
    · have hcontent' : v'.content = representation := hlearns.content.trans hcontent
      refine ⟨⟨?_, hcontent' ▸ List.prefix_rfl, fun _ ↦ ?_⟩, hcontent', hlearns.refreshed.trans hrefreshed,
        hlearns.output, by rw [hlearns.identity]⟩
      · rw [hlearns.identity]
        exact hof.served
      · rw [hlearns.identity, ← hcontent]
  refine Does.ask fun done p' hcall ↦ ?_
  obtain ⟨v', rfl, h⟩ := hcall
  refine ⟨?_, Does.except (fun _ _ ↦ trivial) fun path hdone ↦ ⟨v', rfl, ?_⟩⟩
  · rcases h with ⟨rfl, -⟩ | ⟨h, -⟩
    · exact ⟨fun h ↦ absurd (hrefreshed.symm.trans h) Bool.noConfusion, fun _ ↦ ⟨representation, hof⟩⟩
    · have hcompletes := hnext v' h
      exact ⟨fun h ↦ absurd (hcompletes.refreshed.symm.trans h) Bool.noConfusion, fun _ ↦ ⟨representation, hcompletes.of⟩⟩
  · rcases h with ⟨-, hfailed⟩ | ⟨h, hpublished⟩
    · exact absurd (disk_eq_ok.1 hdone) (hfailed path)
    · exact ⟨hnext v' h, hpublished.resolve_left fun hfailed ↦ hfailed path (disk_eq_ok.1 hdone)⟩

/-- **From the moment the store is there.** -/
theorem completeDownload_keeps {options : Options PathBuf} {plan : Plan} {original final : Digest} {start : ℕ}
    {body : Body} {job : DownloadCore.Download} (htags : StrongTags serving) (hv : v.Honest serving)
    (hstart : v.content.length = start)
    (hexpected : v.identity.expectedSha256 = options.expectedSha256) (houtput : v.output = options.outputName)
    (hrefresh : options.refreshFrom.isSome → options.expectedSha256.isSome)
    (hready : options.refreshFrom = none → v.Ready serving body) :
    Obtains asStr serving options (.kept v) (completeDownload options plan original final v.identity start body job :
      DownloadM Url PathBuf Outcome) := by
  subst hstart
  refine Does.ofExcept (fun _ _ ↦ trivial) fun job' hjob ↦ ?_
  rw [downloading_of_probeSucceeded hjob]
  -- the vault as it is when the transfer begins
  have htransfer : ∀ w : Vault sha256, w.Ready serving body → w.output = v.output → w.content = v.content →
      w.identity.expectedSha256 = v.identity.expectedSha256 →
      Obtains asStr serving options (.kept w) (Prod.fst <$> transferring ⟨w.identity, v.content.length, v.content.length⟩
        (finishTransfer plan v.content.length body ⟨.downloading, job'.attempt⟩) : DownloadM Url PathBuf Outcome) := by
    intro w hready houtput' hcontent hexpected'
    rw [← hcontent]
    refine Does.bind (transferring_keeps htags hready) fun r _ p hr ↦ Does.pure ?_
    obtain ⟨v', rfl, hsame, hhonest, hpublished, hbytes⟩ := hr
    refine ⟨v', rfl, hhonest, hpublished, hsame.output.trans (houtput'.trans houtput), ?_, hbytes⟩
    rw [hsame.identity, hexpected', hexpected]
  unfold rebound
  split
  next hrefreshing =>
    refine Does.bind (Q := fun _ _ p ↦ ∃ w : Vault sha256, p = .kept w ∧ v.Rebound original final w) ?_ ?_
    · refine Does.ask fun done p' hcall ↦ ?_
      obtain ⟨w, rfl, h⟩ := hcall
      refine ⟨?_, Does.except (fun _ _ ↦ trivial) fun _ hdone ↦ ⟨w, rfl, ?_⟩⟩
      · rcases h with ⟨rfl, -⟩ | ⟨hrebound, -⟩
        · exact hv
        · refine ⟨fun _ ↦ ?_, fun h ↦ absurd (hrebound.refreshed.symm.trans h) Bool.noConfusion⟩
          rw [hrebound.identity, hexpected]
          exact hrefresh hrefreshing
      · rcases h with ⟨-, hfailed⟩ | ⟨hrebound, -⟩
        · exact absurd (disk_eq_ok.1 hdone) (hfailed _)
        · exact hrebound
    · rintro _ _ _ ⟨w, rfl, hrebound⟩
      have hidentity := hrebound.identity
      rw [← hidentity]
      refine htransfer w (Or.inl ⟨hrebound.refreshed, ?_⟩) hrebound.output hrebound.content ?_
      · rw [hidentity, hexpected]
        exact hrefresh hrefreshing
      · rw [hidentity]
  next hplain =>
    refine Does.pure_bind (htransfer v (hready ?_) rfl rfl rfl)
    rw [Option.not_isSome_iff_eq_none] at hplain
    exact hplain

/-! ### What a response is for a store -/

/-- The tag of a new store is the one of its response. -/
theorem tag_of_storableEtag {headers : HeaderMap} {etag : Option String} (h : storableEtag headers = .ok etag) :
    (etag.bind fun text ↦ (ResumePolicy.parseEtag (utf8 text)).toOption) = entityTag headers := by
  unfold storableEtag at h
  unfold entityTag
  split at h
  next hfield =>
    cases h
    rw [hfield]
    rfl
  next => cases h
  next value hfield =>
    rw [hfield]
    split at h
    next => cases h
    next =>
      split at h
      next hweak =>
        cases h
        show none = (ResumePolicy.parseEtag value).toOption
        rw [hweak]
        rfl
      next =>
        split at h
        next => cases h
        next text htext =>
          cases h
          show (ResumePolicy.parseEtag (utf8 text)).toOption = _
          rw [utf8_of_fromUtf8 htext]

section Response

variable {UrlOrigin : Type} (U : UrlLibrary Url UrlOrigin) {representation : Bytes} {answered : Answered Url}

/-- A whole response delivers its representation from the beginning. -/
theorem Delivered.delivers (h : Delivered representation answered) (hstatus : answered.response.status = 200) :
    Delivers representation 0 answered.body :=
  h.whole hstatus

/-- **A new vault** is of the representation of its response. -/
theorem Vault.of_new {etag : Option String} {original : Digest} {total : ℕ} {expected : Option Digest} {output : String}
    {unknown founded : Bool} (hserved : serving (finalFingerprint asStr sha256 answered.response.url)
      (entityTag answered.response.headers) representation) (hetag : storableEtag answered.response.headers = .ok etag)
    (htotal : unknown = false → total = representation.length) :
    (Vault.new sha256 ⟨original, finalFingerprint asStr sha256 answered.response.url, etag, total, expected⟩ output
      unknown founded).Of serving representation where
  served := by
    refine ⟨entityTag answered.response.headers, hserved, fun t ht ↦ ?_⟩
    rw [← tag_of_storableEtag hetag]
    exact ht
  content := List.nil_prefix
  total := htotal

/-- **A response that goes on** with what the vault has is of the same representation, or the vault has nothing. -/
theorem ready_of_checkResumed {options : Options PathBuf} {opened : Opened} (htags : StrongTags serving)
    (hanswered : Honest U.asStr sha256 serving answered)
    (hcheck : checkResumed U sha256 options opened answered.response = .ok ()) (hrefresh : options.refreshFrom = none)
    (hv : v.Honest serving) (hopened : v.opened = opened) (hfresh : v.content.length = v.committed)
    (hknown : v.unknownLength = false) : v.Ready serving answered.body := by
  subst hopened
  cases hrefreshed : v.refreshed with
  | true => exact Or.inl ⟨hrefreshed, hv.refreshed hrefreshed⟩
  | false =>
    obtain ⟨served, hserved, hdelivered⟩ := hanswered
    obtain ⟨kept, hof⟩ := hv.of hrefreshed
    refine Or.inr ⟨hrefreshed, hknown, ?_⟩
    unfold checkResumed at hcheck
    obtain ⟨hfinal, hcheck⟩ := throwIf_eq_ok.1 hcheck
    have hfinal : finalFingerprint U.asStr sha256 answered.response.url = v.identity.finalUrlFingerprint :=
      not_not.1 fun h ↦ hfinal ⟨h, hrefresh⟩
    rw [hfinal] at hserved
    split at hcheck
    next hcommitted =>
      -- the range was granted for the tag of the vault
      split at hcheck
      next => cases hcheck
      next etag hetag =>
        split at hcheck
        next => cases hcheck
        next tag htag =>
          split at hcheck
          next => cases hcheck
          next request hrequest =>
            split at hcheck
            next permit hpermit =>
              obtain ⟨hstart, hstop, -, hrequested⟩ := resumeRequest_eq_ok hrequest
              obtain ⟨hstatus, hentity, value, hvalue, hparse⟩ := ranged_of_evaluate hpermit
              obtain ⟨kepttag, hkept, htagged⟩ := hof.served
              have hidentity : identityTag v.identity = some tag := by
                rw [identityTag, show v.identity.strongEtag = some etag from hetag, Option.bind_some, htag]
                rfl
              have hsame : served = kept := by
                rw [hentity, hrequested] at hserved
                exact htags _ _ _ _ hserved (htagged tag hidentity ▸ hkept)
              subst hsame
              refine ⟨served, hof, ?_⟩
              have hranged := (hdelivered.ranged hstatus value _ _ _ hvalue hparse).2
              rw [hstart, hstop] at hranged
              rw [Delivers, hfresh, ← hof.total hknown]
              exact hranged
            next => cases hcheck
    next hcommitted =>
      -- there is nothing of another representation
      obtain ⟨hstatus, hcheck⟩ := throwIf_eq_ok.1 hcheck
      obtain ⟨-, hcheck⟩ := throwIf_eq_ok.1 hcheck
      obtain ⟨total, htotal, hcheck⟩ := bind_eq_ok.1 hcheck
      obtain ⟨hlength, hcheck⟩ := throwIf_eq_ok.1 hcheck
      obtain ⟨htag, -⟩ := throwIf_eq_ok.1 hcheck
      have hstatus := not_not.1 hstatus
      have hempty : v.content = [] := List.eq_nil_of_length_eq_zero (hfresh.trans (Nat.eq_zero_of_not_pos hcommitted))
      refine ⟨served, ⟨⟨entityTag answered.response.headers, hserved, fun t ht ↦ ?_⟩, ?_, fun _ ↦ ?_⟩, ?_⟩
      · obtain ⟨etag, hetag, hparse⟩ := Option.bind_eq_some_iff.1 ht
        have hsingle : field answered.response.headers .etag = .single (utf8 etag) := by
          have hetag' : v.opened.identity.strongEtag = some etag := hetag
          rw [hetag', Option.any_some, decide_eq_true_eq] at htag
          exact not_not.1 htag
        refine entityTag_of_single hsingle ?_
        cases htext : ResumePolicy.parseEtag (utf8 etag) with
        | error e =>
          rw [htext] at hparse
          cases hparse
        | ok tag =>
          rw [htext] at hparse
          cases hparse
          rfl
      · rw [hempty]
        exact List.nil_prefix
      · rw [← hdelivered.declared hstatus total htotal]
        exact (not_not.1 hlength).symm
      · rw [hempty]
        exact hdelivered.delivers hstatus

end Response

/-! ### From the request on -/

section Request

variable {UrlOrigin : Type} (U : UrlLibrary Url UrlOrigin) {parent : PathBuf → Option PathBuf}
  {options : Options PathBuf} {plan : Plan} {original : Url} {answered : Answered Url}

/-- A request, over an honest network. -/
theorem requesting_keeps [DecidableEq UrlOrigin] (a : Asking Url) (hp : p.Honest serving) :
    Keeps asStr serving p (requesting (a.request U) : DownloadM Url PathBuf (Answered Url)) fun answered p' ↦
      p' = p ∧ Honest asStr sha256 serving answered := by
  have hsim : Simulates (onVault asStr serving : World Url PathBuf sha256) (answering (Honest asStr sha256 serving))
      sendPort sendAnswer fun p' _ ↦ p' = p := by
    rintro _ _ port exchange p' rfl hcall
    cases port with
    | send request =>
      obtain ⟨rfl, hanswered⟩ := hcall
      refine ⟨(), ?_, rfl⟩
      cases exchange with
      | cancelled | failed => trivial
      | answered answered => exact (hanswered answered rfl).2
  have hwithin := Does.within (v := ()) (Q := fun answered _ _ ↦ Honest asStr sha256 serving answered) hsim rfl
    (request_answers U a) fun _ _ h _ ↦ h.symm ▸ hp
  refine Does.bind (hwithin.mono (fun _ _ _ ↦ id) fun _ _ _ _ ↦ trivial) fun r _ p' hr ↦ Does.pure ?_
  obtain ⟨-, _, rfl, hhonest⟩ := hr
  exact ⟨rfl, hhonest⟩

/-- **A store is created**, or it is not. -/
theorem create_keeps {identity : Identity} {output : String} {unknown : Bool}
    (hnew : ∀ founded, (Vault.new sha256 identity output unknown founded).Honest serving) :
    Keeps asStr serving .vacant (create identity output unknown : DownloadM Url PathBuf Unit) fun _ p ↦
      ∃ founded, p = .kept (.new sha256 identity output unknown founded) := by
  refine Does.ask fun done p' hcall ↦ ?_
  rcases hcall with ⟨rfl, hfailed⟩ | ⟨-, ⟨rfl, hfailed⟩ | ⟨founded, rfl, -⟩⟩
  · exact ⟨trivial, Does.except (fun _ _ ↦ trivial) fun a hdone ↦ absurd (disk_eq_ok.1 hdone) (hfailed a)⟩
  · exact ⟨trivial, Does.except (fun _ _ ↦ trivial) fun a hdone ↦ absurd (disk_eq_ok.1 hdone) (hfailed a)⟩
  · exact ⟨hnew founded, Does.except (fun _ _ ↦ trivial) fun _ _ ↦ ⟨founded, rfl⟩⟩

/-- **A body of unknown length**, which is the representation once its framing has said so. -/
theorem transferUnknown_keeps (htags : StrongTags serving) (hanswered : Honest U.asStr sha256 serving answered)
    (hstatus : answered.response.status = 200) :
    Obtains U.asStr serving options (.vacant : Place sha256)
      (transferUnknown U parent sha256 options plan original answered) := by
  obtain ⟨representation, hserved, hdelivered⟩ := hanswered
  refine Does.ofExcept (fun _ _ ↦ trivial) fun _ hframing ↦ Does.ofExcept (fun _ _ ↦ trivial) fun etag hetag ↦ ?_
  obtain ⟨hbytes, hend⟩ := hdelivered.framed hstatus hframing
  refine Does.bind (unlessCancelled_keeps (Q := fun _ p ↦ p = .vacant) trivial rfl) ?_
  rintro _ _ _ rfl
  split
  next => exact Does.throw trivial
  next directory hparent =>
    refine Does.bind (beforeTransfer_keeps (Q := fun _ p ↦ p = .vacant) trivial rfl) ?_
    rintro _ _ _ rfl
    let identity : Identity := ⟨fingerprint U sha256 original, fingerprint U sha256 answered.response.url, etag,
      options.maxDownloadBytes.toNat, options.expectedSha256⟩
    let v (founded : Bool) : Vault sha256 := .new sha256 identity options.outputName true founded
    have hof : ∀ founded, (v founded).Of serving representation := fun founded ↦
      Vault.of_new hserved hetag fun h ↦ Bool.noConfusion h
    have hv : ∀ founded, (v founded).Honest serving := fun founded ↦
      ⟨fun h ↦ Bool.noConfusion h, fun _ ↦ ⟨representation, hof founded⟩⟩
    refine Does.bind (create_keeps hv) ?_
    rintro _ _ _ ⟨founded, rfl⟩
    have hof := hof founded
    refine Does.bind (drainUnknown_keeps htags hof rfl rfl hbytes hend) ?_
    rintro ⟨received, h⟩ _ _ ⟨v', rfl, hsame, hcontent, hreceived⟩
    have hof' : v'.Of serving representation := hof.same hsame (hcontent ▸ List.prefix_rfl)
    refine Does.bind (completeUnknown_keeps hof' hcontent hsame.refreshed) ?_
    rintro path _ _ ⟨v'', rfl, hcompletes, hpublished⟩
    have hv'' : v''.Honest serving :=
      ⟨fun h ↦ absurd (hcompletes.refreshed.symm.trans h) Bool.noConfusion, fun _ ↦ ⟨representation, hcompletes.of⟩⟩
    refine Does.bind (report_keeps (Q := fun _ p ↦ p = .kept v'') hv'' rfl) ?_
    rintro _ _ _ rfl
    refine Does.pure ⟨v'', rfl, hv'', hpublished, hcompletes.output.trans hsame.output, ?_, ?_⟩
    · exact hcompletes.expected.trans (congrArg Identity.expectedSha256 hsame.identity)
    · rw [hcompletes.content]
      exact hreceived

/-- **A body of known length**, for a new store. -/
theorem createStore_keeps {job : DownloadCore.Download} (htags : StrongTags serving)
    (hanswered : Honest U.asStr sha256 serving answered) (hstatus : answered.response.status = 200)
    (hrefresh : options.refreshFrom.isSome → options.expectedSha256.isSome) :
    Obtains U.asStr serving options (.vacant : Place sha256)
      (createStore U parent sha256 options plan original answered job) := by
  obtain ⟨representation, hserved, hdelivered⟩ := hanswered
  refine Does.ofExcept (fun _ _ ↦ trivial) fun total htotal ↦ Does.when (fun _ ↦ trivial) fun _ ↦ ?_
  obtain rfl := hdelivered.declared hstatus total htotal
  split
  next => exact Does.throw trivial
  next directory hparent =>
    refine Does.bind (beforeTransfer_keeps (Q := fun _ p ↦ p = .vacant) trivial rfl) ?_
    rintro _ _ _ rfl
    refine Does.ofExcept (fun _ _ ↦ trivial) fun etag hetag ↦ ?_
    let identity : Identity := ⟨fingerprint U sha256 original, fingerprint U sha256 answered.response.url, etag,
      representation.length, options.expectedSha256⟩
    let v (founded : Bool) : Vault sha256 := .new sha256 identity options.outputName false founded
    have hof : ∀ founded, (v founded).Of serving representation := fun founded ↦ Vault.of_new hserved hetag fun _ ↦ rfl
    have hv : ∀ founded, (v founded).Honest serving := fun founded ↦
      ⟨fun h ↦ Bool.noConfusion h, fun _ ↦ ⟨representation, hof founded⟩⟩
    refine Does.bind (create_keeps hv) ?_
    rintro _ _ _ ⟨founded, rfl⟩
    refine completeDownload_keeps (v := v founded) htags (hv founded) rfl rfl rfl hrefresh fun _ ↦
      Or.inr ⟨rfl, rfl, representation, hof founded, ?_⟩
    exact hdelivered.delivers hstatus

/-- The store that was opened, or none. -/
def Found (serving : Serving) (options : Options PathBuf) : Option Opened → Place sha256 → Prop
  | none, p => p = .vacant
  | some opened, p => ∃ v : Vault sha256, p = .kept v ∧ v.Honest serving ∧ v.opened = opened ∧
    v.content.length = v.committed ∧ v.unknownLength = false ∧
      opened.identity.expectedSha256 = options.expectedSha256 ∧ opened.output = options.outputName

/-- **From the request on.** -/
theorem requestDownload_keeps [DecidableEq UrlOrigin] {existing : Option Opened} (htags : StrongTags serving)
    (hrefresh : options.refreshFrom.isSome → options.expectedSha256.isSome) (hfound : Found serving options existing p) :
    Obtains U.asStr serving options p (requestDownload U parent sha256 options plan original existing) := by
  have hp : p.Honest serving := by
    cases existing with
    | none =>
      obtain rfl : p = .vacant := hfound
      trivial
    | some opened =>
      obtain ⟨v, rfl, hv, -⟩ := hfound
      exact hv
  refine Does.ofExcept (fun _ _ ↦ trivial) fun range _ ↦ ?_
  refine Does.bind (requesting_keeps U _ hp) ?_
  rintro answered _ _ ⟨rfl, hanswered⟩
  refine Does.when (fun _ ↦ trivial) fun _ ↦ Does.ofExcept (fun _ _ ↦ trivial) fun _ _ ↦ ?_
  refine Does.ofExcept (fun _ _ ↦ trivial) fun job _ ↦ ?_
  cases existing with
  | some opened =>
    obtain ⟨v, rfl, hv, rfl, hfresh, hknown, hexpected, houtput⟩ := hfound
    refine Does.ofExcept (fun _ _ ↦ trivial) fun _ hcheck ↦ ?_
    exact completeDownload_keeps htags hv hfresh hexpected houtput hrefresh fun hplain ↦
      ready_of_checkResumed U htags hanswered hcheck hplain hv rfl hfresh hknown
  | none =>
    obtain rfl : _ = Place.vacant := hfound
    refine Does.ofExcept (fun _ _ ↦ trivial) fun _ hcheck ↦ ?_
    unfold checkFirst at hcheck
    have hstatus := not_not.1 (throwIf_eq_ok.1 hcheck).1
    exact Does.ite (fun _ ↦ transferUnknown_keeps U htags hanswered hstatus) fun _ ↦
      createStore_keeps U htags hanswered hstatus hrefresh

/-- **With the store that is there.** -/
theorem resumeDownload_keeps [DecidableEq UrlOrigin] {opened : Opened} (htags : StrongTags serving)
    (hrefresh : options.refreshFrom.isSome → options.expectedSha256.isSome) (hv : v.Honest serving)
    (hopened : v.opened = opened) (hfresh : v.content.length = v.committed) :
    Obtains U.asStr serving options (.kept v) (resumeDownload U parent sha256 options plan original opened) := by
  subst hopened
  refine Does.ofExcept (fun _ _ ↦ trivial) fun _ hcheck ↦ ?_
  obtain ⟨hexpected, houtput⟩ : v.identity.expectedSha256 = options.expectedSha256 ∧ v.output = options.outputName := by
    unfold checkExisting at hcheck
    split at hcheck
    next => cases hcheck
    next hmatches =>
      rw [not_or, not_or] at hmatches
      exact ⟨not_not.1 hmatches.2.1, not_not.1 hmatches.2.2⟩
  have hkept : (Place.kept v).Honest serving := hv
  have hlast : Obtains U.asStr serving options (.kept v) (if v.status ≠ .downloading then publishExisting v.opened
      else if v.unknownLength then throw .resumeUnsupported
      else if v.committed = v.identity.total ∧ v.committed > 0 then throw .resumeRejected
      else requestDownload U parent sha256 options plan original (some v.opened)) := by
    refine Does.ite (fun hstatus ↦ publishExisting_keeps hv rfl hstatus hexpected houtput) fun _ ↦ ?_
    refine Does.ite (fun _ ↦ Does.throw trivial) fun hknown ↦ Does.ite (fun _ ↦ Does.throw trivial) fun _ ↦ ?_
    exact requestDownload_keeps U htags hrefresh
      ⟨v, rfl, hv, rfl, hfresh, Bool.eq_false_iff.2 hknown, hexpected, houtput⟩
  have hreport : Obtains U.asStr serving options (.kept v) (do
      if v.committed > 0 then report v.committed
      if v.status ≠ .downloading then publishExisting v.opened
      else if v.unknownLength then throw .resumeUnsupported
      else if v.committed = v.identity.total ∧ v.committed > 0 then throw .resumeRejected
      else requestDownload U parent sha256 options plan original (some v.opened)) := by
    refine Does.ite (fun _ ↦ Does.bind (report_keeps (Q := fun _ p ↦ p = .kept v) hkept rfl) ?_) fun _ ↦ hlast
    rintro _ _ _ rfl
    exact hlast
  refine Does.ite (fun _ ↦ Does.bind (beforeTransfer_keeps (Q := fun _ p ↦ p = .kept v) hkept rfl) ?_) fun _ ↦ hreport
  rintro _ _ _ rfl
  exact hreport

/-- The store of a directory that is there, or none. -/
theorem openExisting_keeps (hp : p.Honest serving) :
    Keeps asStr serving p (openExisting : DownloadM Url PathBuf (Option Opened)) fun existing p ↦
      (existing = none ∧ p = .vacant) ∨ ∃ v : Vault sha256, existing = some v.opened ∧ p = .kept v ∧ v.Honest serving ∧
        v.content.length = v.committed := by
  refine Does.ask fun there p' hcall ↦ ?_
  obtain ⟨rfl, hthere⟩ := hcall
  refine ⟨hp, Does.ofExcept (fun _ _ ↦ trivial) fun found hfound ↦ ?_⟩
  have hfound : there = .ok found := by
    cases there with
    | error e => cases hfound
    | ok there =>
      cases hfound
      rfl
  have hvacant := hthere found hfound
  cases found with
  | false =>
    refine Does.pure (Or.inl ⟨rfl, ?_⟩)
    exact not_not.1 fun h ↦ Bool.noConfusion (hvacant.2 h)
  | true =>
    refine Does.bind (Q := fun opened _ p ↦ ∃ v : Vault sha256, opened = v.opened ∧ p = .kept v ∧ v.Honest serving ∧
      v.content.length = v.committed) ?_ ?_
    · refine Does.ask fun done p'' hcall ↦ ?_
      rcases hcall with ⟨rfl, hfailed⟩ | ⟨v, rfl, rfl, rfl⟩
      · exact ⟨hp, Does.except (fun _ _ ↦ trivial) fun a hdone ↦ absurd (disk_eq_ok.1 hdone) (hfailed a)⟩
      · have hv : v.reopened.Honest serving := Vault.Honest.reopened hp
        refine ⟨hv, Does.except (fun _ _ ↦ trivial) fun opened hdone ↦ ?_⟩
        cases disk_eq_ok.1 hdone
        exact ⟨v.reopened, rfl, rfl, hv, List.length_take_of_le v.committed_le⟩
    · rintro opened _ _ ⟨v, rfl, rfl, hv, hfresh⟩
      exact Does.pure (Or.inr ⟨v, rfl, rfl, hv, hfresh⟩)

/-- A refresh is only admitted with a digest. -/
theorem expected_of_admitOptions {admitted : Plan × Url} (h : admitOptions U options = .ok admitted)
    (hrefresh : options.refreshFrom.isSome) : options.expectedSha256.isSome := by
  unfold admitOptions at h
  split at h
  next => cases h
  next =>
    obtain ⟨_, -, h⟩ := bind_eq_ok.1 h
    obtain ⟨hnone, -⟩ := throwIf_eq_ok.1 h
    exact Option.isSome_iff_ne_none.2 fun h ↦ hnone ⟨hrefresh, h⟩

/-- **A download that returns has published an honest vault**, and none becomes dishonest on the way. -/
theorem downloadControlled_obtains [DecidableEq UrlOrigin] (parent : PathBuf → Option PathBuf)
    (options : Options PathBuf) (htags : StrongTags serving) (hp : p.Honest serving) :
    Obtains U.asStr serving options p (downloadControlled U parent sha256 options) := by
  refine Does.ofExcept (fun _ _ ↦ trivial) fun admitted hadmitted ↦ ?_
  have hrefresh := expected_of_admitOptions U hadmitted
  obtain ⟨plan, original⟩ := admitted
  refine Does.bind (unlessCancelled_keeps (Q := fun _ p' ↦ p' = p) hp rfl) ?_
  rintro _ _ _ rfl
  refine Does.ask fun (built : Bool) p' hcall ↦ ?_
  obtain rfl : p' = _ := hcall
  refine ⟨hp, Does.when (fun _ ↦ trivial) fun _ ↦ Does.bind (openExisting_keeps hp) ?_⟩
  rintro existing _ p hexisting
  have hp : p.Honest serving := by
    rcases hexisting with ⟨-, rfl⟩ | ⟨v, -, rfl, hv, -⟩
    · trivial
    · exact hv
  refine Does.bind (unlessCancelled_keeps (Q := fun _ p' ↦ p' = p) hp rfl) ?_
  rintro _ _ _ rfl
  rcases hexisting with ⟨rfl, rfl⟩ | ⟨v, rfl, rfl, hv, hfresh⟩
  · exact requestDownload_keeps U htags hrefresh rfl
  · exact resumeDownload_keeps U htags hrefresh hv rfl hfresh

end Request

end Download

end Fhd.DownloadEngine
