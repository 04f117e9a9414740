import FhdEngine.DownloadEngine.OwnRanges
import FhdEngine.DownloadEngine.Vault

/-!
# A transfer on a vault

What a transfer does to the site of `FhdEngine.DownloadEngine.ParallelRuns` it does to a vault (`vault_simulates`): the
ranges it asks for are of the identity of the vault, so an honest network answers them from the one representation that
this identity names. A transfer that returns has published its vault, whatever the network answered
(`finishDownload_publishes`).
-/

namespace Fhd.DownloadEngine

open Process (Does Environment Routine Simulates allowing)
open TransferStore (Identity StoreError)

section Unknown

variable {Url : Type} {asStr : Url → String} {sha256 : Bytes → Digest} {representation : Bytes} {identity : Identity}
  {n : ℕ} {h : Handle} {s : Site}

/-- **A body of unknown length** is drained to its end, or not at all. -/
theorem drainUnknown_runs {plan : Plan} {limit : ℕ} {body : Body} (hlevel : Level representation identity n h s)
    (hnext : body.bytes <+: representation.drop n) :
    Runs asStr sha256 representation h s (drainUnknown plan limit body) fun received h s ↦
      Level representation identity received h s ∧ body.Whole ∧ received = n + body.bytes.length := by
  induction body generalizing n h s with
  | ended =>
    rw [drainUnknown]
    refine unlessCancelled_runs hlevel.right (unlessCancelled_runs hlevel.right (Does.get (Does.pure ?_)))
    exact ⟨hlevel.len.symm ▸ hlevel, True.intro, hlevel.len⟩
  | late =>
    rw [drainUnknown]
    refine unlessCancelled_runs hlevel.right ?_
    exact Does.bind (giveUp_runs hlevel.right (Q := fun _ _ _ ↦ False)) fun _ _ _ h ↦ h.elim
  | broken error =>
    rw [drainUnknown]
    refine unlessCancelled_runs hlevel.right ?_
    exact Does.bind (giveUp_runs hlevel.right (Q := fun _ _ _ ↦ False)) fun _ _ _ h ↦ h.elim
  | chunk chunk rest ih =>
    rw [drainUnknown]
    obtain ⟨after, hafter⟩ := hnext
    have hassoc : chunk ++ (rest.bytes ++ after) = representation.drop n := (List.append_assoc ..).symm.trans hafter
    have hrest : rest.bytes <+: representation.drop (n + chunk.length) := by
      refine ⟨after, ?_⟩
      rw [← List.drop_drop, ← hassoc, List.drop_left]
    refine unlessCancelled_runs hlevel.right (Does.get ?_)
    split
    next => exact Does.bind (giveUp_runs hlevel.right (Q := fun _ _ _ ↦ False)) fun _ _ _ h ↦ h.elim
    next =>
      refine Does.ask fun limits s' hcall ↦ ?_
      cases hcall
      have hflatten : (slices (sliceBytes limits) chunk).flatten = chunk := flatten_slices (sliceBytes_pos limits) chunk
      have hchunk : (slices (sliceBytes limits) chunk).flatten <+: representation.drop n := by
        rw [hflatten]
        exact ⟨_, hassoc⟩
      refine ⟨hlevel.right, Does.bind (storeSlices_runs hlevel hchunk) fun _ h s hlevel ↦ ?_⟩
      rw [hflatten] at hlevel
      refine (ih hlevel hrest).mono (fun received h s hdrained ↦ ⟨hdrained.1, hdrained.2.1, ?_⟩) fun _ _ _ ↦ id
      rw [hdrained.2.2, Nat.add_assoc, ← List.length_append]
      rfl

end Unknown

/-! ### The world of a transfer -/

theorem disk_eq_ok {α : Type} {done : Option (Except StoreError α)} {a : α} :
    disk done = .ok a ↔ done = some (.ok a) := by
  rcases done with _ | e | b <;> simp [disk]

section Stores

variable {Url PathBuf : Type} (asStr : Url → String) {sha256 : Bytes → Digest} (serving : Serving)

def onStore : Environment (Place sha256) TransferPort TransferAnswer := fun p port answer p' ↦
  stores asStr serving p port answer p'

/-- Where a download runs. -/
abbrev World (Url PathBuf : Type) (sha256 : Bytes → Digest) :=
  Environment (Place sha256) (DownloadPort Url PathBuf) (DownloadAnswer Url PathBuf)

theorem vault_transfers : Simulates (onVault asStr serving : World Url PathBuf sha256) (onStore asStr serving)
    DownloadPort.transfer (fun _ answer ↦ answer) Eq := by
  rintro p _ port answer p' rfl hcall
  exact ⟨p', hcall, rfl⟩

/-- A vault like this one, with the content of the site. -/
def Beside (v₀ : Vault sha256) (p : Place sha256) (s : Site) : Prop :=
  ∃ v, p = .kept v ∧ v₀.Same v ∧ v.content = s.content

/-- It is still a vault like this one. -/
def Kept (v₀ : Vault sha256) (p : Place sha256) : Prop := ∃ v, p = .kept v ∧ v₀.Same v

variable {asStr serving} {v₀ v : Vault sha256} {representation : Bytes}

theorem Vault.Same.refl (v : Vault sha256) : v.Same v := ⟨rfl, rfl, rfl, rfl, rfl⟩

theorem Vault.Same.trans {v v' v'' : Vault sha256} (h : v.Same v') (h' : v'.Same v'') : v.Same v'' :=
  ⟨h'.identity.trans h.identity, h'.output.trans h.output, h'.unknownLength.trans h.unknownLength,
    h'.refreshed.trans h.refreshed, h'.founded.trans h.founded⟩

theorem Site.content_settle {α : Type} (s : Site) (r : Except Error α) : (s.settle r).content = s.content := by
  cases r <;> rfl

/-- What may become of the vault in a transfer. -/
theorem stores_kept {p' : Place sha256} {port : TransferPort} {answer : TransferAnswer port}
    (hcall : onStore asStr serving (.kept v) port answer p') :
    p' = .kept v ∨ ∃ v', p' = .kept v' ∧ v.Same v' ∧ ((∃ bytes, port = .append bytes ∧ v'.content = v.content ++ bytes) ∨
      (port = .checkpoint ∨ port = .complete) ∧ v'.content = v.content) := by
  cases port with
  | isCancelled | limits | pace | report | spawn => exact .inl hcall
  | range | join => exact .inl hcall.1
  | append bytes =>
    obtain ⟨v', hp', ⟨rfl, -⟩ | ⟨hgrows, -⟩⟩ := hcall
    · exact .inl hp'
    · exact .inr ⟨v', hp', hgrows.toSame, .inl ⟨bytes, rfl, hgrows.content⟩⟩
  | checkpoint =>
    obtain ⟨v', hp', ⟨rfl, -⟩ | ⟨⟨hadvances, -⟩, -⟩⟩ := hcall
    · exact .inl hp'
    · exact .inr ⟨v', hp', hadvances.toSame, .inr ⟨.inl rfl, hadvances.content⟩⟩
  | complete =>
    obtain ⟨v', hp', ⟨rfl, -⟩ | ⟨hadvances, -⟩⟩ := hcall
    · exact .inl hp'
    · exact .inr ⟨v', hp', hadvances.toSame, .inr ⟨.inr rfl, hadvances.content⟩⟩

/-- **Whatever is called**, it stays a vault like this one. -/
theorem kept_stores {p p' : Place sha256} {port : TransferPort} {answer : TransferAnswer port} (hp : Kept v₀ p)
    (hcall : onStore asStr serving p port answer p') : Kept v₀ p' := by
  obtain ⟨v, rfl, hsame⟩ := hp
  obtain rfl | ⟨v', rfl, hsame', -⟩ := stores_kept hcall
  · exact ⟨v, rfl, hsame⟩
  · exact ⟨v', rfl, hsame.trans hsame'⟩

/-- **The site of a transfer on a vault**, over an honest network. -/
theorem vault_simulates (htags : StrongTags serving) (hserving : ∀ tag, identityTag v₀.identity = some tag →
    serving v₀.identity.finalUrlFingerprint (some tag) representation) :
    Simulates (onVault asStr serving : World Url PathBuf sha256)
      (allowing (TransferPort.Own v₀.identity) (Transfers asStr sha256 representation)) DownloadPort.transfer
      (fun _ answer ↦ answer) (Beside v₀) := by
  rintro p s port answer p' ⟨v, rfl, hsame, hcontent⟩ hcall
  have hcall' : onStore asStr serving (.kept v) port answer p' := hcall
  -- a range that is the vault's own is one of the representation
  have hends : ∀ (f : Fetch) range r, f.fingerprint = v₀.identity.finalUrlFingerprint ∧
      v₀.identity.strongEtag = some f.etag → f.Fetched asStr sha256 serving range r →
        f.Ends asStr sha256 representation range r := by
    intro f range r hown hfetched
    refine hfetched.ends htags fun tag htag ↦ ?_
    rw [hown.1]
    refine hserving tag ?_
    rw [identityTag, hown.2, Option.bind_some, htag]
    rfl
  have hstays : ∀ {s'}, s'.content = s.content → p' = .kept v → Beside v₀ p' s' := fun hs' hp' ↦
    ⟨v, hp', hsame, hcontent.trans hs'.symm⟩
  cases port with
  | isCancelled => exact ⟨s, ⟨fun _ ↦ .isCancelled answer, fun _ ↦ rfl⟩, hstays rfl hcall⟩
  | limits => exact ⟨s, ⟨fun _ ↦ .limits answer, fun _ ↦ rfl⟩, hstays rfl hcall⟩
  | pace bytes => exact ⟨s, ⟨fun _ ↦ .pace answer, fun _ ↦ rfl⟩, hstays rfl hcall⟩
  | report committed => exact ⟨s, ⟨fun _ ↦ .report, fun _ ↦ rfl⟩, hstays rfl hcall⟩
  | spawn f ranges =>
    by_cases hown : TransferPort.Own v₀.identity (.spawn f ranges)
    · exact ⟨_, ⟨fun _ ↦ .spawn, fun h ↦ absurd hown h⟩, hstays rfl hcall⟩
    · exact ⟨s, ⟨fun h ↦ absurd h hown, fun _ ↦ rfl⟩, hstays rfl hcall⟩
  | range f range =>
    by_cases hown : TransferPort.Own v₀.identity (.range f range)
    · refine ⟨_, ⟨fun _ ↦ .range answer (hends f range answer hown hcall.2), fun h ↦ absurd hown h⟩, hstays ?_ hcall.1⟩
      exact Site.content_settle ..
    · exact ⟨s, ⟨fun h ↦ absurd h hown, fun _ ↦ rfl⟩, hstays rfl hcall.1⟩
  | join f running =>
    obtain ⟨task, answer⟩ := answer
    by_cases hown : TransferPort.Own v₀.identity (.join f running)
    · refine ⟨_, ⟨fun _ ↦ .join task answer fun r hr ↦ hends f task.1.1 r hown (hcall.2 r hr), fun h ↦ absurd hown h⟩,
        hstays ?_ hcall.1⟩
      exact Site.content_settle ..
    · exact ⟨s, ⟨fun h ↦ absurd h hown, fun _ ↦ rfl⟩, hstays rfl hcall.1⟩
  | append bytes =>
    obtain ⟨v', rfl, h⟩ := hcall
    rcases h with ⟨rfl, hfailed⟩ | ⟨hgrows, -⟩
    · refine ⟨_, ⟨fun _ ↦ .append answer [] List.nil_prefix fun h ↦ absurd h (hfailed ()), fun h ↦ absurd trivial h⟩, ?_⟩
      exact ⟨v', rfl, hsame, hcontent.trans (List.append_nil _).symm⟩
    · refine ⟨_, ⟨fun _ ↦ .append answer bytes List.prefix_rfl fun _ ↦ rfl, fun h ↦ absurd trivial h⟩, ?_⟩
      exact ⟨v', rfl, hsame.trans hgrows.toSame, by rw [hgrows.content, hcontent]⟩
  | checkpoint =>
    refine ⟨s, ⟨fun _ ↦ .checkpoint answer, fun _ ↦ rfl⟩, ?_⟩
    obtain rfl | ⟨v', rfl, hsame', ⟨_, hport, -⟩ | ⟨-, hcontent'⟩⟩ := stores_kept hcall'
    · exact hstays rfl rfl
    · cases hport
    · exact ⟨v', rfl, hsame.trans hsame', hcontent'.trans hcontent⟩
  | complete =>
    refine ⟨s, ⟨fun _ ↦ .complete answer, fun _ ↦ rfl⟩, ?_⟩
    obtain rfl | ⟨v', rfl, hsame', ⟨_, hport, -⟩ | ⟨-, hcontent'⟩⟩ := stores_kept hcall'
    · exact hstays rfl rfl
    · cases hport
    · exact ⟨v', rfl, hsame.trans hsame', hcontent'.trans hcontent⟩

/-- What returns has published a vault like this one, of this length. -/
abbrev Publishes (asStr : Url → String) (serving : Serving) (v₀ : Vault sha256) (total : ℕ) (h : Handle)
    (p : Place sha256) (x : TransferM Outcome) : Prop :=
  Does (onStore asStr serving) (Kept v₀) h p x
    (fun outcome _ p ↦ outcome.bytes = total ∧ ∃ v, p = .kept v ∧ v₀.Same v ∧ v.status = .published) fun _ _ _ ↦ True

/-- **A transfer that returns has published** its vault, whatever the network answered. -/
theorem finishDownload_publishes {plan : Plan} {start : ℕ} {body : Body} {h : Handle} {p : Place sha256}
    (hp : Kept v₀ p) : Publishes asStr serving v₀ h.identity.total h p (finishDownload plan start body) := by
  have hkeeps : ∀ {α : Type} {x : TransferM α} {h p}, Kept v₀ p →
      Does (onStore asStr serving) (Kept v₀) h p x (fun _ _ p ↦ Kept v₀ p) fun _ _ _ ↦ True := by
    intro α x h p hp
    have hdoes : Does (onStore asStr serving) (Kept v₀) h p x (fun _ _ ↦ Kept v₀) fun _ _ ↦ Kept v₀ :=
      Does.keeps (fun _ _ _ _ hp hcall ↦ kept_stores hp hcall) hp
    exact hdoes.mono (fun _ _ _ ↦ id) fun _ _ _ _ ↦ trivial
  have hcomplete : ∀ (total : ℕ) (h : Handle) (p : Place sha256), Kept v₀ p →
      Publishes asStr serving v₀ total h p
        (do
          let done : Option (Except StoreError Path) ← Routine.ask TransferPort.complete
          let path ← MonadExcept.ofExcept (disk done)
          return (⟨total, start, path⟩ : Outcome)) := by
    rintro total h p ⟨v, rfl, hsame⟩
    refine Does.ask fun done p' hcall ↦ ⟨kept_stores ⟨v, rfl, hsame⟩ hcall, ?_⟩
    refine Does.ofExcept (fun _ _ ↦ trivial) fun path hpath ↦ Does.pure ⟨rfl, ?_⟩
    obtain ⟨v', rfl, ⟨-, hfailed⟩ | ⟨hadvances, hdone⟩⟩ := hcall
    · exact absurd (disk_eq_ok.1 hpath) (hfailed path)
    · refine ⟨v', rfl, hsame.trans hadvances.toSame, hdone.resolve_left fun hfailed ↦ ?_⟩
      exact hfailed path (disk_eq_ok.1 hpath)
  have hfinish : ∀ (received total : ℕ) (h : Handle) (p : Place sha256), Kept v₀ p →
      Publishes asStr serving v₀ total h p
        (do
          if received ≠ total then throw .bodyLength
          if ← TransferM.isCancelled then TransferM.giveUp .cancelled
          let done : Option (Except StoreError Path) ← Routine.ask TransferPort.complete
          let path ← MonadExcept.ofExcept (disk done)
          return (⟨total, start, path⟩ : Outcome)) := by
    intro received total h p hp
    refine Does.when (fun _ ↦ trivial) fun _ ↦ Does.ask fun cancelled p' hcall ↦ ?_
    obtain rfl : p' = p := hcall
    refine ⟨hp, ?_⟩
    split
    next => exact Does.bind (hkeeps hp) fun _ h p hp ↦ hcomplete total h p hp
    next => exact hcomplete total h p' hp
  unfold finishDownload
  refine Does.get ?_
  dsimp only
  split
  next =>
    refine Does.bind (hkeeps hp) fun r h p hp ↦ Does.get (Does.pure_bind ?_)
    cases r with
    | none => exact Does.pure_bind (hfinish _ _ h p hp)
    | some response => exact Does.bind (hkeeps hp) fun received h p hp ↦ hfinish _ _ h p hp
  next =>
    refine Does.pure_bind ?_
    exact Does.bind (hkeeps hp) fun received h p hp ↦ hfinish _ _ h p hp

end Stores

end Fhd.DownloadEngine
