import FhdEngine.DownloadEngine.Vault
import FhdEngine.ResumePolicy.Decisions

/-!
# The ranges a transfer fetches

A transfer fetches ranges of one representation only, the one its store has the identity of (`finishDownload_own`). So a
response that passed the checks of a range is one of that representation, if servers are honest: the tag of the store
names it, and the checks of the resume policy leave only the range that was asked for (`Fetch.Fetched.ends`).
-/

namespace Fhd.DownloadEngine

open Fallible
open Process (Does Environment Prog Returns Routine noting)
open ResumePolicy (ContentRange)
open TransferStore (Identity StoreError)

/-! ### One range, over an honest network -/

section Range

variable {Url : Type} {asStr : Url → String} {sha256 : Bytes → Digest} {serving : Serving} {f : Fetch}

theorem entityTag_of_single {headers : HeaderMap} {value tag : Bytes} (hfield : field headers .etag = .single value)
    (htag : ResumePolicy.parseEtag value = .ok tag) : entityTag headers = some tag := by
  rw [entityTag, hfield]
  show (ResumePolicy.parseEtag value).toOption = some tag
  rw [htag]
  rfl

/-- What the resume policy let through names the range, and the tag. -/
theorem ranged_of_evaluate {request : ResumePolicy.ResumeRequest} {status : ℕ} {headers : HeaderMap}
    {permit : ResumePolicy.BodyPermit} (h : ResumePolicy.evaluate request status (responseHeaders headers) =
      .readRange permit) : status = 206 ∧ entityTag headers = some request.etag ∧
        ∃ value, (responseHeaders headers).contentRange.required = .ok value ∧
          ContentRange.parse value = .ok (.satisfied request.start request.stop (some request.total)) := by
  unfold ResumePolicy.evaluate at h
  split at h
  next => cases h
  next =>
    split at h
    next => cases h
    next =>
      split at h
      next hstatus =>
        refine ⟨hstatus, ?_⟩
        split at h
        next granted hgranted =>
          obtain ⟨hagrees, -⟩ := ResumePolicy.checkPartial_eq_ok.1 hgranted
          refine ⟨?_, ResumePolicy.range_eq_ok.2 hagrees.range⟩
          obtain ⟨value, hvalue, htag⟩ := ResumePolicy.etag_eq_ok.2 hagrees.etag
          obtain ⟨text, hfield, -, rfl⟩ := ResumePolicy.required_eq_ok.1 hvalue
          obtain ⟨⟨field', hsingle, hlong, hpads⟩, hstrong⟩ := hagrees.etag
          exact entityTag_of_single hsingle (ResumePolicy.parseEtag_eq_ok.2 ⟨hlong, hpads, hstrong⟩)
        next => cases h
      next => cases h

/-- What the checks of a range leave. -/
theorem Fetch.check_eq_true {start stop : ℕ} {response : Response Url}
    (h : f.check asStr sha256 start stop response = .ok true) :
    finalFingerprint asStr sha256 response.url = f.fingerprint ∧ field response.headers .etag = .single (utf8 f.etag) ∧
      ∃ tag request permit, ResumePolicy.parseEtag (utf8 f.etag) = .ok tag ∧
        ResumePolicy.ResumeRequest.new start stop f.total tag = .ok request ∧
          ResumePolicy.evaluate request response.status (responseHeaders response.headers) = .readRange permit := by
  unfold Fetch.check at h
  obtain ⟨-, h⟩ := throwIf_eq_ok.1 h
  obtain ⟨⟨⟩, -, h⟩ := bind_eq_ok.1 h
  obtain ⟨hfinal, h⟩ := throwIf_eq_ok.1 h
  obtain ⟨hetag, h⟩ := throwIf_eq_ok.1 h
  refine ⟨not_not.1 hfinal, not_not.1 hetag, ?_⟩
  split at h
  next =>
    obtain ⟨total, -, h⟩ := bind_eq_ok.1 h
    obtain ⟨-, h⟩ := throwIf_eq_ok.1 h
    cases h
  next =>
    split at h
    next => cases h
    next tag htag =>
      split at h
      next => cases h
      next request hrequest =>
        split at h
        next permit hpermit => exact ⟨tag, request, permit, htag, hrequest, hpermit⟩
        next => cases h

/-- A request of a range is for that range. -/
theorem resumeRequest_eq_ok {start stop total : ℕ} {tag : Bytes} {request : ResumePolicy.ResumeRequest}
    (h : ResumePolicy.ResumeRequest.new start stop total tag = .ok request) :
    request.start = start ∧ request.stop = stop ∧ request.total = total ∧ request.etag = tag := by
  unfold ResumePolicy.ResumeRequest.new at h
  split at h
  next => cases h
  next =>
    cases h
    exact ⟨rfl, rfl, rfl, rfl⟩

/-- **A task over an honest network** brings a range of the representation its tag names. -/
theorem Fetch.Fetched.ends {representation : Bytes} {range : ℕ × ℕ} {r : Except Error (Option Bytes)}
    (htags : StrongTags serving) (hserving : ∀ tag, ResumePolicy.parseEtag (utf8 f.etag) = .ok tag →
      serving f.fingerprint (some tag) representation) (h : f.Fetched asStr sha256 serving range r) :
    f.Ends asStr sha256 representation range r := by
  refine h.mono fun _ op answer _ hcall ↦ ?_
  cases op with
  | cancelled => exact .cancelled _
  | limits => exact .limits _
  | pace bytes => exact .pace _
  | request start stop etag =>
    refine .request _ fun response body hanswer hcheck ↦ ?_
    subst hanswer
    obtain ⟨version, served, hserved, hdelivered⟩ := hcall
    obtain ⟨hfinal, hfield, tag, request, permit, htag, hrequest, hpermit⟩ := Fetch.check_eq_true hcheck
    obtain ⟨hstart, hstop, -, -⟩ := resumeRequest_eq_ok hrequest
    obtain ⟨hstatus, -, value, hvalue, hparse⟩ := ranged_of_evaluate hpermit
    have hsame : served = representation := by
      refine htags _ _ _ _ ?_ (hserving tag htag)
      rw [← hfinal, ← entityTag_of_single hfield htag]
      exact hserved
    have hranged := (hdelivered.ranged hstatus value _ _ _ hvalue hparse).2
    rw [hstart, hstop, hsame] at hranged
    exact hranged

end Range

/-! ### What is asked for -/

/-- A range is only fetched of this identity. -/
def TransferPort.Own (identity : Identity) : TransferPort → Prop
  | .range f _ | .spawn f _ | .join f _ => f.fingerprint = identity.finalUrlFingerprint ∧ identity.strongEtag = some f.etag
  | _ => True

section Own

variable {identity : Identity} {h : Handle} {P : Prop} {plan : Plan}

/-- The transfer asks for nothing of another identity, and its handle keeps it. -/
abbrev Minds {α : Type} (identity : Identity) (h : Handle) (P : Prop) (x : TransferM α) : Prop :=
  Does (noting (TransferPort.Own identity)) id h P x (fun _ h' _ ↦ h'.identity = identity) fun _ _ _ ↦ True

theorem ask_minds {α : Type} {port : TransferPort} {k : TransferAnswer port → TransferM α} (hown : port.Own identity)
    (hk : ∀ answer P, Minds identity h P (k answer)) : Minds identity h P (Routine.ask port >>= k) := by
  refine Does.ask fun answer P' hP' ↦ ?_
  obtain rfl : P' = port.Own identity := hP'
  exact ⟨hown, hk answer _⟩

variable (hidentity : h.identity = identity)

include hidentity

theorem store_minds (bytes : Bytes) : Minds identity h P (TransferM.store bytes) :=
  Does.get (Does.failIf (fun _ ↦ trivial) fun _ ↦ ask_minds trivial fun _ _ ↦
    Does.ofExcept (fun _ _ ↦ trivial) fun _ _ ↦ hidentity)

theorem checkpoint_minds : Minds identity h P TransferM.checkpoint :=
  ask_minds trivial fun _ _ ↦ Does.ofExcept (fun _ _ ↦ trivial) fun _ _ ↦ hidentity

theorem report_minds : Minds identity h P TransferM.report :=
  Does.get (ask_minds (k := fun _ ↦ pure ()) trivial fun _ _ ↦ hidentity)

/-- What gives up fails. -/
theorem giveUp_minds {error : Error} {Q : Unit → Handle → Prop → Prop} :
    Does (noting (TransferPort.Own identity)) id h P (TransferM.giveUp error) Q fun _ _ _ ↦ True :=
  Does.bind (checkpoint_minds hidentity) fun _ _ _ h' ↦ Does.bind (report_minds h') fun _ _ _ _ ↦ Does.throw trivial

theorem storeAndReport_minds (threshold : ℕ) (bytes : Bytes) :
    Minds identity h P (TransferM.storeAndReport threshold bytes) := by
  have hreport : ∀ h : Handle, h.identity = identity → ∀ P,
      Minds identity h P (do let h ← get; if h.len = h.committed then TransferM.report) := by
    intro h hidentity P
    exact Does.get (Does.ite (fun _ ↦ report_minds hidentity) fun _ ↦ Does.pure hidentity)
  refine Does.bind (store_minds hidentity bytes) fun _ h _ hidentity ↦ Does.get ?_
  split
  next => exact Does.bind (checkpoint_minds hidentity) fun _ h _ hidentity ↦ hreport h hidentity _
  next => exact hreport h hidentity _

theorem unlessCancelled_minds {α : Type} {error : Error} {next : Unit → TransferM α}
    (hnext : ∀ P, Minds identity h P (next ())) : Minds identity h P
      (TransferM.isCancelled >>= fun cancelled ↦
        if cancelled = true then TransferM.giveUp error >>= next else next ()) := by
  refine ask_minds trivial fun cancelled P ↦ ?_
  split
  next => exact Does.bind (giveUp_minds hidentity (Q := fun _ _ _ ↦ False)) fun _ _ _ h ↦ h.elim
  next => exact hnext P

theorem append_minds (threshold : ℕ) (bytes : Bytes) : Minds identity h P (TransferM.append threshold bytes) :=
  unlessCancelled_minds hidentity fun _ ↦ storeAndReport_minds hidentity threshold bytes

theorem appendAll_minds (threshold : ℕ) (results : List (ℕ × Bytes)) :
    Minds identity h P (TransferM.appendAll threshold results) := by
  induction results generalizing h P with
  | nil => exact Does.pure hidentity
  | cons result results ih =>
    exact Does.bind (append_minds hidentity threshold result.2) fun _ _ _ hidentity ↦ ih hidentity

theorem joinAll_minds {f : Fetch} (hf : f.fingerprint = identity.finalUrlFingerprint ∧ identity.strongEtag = some f.etag)
    (running : List ((ℕ × ℕ) × ℕ)) (results : List (ℕ × Bytes)) :
    Minds identity h P (TransferM.joinAll f running results) := by
  induction hlength : running.length using Nat.strong_induction_on generalizing running results P with
  | _ length ih =>
    rw [TransferM.joinAll]
    split
    next => exact Does.pure hidentity
    next =>
      refine ask_minds hf fun ended P ↦ ?_
      split
      next error _ => exact Does.bind (giveUp_minds hidentity (Q := fun _ _ _ ↦ False)) fun _ _ _ h ↦ h.elim
      next bytes _ =>
        have hmem := ended.1.2
        have hless := List.length_erase_of_mem hmem
        have hpositive := List.length_pos_of_mem hmem
        exact ih _ (by omega) _ _ rfl

theorem windowsFrom_minds {f : Fetch} {offset : ℕ}
    (hf : f.fingerprint = identity.finalUrlFingerprint ∧ identity.strongEtag = some f.etag) :
    Minds identity h P (windowsFrom plan f offset) := by
  induction hrest : f.total - offset using Nat.strong_induction_on generalizing offset h P with
  | _ rest ih =>
    rw [windowsFrom]
    split
    next hlt =>
      refine ask_minds hf fun _ P ↦ ?_
      refine Does.bind (joinAll_minds hidentity hf _ _) fun results h P hidentity ↦ ?_
      refine Does.bind (appendAll_minds hidentity _ _) fun _ h P hidentity ↦ ?_
      have hless := lt_windowEnd hlt plan.connections_pos
      exact ih _ (by omega) hidentity rfl
    next => exact Does.pure hidentity

theorem transfer_minds (response : Body) : Minds identity h P (transfer plan response) := by
  unfold transfer
  refine Does.get ?_
  split
  next => exact Does.throw trivial
  next etag hetag =>
    have hf : h.identity.finalUrlFingerprint = identity.finalUrlFingerprint ∧ identity.strongEtag = some etag := by
      rw [← hidentity]
      exact ⟨rfl, hetag⟩
    refine ask_minds hf fun first P ↦ Does.ofExcept (fun _ _ ↦ trivial) fun brought _ ↦ ?_
    cases brought with
    | none => exact Does.pure hidentity
    | some bytes =>
      refine Does.bind (append_minds hidentity _ bytes) fun _ h P hidentity ↦ ?_
      exact Does.bind (windowsFrom_minds hidentity hf) fun _ h P hidentity ↦ Does.pure hidentity

theorem consume_minds (bytes : ℕ) : Minds identity h P (TransferM.consume bytes) :=
  Does.ite (fun _ ↦ Does.pure hidentity) fun _ ↦ Does.ite (fun _ ↦ Does.pure hidentity) fun _ ↦
    ask_minds (k := pure) trivial fun _ _ ↦ hidentity

theorem storeSlices_minds (slices : List Bytes) : Minds identity h P (storeSlices plan slices) := by
  induction slices generalizing h P with
  | nil => exact Does.pure hidentity
  | cons slice slices ih =>
    refine Does.bind (consume_minds hidentity _) fun paid h P hidentity ↦ ?_
    cases paid with
    | error error => exact giveUp_minds hidentity
    | ok _ =>
      exact unlessCancelled_minds hidentity fun _ ↦
        Does.bind (storeAndReport_minds hidentity _ _) fun _ _ _ hidentity ↦ ih hidentity

theorem drain_minds (total received : ℕ) (body : Body) : Minds identity h P (drain plan total received body) := by
  induction body generalizing h P received with
  | ended =>
    rw [drain]
    exact unlessCancelled_minds hidentity fun _ ↦ Does.pure hidentity
  | late =>
    rw [drain]
    exact unlessCancelled_minds hidentity fun _ ↦
      Does.bind (giveUp_minds hidentity (Q := fun _ _ _ ↦ False)) fun _ _ _ h ↦ h.elim
  | broken error =>
    rw [drain]
    exact unlessCancelled_minds hidentity fun _ ↦
      Does.bind (giveUp_minds hidentity (Q := fun _ _ _ ↦ False)) fun _ _ _ h ↦ h.elim
  | chunk chunk rest ih =>
    rw [drain]
    refine unlessCancelled_minds hidentity fun _ ↦ ?_
    split
    next => exact Does.throw trivial
    next received hreceived =>
      refine Does.when (fun _ ↦ trivial) fun _ ↦ ask_minds trivial fun limits P ↦ ?_
      exact Does.bind (storeSlices_minds hidentity _) fun _ _ _ hidentity ↦ ih hidentity _

/-- **A download fetches its own ranges** only. -/
theorem finishDownload_own (start : ℕ) (response : Body) : Minds identity h P (finishDownload plan start response) := by
  unfold finishDownload
  refine Does.get ?_
  have hfinish : ∀ (received : ℕ) (h : Handle), h.identity = identity → ∀ P total,
      Minds identity h P (do
        if received ≠ total then throw .bodyLength
        if ← TransferM.isCancelled then TransferM.giveUp .cancelled
        let done : Option (Except StoreError Path) ← Routine.ask TransferPort.complete
        let path ← MonadExcept.ofExcept (disk done)
        return (⟨total, start, path⟩ : Outcome)) := by
    intro received h hidentity P total
    refine Does.when (fun _ ↦ trivial) fun _ ↦ unlessCancelled_minds hidentity fun _ ↦ ?_
    exact ask_minds trivial fun _ _ ↦ Does.ofExcept (fun _ _ ↦ trivial) fun _ _ ↦ Does.pure hidentity
  dsimp only
  split
  next =>
    refine Does.bind (transfer_minds hidentity response) fun r h P hidentity ↦ Does.get (Does.pure_bind ?_)
    cases r with
    | none => exact Does.pure_bind (hfinish _ h hidentity _ _)
    | some response =>
      exact Does.bind (drain_minds hidentity _ _ response) fun received h P hidentity ↦ hfinish _ h hidentity _ _
  next =>
    refine Does.pure_bind ?_
    exact Does.bind (drain_minds hidentity _ _ response) fun received h P hidentity ↦ hfinish _ h hidentity _ _

/-- A body of unknown length is fetched by no range at all. -/
theorem drainUnknown_minds (limit : ℕ) (body : Body) : Minds identity h P (drainUnknown plan limit body) := by
  induction body generalizing h P with
  | ended =>
    rw [drainUnknown]
    refine unlessCancelled_minds hidentity fun _ ↦ unlessCancelled_minds hidentity fun _ ↦ ?_
    exact Does.get (Does.pure hidentity)
  | late =>
    rw [drainUnknown]
    exact unlessCancelled_minds hidentity fun _ ↦
      Does.bind (giveUp_minds hidentity (Q := fun _ _ _ ↦ False)) fun _ _ _ h ↦ h.elim
  | broken error =>
    rw [drainUnknown]
    exact unlessCancelled_minds hidentity fun _ ↦
      Does.bind (giveUp_minds hidentity (Q := fun _ _ _ ↦ False)) fun _ _ _ h ↦ h.elim
  | chunk chunk rest ih =>
    rw [drainUnknown]
    refine unlessCancelled_minds hidentity fun _ ↦ Does.get ?_
    split
    next => exact Does.bind (giveUp_minds hidentity (Q := fun _ _ _ ↦ False)) fun _ _ _ h ↦ h.elim
    next =>
      refine ask_minds trivial fun limits P ↦ ?_
      exact Does.bind (storeSlices_minds hidentity _) fun _ _ _ hidentity ↦ ih hidentity

end Own

end Fhd.DownloadEngine
