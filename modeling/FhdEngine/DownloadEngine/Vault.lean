import FhdEngine.DownloadEngine.Download
import FhdEngine.DownloadEngine.ParallelRuns

/-!
# What a download works on

A **vault** is what a store is for a download: bytes that only grow, a number of them that no crash takes, and a status
that says whether they are all. It says nothing of files, names and rows. A blocking job on it succeeds, or it fails and
may have had its effect all the same (`vaults`). Only a vault whose creation was never told can be lost in a crash
(`Place.Crashes`). `FhdEngine.DownloadEngine.Keeping` shows that the folder of a sequential store is such a vault.

A server is **honest** if each of its responses is one of a representation it serves, as far as HTTP says so: a whole
response is the representation from its beginning, a partial one is the range it names, and a strong entity tag names one
representation only (`StrongTags`). Nothing is assumed of a response that breaks off or is not framed.
-/

namespace Fhd.DownloadEngine

open Process (Environment Returns)
open ResumePolicy (ContentRange)
open TransferStore (Identity Status StoreError)

/-! ### Servers -/

/-- The representations that are served at a URL, by its fingerprint, under a strong entity tag or without one. -/
abbrev Serving := Digest → Option Bytes → Bytes → Prop

/-- A strong entity tag names one representation. -/
def StrongTags (serving : Serving) : Prop :=
  ∀ final tag r r', serving final (some tag) r → serving final (some tag) r' → r = r'

/-- The strong entity tag of a response. -/
def entityTag (headers : HeaderMap) : Option Bytes :=
  match field headers .etag with
  | .single value => (ResumePolicy.parseEtag value).toOption
  | _ => none

/-- The strong entity tag of a store. -/
def identityTag (identity : Identity) : Option Bytes :=
  identity.strongEtag.bind fun etag ↦ (ResumePolicy.parseEtag (utf8 etag)).toOption

section Serving

variable {Url : Type}

/-- **What a response is of a representation.** -/
structure Delivered (representation : Bytes) (answered : Answered Url) : Prop where
  whole : answered.response.status = 200 → answered.body.bytes.take representation.length <+: representation
  declared : answered.response.status = 200 →
    ∀ n, contentLength answered.response.headers = .ok n → n = representation.length
  /-- Where the framing tells the end of a body from an interruption, the end is the end of the representation. -/
  framed : answered.response.status = 200 → validateFraming answered = .ok () →
    answered.body.bytes <+: representation ∧ (answered.body.Whole → answered.body.bytes = representation)
  ranged : answered.response.status = 206 → ∀ value start stop total,
    (responseHeaders answered.response.headers).contentRange.required = .ok value →
      ContentRange.parse value = .ok (.satisfied start stop (some total)) →
        total = representation.length ∧ answered.body.bytes.take (stop - start) <+: representation.drop start

variable (asStr : Url → String) (sha256 : Bytes → Digest) (serving : Serving)

def Honest (answered : Answered Url) : Prop :=
  ∃ representation, serving (finalFingerprint asStr sha256 answered.response.url) (entityTag answered.response.headers)
    representation ∧ Delivered representation answered

/-- The network, for a task that fetches a range. -/
def fetching : Environment Unit NetPort (NetAnswer Url) := fun _ op answer _ ↦
  match op, answer with
  | .request _ _ _, .ok (response, body) => ∃ version, Honest asStr sha256 serving ⟨response, version, body⟩
  | _, _ => True

/-- What a task for this range may end with, over an honest network. -/
def Fetch.Fetched (f : Fetch) (range : ℕ × ℕ) (r : Except Error (Option Bytes)) : Prop :=
  Returns (fetching asStr sha256 serving) () ((f.range asStr sha256 range.1 range.2).run.run ()) (r, ()) ()

end Serving

/-! ### Vaults -/

/-- **A vault.** -/
structure Vault (sha256 : Bytes → Digest) where
  identity : Identity
  output : String
  content : Bytes
  /-- How much of the content no crash takes. -/
  committed : ℕ
  status : Status
  unknownLength : Bool
  /-- Whether its URLs were bound anew. -/
  refreshed : Bool
  /-- Whether its creation succeeded, as far as it was told. -/
  founded : Bool
  committed_le : committed ≤ content.length
  complete : status ≠ .downloading → committed = content.length ∧ content.length = identity.total ∧ unknownLength = false
  matched : status = .published → ∀ digest ∈ identity.expectedSha256, digest = sha256 content

namespace Vault

variable {sha256 : Bytes → Digest}

/-- A new vault. -/
def new (sha256 : Bytes → Digest) (identity : Identity) (output : String) (unknown founded : Bool) : Vault sha256 where
  identity := identity
  output := output
  content := []
  committed := 0
  status := .downloading
  unknownLength := unknown
  refreshed := false
  founded := founded
  committed_le := Nat.le_refl 0
  complete h := absurd rfl h
  matched h := Status.noConfusion h

variable (v : Vault sha256)

/-- What opening finds. -/
def opened : Opened := ⟨v.identity, v.output, v.status, v.unknownLength, v.committed⟩

theorem take_committed (h : v.status ≠ .downloading) : v.content.take v.committed = v.content := by
  rw [(v.complete h).1, List.take_length]

/-- Only what is committed is there after it was opened. -/
def reopened : Vault sha256 :=
  { v with
    content := v.content.take v.committed
    committed_le := (List.length_take_of_le v.committed_le).ge
    complete := fun h ↦ (v.take_committed h).symm ▸ v.complete h
    matched := fun h ↦ (v.take_committed (h ▸ Status.noConfusion)).symm ▸ v.matched h }

/-- **What stays**, apart from the bytes, what is committed and the status. -/
structure Same (v v' : Vault sha256) : Prop where
  identity : v'.identity = v.identity
  output : v'.output = v.output
  unknownLength : v'.unknownLength = v.unknownLength
  refreshed : v'.refreshed = v.refreshed
  founded : v'.founded = v.founded

/-- More bytes. -/
structure Grows (bytes : Bytes) (v v' : Vault sha256) : Prop extends Same v v' where
  downloading : v.status = .downloading
  status : v'.status = v.status
  content : v'.content = v.content ++ bytes

/-- **The bytes stay**, more of them are committed, and the status goes on. -/
structure Advances (v v' : Vault sha256) : Prop extends Same v v' where
  content : v'.content = v.content
  committed : v.committed ≤ v'.committed
  status : v.status ≠ .downloading → v'.status ≠ .downloading
  published : v.status = .published → v'.status = .published

/-- The URLs are bound anew. -/
structure Rebound (original final : Digest) (v v' : Vault sha256) : Prop where
  downloading : v.status = .downloading
  content : v'.content = v.content
  output : v'.output = v.output
  status : v'.status = v.status
  unknownLength : v'.unknownLength = v.unknownLength
  refreshed : v'.refreshed = true
  founded : v'.founded = v.founded
  identity : v'.identity = { v.identity with originalUrlFingerprint := original, finalUrlFingerprint := final }

/-- The length is learned. -/
structure Learns (v v' : Vault sha256) : Prop where
  unknown : v.unknownLength = true
  content : v'.content = v.content
  output : v'.output = v.output
  refreshed : v'.refreshed = v.refreshed
  founded : v'.founded = v.founded
  identity : v'.identity = { v.identity with total := v.content.length }
  unknownLength : v'.unknownLength = false
  status : v'.status ≠ .downloading

end Vault

/-- The directory of a job. -/
inductive Place (sha256 : Bytes → Digest)
  | vacant
  /-- It was made, and no store came of it. -/
  | broken
  | kept (v : Vault sha256)

/-- A blocking job that did not succeed. -/
def Failed {α : Type} (done : Option (Except StoreError α)) : Prop := ∀ a, done ≠ some (.ok a)

section Vaults

variable {sha256 : Bytes → Digest}

namespace Place

/-- An operation on the open store: it leads to one of these vaults, and to one of those if it succeeds. -/
def Operates {α : Type} (next : Vault sha256 → Vault sha256 → Prop) (success : Vault sha256 → Vault sha256 → Prop)
    (p : Place sha256) (done : Option (Except StoreError α)) (p' : Place sha256) : Prop :=
  match p with
  | .kept v => ∃ v', p' = .kept v' ∧ (v' = v ∧ Failed done ∨ next v v' ∧ (Failed done ∨ success v v'))
  | _ => p' = p ∧ Failed done

def Opens (p : Place sha256) (done : Option (Except StoreError Opened)) (p' : Place sha256) : Prop :=
  p' = p ∧ Failed done ∨ ∃ v, p = .kept v ∧ done = some (.ok v.opened) ∧ p' = .kept v.reopened

/-- A directory that is there is not made again. A creation that fails may have made the vault. -/
def Creates (identity : Identity) (output : String) (unknown : Bool) (p : Place sha256)
    (done : Option (Except StoreError Unit)) (p' : Place sha256) : Prop :=
  p' = p ∧ Failed done ∨ p = .vacant ∧ (p' = .broken ∧ Failed done ∨
    ∃ founded, p' = .kept (.new sha256 identity output unknown founded) ∧ (founded = true ∨ Failed done))

/-- **A crash** leaves a vault, unless nothing was ever told of it. -/
def Crashes (p p' : Place sha256) : Prop :=
  p' = p ∨ p' = .broken ∧ ∃ v, p = .kept v ∧ v.founded = false ∧ v.status ≠ .published

end Place

variable {Url PathBuf : Type} (asStr : Url → String) (serving : Serving)

/-- The world of a transfer on a vault. -/
def stores (p : Place sha256) : (port : TransferPort) → TransferAnswer port → Place sha256 → Prop
  | .isCancelled, _, p' | .limits, _, p' | .pace _, _, p' | .report _, _, p' | .spawn _ _, _, p' => p' = p
  | .range f range, answer, p' => p' = p ∧ f.Fetched asStr sha256 serving range answer
  | .join f _, ended, p' => p' = p ∧ ∀ r ∈ ended.2, f.Fetched asStr sha256 serving ended.1.1.1 r
  | .append bytes, done, p' => p.Operates (Vault.Grows bytes) (fun _ _ ↦ True) done p'
  | .checkpoint, done, p' =>
    p.Operates (fun v v' ↦ v.Advances v' ∧ v'.status = v.status) (fun _ v' ↦ v'.committed = v'.content.length) done p'
  | .complete, done, p' => p.Operates Vault.Advances (fun _ v' ↦ v'.status = .published) done p'

/-- **The world of a download.** -/
def vaults (p : Place sha256) :
    (port : DownloadPort Url PathBuf) → DownloadAnswer Url PathBuf port → Place sha256 → Prop
  | .buildClient, _, p' | .isCancelled, _, p' | .beforeTransfer _ _, _, p' => p' = p
  | .tryExists, answer, p' => p' = p ∧ ∀ there, answer = .ok there → (there = true ↔ p ≠ .vacant)
  | .openStore, done, p' => p.Opens done p'
  | .send request, exchange, p' => p' = p ∧ ∀ answered, exchange = .answered answered →
    answered.response.url = request.url ∧ Honest asStr sha256 serving answered
  | .create identity output unknown, done, p' => p.Creates identity output unknown done p'
  | .rebindUrls original final, done, p' => p.Operates (Vault.Rebound original final) (fun _ _ ↦ True) done p'
  | .finalize, done, p' =>
    p.Operates (fun v v' ↦ v.status ≠ .downloading ∧ v.Advances v') (fun _ v' ↦ v'.status = .published) done p'
  | .completeUnknown, done, p' =>
    p.Operates (fun v v' ↦ v.Advances v' ∧ v'.status = .downloading ∨ v.Learns v')
      (fun _ v' ↦ v'.status = .published) done p'
  | .transfer port, answer, p' => stores asStr serving p port answer p'

/-- The download in its world. -/
def onVault : Environment (Place sha256) (DownloadPort Url PathBuf) (DownloadAnswer Url PathBuf) :=
  fun p port answer p' ↦ vaults asStr serving p port answer p'

end Vaults

end Fhd.DownloadEngine
