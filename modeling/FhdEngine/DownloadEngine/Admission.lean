import FhdEngine.DownloadEngine.ManagerRuns
import FhdEngine.DownloadEngine.QueueCodec

/-!
# What is admitted under a key

`admission_hashes` of `crates/download-engine/src/manager.rs`: a request with a key is remembered by the hash of
its key and the hash of its payload, the options in a frozen layout and the priority.

The layout can be read back: sentinels stand for what the validator refuses, and every text carries its
length. So a payload says everything about the request, and no payload continues another.
-/

namespace Fhd.DownloadEngine

open Fallible
open Reading (Reader Reads)

section Admission

variable {Url UrlOrigin PathBuf : Type} (U : UrlLibrary Url UrlOrigin) (P : Paths PathBuf)
  (sha256 : Bytes → Digest)

/-- The options in their frozen layout, and the priority. -/
def encodeRequest (options : Options PathBuf) (priority : Priority) : Except ManagerError Bytes :=
  (· ++ [priority.code]) <$> encodeOptionsV2 P options

/-- A key of printable characters. -/
def validKey (key : String) : Bool :=
  !(key = "" ∨ key.utf8ByteSize > 128 ∨ !(utf8 key).all fun byte ↦ 0x21 ≤ byte && byte ≤ 0x7e)

/-- The URL as it is parsed and the path without what the platform ignores in it. -/
def canonical (options : Options PathBuf) : Except ManagerError (Options PathBuf) :=
  match parseUrl U options.url options.allowHttp with
  | .error _ => .error .invalidOptions
  | .ok url => .ok { options with url := U.asStr url, jobDir := P.normalize options.jobDir }

def admissionHashes (key : String) (options : Options PathBuf) (priority : Priority) :
    Except ManagerError AdmissionHashes := do
  if !validKey key then throw .invalidIdempotencyKey
  validateOptions U P options
  if !P.isAbsolute options.jobDir ∨ P.hasDots options.jobDir then throw .invalidPath
  let canonical ← canonical U P options
  let request ← encodeRequest P canonical priority
  return ⟨sha256 (utf8 "FHD.admission.key.v1" ++ [0] ++ putLen key.utf8ByteSize ++ utf8 key),
    sha256 (utf8 "FHD.admission.payload.v1" ++ [0] ++ request)⟩

/-! ### Reading a payload -/

/-- A credential; none is written as the empty text. -/
def secret : Reader UInt8 ManagerError (Option String) :=
  (fun text ↦ if text ≠ "" then some text else none) <$> Reader.string (2 ^ 64)

/-- What a payload says. -/
def request : Reader UInt8 ManagerError (Options PathBuf × Priority) := do
  let url ← Reader.string (2 ^ 64)
  let jobDir ← Reader.string (2 ^ 64)
  let outputName ← Reader.string (2 ^ 64)
  let expectedSha256 ← Reader.hash
  let allowHttp ← Reader.boolean
  let checkpointBytes ← Reader.n
  let maxDownloadBytes ← Reader.n
  let bytesPerSecond ← Reader.option
  let parallelConnections ← Reader.byte
  let authorization ← secret
  let cookie ← secret
  let count ← Reader.bounded 8
  let redirectOrigins ← Reading.times (Reader.string (2 ^ 64)) count
  let refreshFrom ← Reader.hash
  let priority ← Reader.priority
  return (⟨url, P.ofStr jobDir, outputName, expectedSha256, allowHttp, checkpointBytes, maxDownloadBytes,
    bytesPerSecond, parallelConnections, ⟨authorization, cookie, redirectOrigins⟩, refreshFrom⟩, priority)

variable {U P}

theorem reads_text {text : String} (h : text.utf8ByteSize < 2 ^ 64) :
    Reads (Reader.string (2 ^ 64)) (putString text) (.ok text) :=
  (reads_string h).congr (recheckText_eq_ok.2 ⟨h.le, rfl⟩)

theorem isSecret_bounds {value : String} (h : isSecret value = true) :
    value ≠ "" ∧ value.utf8ByteSize ≤ 8192 := by
  unfold isSecret at h
  rw [Bool.not_eq_true', decide_eq_false_iff_not, not_or, not_or, not_lt] at h
  exact ⟨h.1, h.2.1⟩

theorem reads_secret {value : Option String} (h : value.all isSecret = true) :
    Reads secret (putString (value.getD "")) (.ok value) := by
  cases value with
  | none => exact (reads_text (by decide +kernel)).map
  | some text =>
    obtain ⟨hne, hlong⟩ := isSecret_bounds h
    refine (reads_text ?_).map.congr ?_
    · show text.utf8ByteSize < 2 ^ 64
      omega
    · show Except.ok (if text ≠ "" then some text else none) = _
      rw [if_pos hne]

/-- A policy that was validated. -/
theorem RequestPolicy.bounds {policy : RequestPolicy} (h : policy.validate U = .ok ()) :
    policy.authorization.all isSecret = true ∧ policy.cookie.all isSecret = true ∧
      policy.redirectOrigins.length ≤ 8 ∧ ∀ origin ∈ policy.redirectOrigins, origin.utf8ByteSize ≤ maxUrl := by
  unfold RequestPolicy.validate at h
  obtain ⟨hsecrets, h⟩ := throwIf_eq_ok.1 h
  obtain ⟨hcount, h⟩ := throwIf_eq_ok.1 h
  obtain ⟨hauthorization, hcookie⟩ := not_not.1 hsecrets
  refine ⟨hauthorization, hcookie, Nat.le_of_not_gt hcount, fun origin horigin ↦ ?_⟩
  obtain ⟨url, hurl, -⟩ := bind_eq_ok.1 (forM_eq_ok.1 h origin horigin)
  unfold parseUrl at hurl
  split at hurl
  next => cases hurl
  next hlong => exact Nat.le_of_not_gt (not_or.1 hlong).1

/-- Options that were validated. -/
structure Bounds (P : Paths PathBuf) (options : Options PathBuf) : Prop where
  url : options.url.utf8ByteSize ≤ 16384
  outputName : options.outputName.utf8ByteSize ≤ 255
  jobDir : P.len options.jobDir ≤ 32768
  bytesPerSecond : options.bytesPerSecond ≠ some 0
  authorization : options.requestPolicy.authorization.all isSecret = true
  cookie : options.requestPolicy.cookie.all isSecret = true
  count : options.requestPolicy.redirectOrigins.length ≤ 8
  origins : ∀ origin ∈ options.requestPolicy.redirectOrigins, origin.utf8ByteSize ≤ maxUrl

theorem bounds_of_validateOptions {options : Options PathBuf} (h : validateOptions U P options = .ok ()) :
    Bounds P options := by
  unfold validateOptions at h
  split at h
  next => cases h
  next hpolicy =>
    obtain ⟨hauthorization, hcookie, hcount, horigins⟩ := RequestPolicy.bounds hpolicy
    split at h
    next => cases h
    next =>
      split at h
      next => cases h
      next hok =>
        simp only [not_or, not_lt, Bool.not_eq_true', Bool.not_eq_false] at hok
        obtain ⟨hurl, -, hname, hdir, -, -, -, -, -, hrate, -⟩ := hok
        exact ⟨hurl, hname, hdir, ne_zero_of_validLimit hrate, hauthorization, hcookie, hcount, horigins⟩

/-- **A payload can be read back.** -/
theorem reads_request {options : Options PathBuf} {priority : Priority} {bytes : Bytes} (hbounds : Bounds P options)
    (hdir : ∀ text, P.toStr options.jobDir = some text → text.utf8ByteSize ≤ P.len options.jobDir)
    (h : encodeRequest P options priority = .ok bytes) : Reads (request P) bytes (.ok (options, priority)) := by
  obtain ⟨encoded, hencoded, rfl⟩ := map_eq_ok.1 h
  unfold encodeOptionsV2 at hencoded
  cases htext : P.toStr options.jobDir with
  | none =>
    rw [htext] at hencoded
    cases hencoded
  | some jobDir =>
    rw [htext] at hencoded
    cases hencoded
    have hjobDir := (hdir jobDir htext).trans hbounds.jobDir
    have hurl := hbounds.url
    have hname := hbounds.outputName
    have hcount := hbounds.count
    have horigins : (options.requestPolicy.redirectOrigins.mapM fun origin ↦ (.ok origin : Except ManagerError String)) =
        .ok options.requestPolicy.redirectOrigins :=
      (List.mapM_pure (f := id)).trans (by rw [List.map_id]; rfl)
    simp only [putPolicy, List.append_assoc]
    refine (reads_text (by omega)).ok_bind <| (reads_text (by omega)).ok_bind <| (reads_text (by omega)).ok_bind <|
      (reads_hash _).ok_bind <| (reads_boolean _).ok_bind <| (reads_n _).ok_bind <| (reads_n _).ok_bind <|
      (reads_option hbounds.bytesPerSecond).ok_bind <| (reads_byte _).ok_bind <|
      (reads_secret hbounds.authorization).ok_bind <| (reads_secret hbounds.cookie).ok_bind <|
      ((reads_bounded (by omega)).congr (recheckCount_eq_ok.2 ⟨hcount, rfl⟩)).ok_bind <|
      ((Reads.times fun origin horigin ↦ reads_text ?_).congr horigins).ok_bind <|
      (reads_hash _).ok_bind <| (reads_priority _).ok_last ?_
    · have := hbounds.origins origin horigin
      rw [maxUrl] at this
      omega
    · rw [P.ofStr_toStr _ _ htext]
      exact .pure _

variable (U P)

/-- **A payload says everything about its request**: the options and the priority are the ones it was made of,
and no payload goes on where another one ends. -/
theorem encodeRequest_injective
    -- the length of a path is that of its text
    (hdir : ∀ path text, P.toStr path = some text → text.utf8ByteSize ≤ P.len path)
    (options options' : Options PathBuf) (priority priority' : Priority) (bytes bytes' : Bytes)
    (hvalid : validateOptions U P options = .ok ()) (hvalid' : validateOptions U P options' = .ok ())
    (h : encodeRequest P options priority = .ok bytes) (h' : encodeRequest P options' priority' = .ok bytes') :
    (bytes = bytes' → options = options' ∧ priority = priority') ∧ (bytes <+: bytes' → bytes = bytes') := by
  have hreads := reads_request (bounds_of_validateOptions hvalid) (hdir _) h
  have hreads' := reads_request (bounds_of_validateOptions hvalid') (hdir _) h'
  constructor
  · rintro rfl
    obtain ⟨hsame, -⟩ := hreads.cancel hreads' (rfl : bytes ++ [] = bytes ++ [])
    exact Prod.mk.inj hsame
  · rintro ⟨rest, hrest⟩
    have hcut : bytes ++ rest = bytes' ++ [] := by rw [hrest, List.append_nil]
    obtain ⟨-, rfl⟩ := hreads.cancel hreads' hcut
    rwa [List.append_nil] at hrest

end Admission

/-- The payload of the download into a folder. -/
def Sample.payload (jobDir : String) (priority : Priority) : Bytes :=
  (encodeRequest Sample.paths (Sample.options jobDir) priority).toOption.getD []

/-- Two priorities of one download. -/
theorem encodeRequest_injective_priorities :
    (Sample.payload "/d" .normal = Sample.payload "/d" .high →
      Sample.options "/d" = Sample.options "/d" ∧ Priority.normal = .high) ∧
    (Sample.payload "/d" .normal <+: Sample.payload "/d" .high →
      Sample.payload "/d" .normal = Sample.payload "/d" .high) :=
  encodeRequest_injective Sample.library Sample.paths (fun _ _ h ↦ by cases h; exact le_rfl) (Sample.options "/d")
    (Sample.options "/d") .normal .high _ _ (by decide) (by decide) rfl rfl

end Fhd.DownloadEngine
