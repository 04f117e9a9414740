import FhdEngine.DownloadEngine.Admission
import FhdEngine.DownloadEngine.Requests

/-!
# The approval boundary

`crates/download-engine/src/intake.rs`: a page proposes URLs, and only a trusted controller approves one, with a place and
a name of its own choice. What is then asked of the manager carries a key of the request it came from, so that it may be
asked again after a failure.

A course is every call of one inbox, with what the clock read and what the manager answered (`Course`). The log only
grows, and an id is never given out twice; that a proposal is admitted at most once rests on the two
(`intake_confined`).
-/

namespace Fhd.DownloadEngine

structure ProposalId where
  value : ℕ
deriving DecidableEq, Repr

structure Proposal where
  id : ProposalId
  source : String
  url : String
  /-- What the clock read, in nanoseconds. -/
  created : ℕ
deriving DecidableEq, Repr

/-- Owned by the trusted desktop controller, never handed to web content. -/
structure Inbox where
  pending : List Proposal
  sourceNamespace : String
  next : ℕ
deriving DecidableEq, Repr

/-- A proposal is good for fifteen minutes. -/
def proposalLifetime : ℕ := 900 * 10 ^ 9

def maxProposals : ℕ := 64

def Proposal.isFresh (now : ℕ) (p : Proposal) : Bool := now - p.created < proposalLifetime

/-- The proposal somebody asks for by its id. -/
def Proposal.isLive (id : ProposalId) (now : ℕ) (p : Proposal) : Bool := p.id = id && p.isFresh now

/-! ### Keys -/

def isAsciiAlphanumeric (b : UInt8) : Bool := isDigit b || (65 ≤ b && b ≤ 90) || (97 ≤ b && b ≤ 122)

/-- `{byte:02x}`. -/
def hexByte (b : UInt8) : List Char := [Nat.digitChar (b.toNat / 16), Nat.digitChar (b.toNat % 16)]

/-- What the key of a request is the hash of. -/
def receiptText (source requestId : String) : Bytes :=
  utf8 "FHD.intake.admission.v1" ++ [0] ++ putString source ++ putString requestId

def receiptKeyFrom (sha256 : Bytes → Digest) (source requestId : String) : String :=
  "inbox-" ++ String.ofList ((sha256 (receiptText source requestId)).toList.flatMap hexByte)

/-- What is asked of the manager. -/
structure Admission (PathBuf : Type) where
  key : String
  options : Options PathBuf
  priority : Priority
deriving DecidableEq

section Keys

variable {sha256 : Bytes → Digest} {source source' requestId requestId' : String}

theorem utf8_ofList (l : List Char) : utf8 (String.ofList l) = l.flatMap String.utf8EncodeChar := by
  simp [utf8, String.ofList, List.utf8Encode, String.toUTF8]

theorem utf8_append (s s' : String) : utf8 (s ++ s') = utf8 s ++ utf8 s' := by
  simp [utf8, String.toUTF8]

theorem printable_digit : ∀ n < 16, ∀ byte ∈ String.utf8EncodeChar (Nat.digitChar n), 0x21 ≤ byte ∧ byte ≤ 0x7e := by
  decide +kernel

theorem length_digit : ∀ n < 16, (String.utf8EncodeChar (Nat.digitChar n)).length = 1 := by decide +kernel

/-- The manager takes every key. -/
theorem validKey_receiptKeyFrom (source requestId : String) :
    validKey (receiptKeyFrom sha256 source requestId) := by
  have hkey : utf8 (receiptKeyFrom sha256 source requestId) = utf8 "inbox-" ++
      (sha256 (receiptText source requestId)).toList.flatMap fun b ↦ (hexByte b).flatMap String.utf8EncodeChar := by
    rw [receiptKeyFrom, utf8_append, utf8_ofList (List.flatMap _ _), List.flatMap_assoc]
  generalize sha256 (receiptText source requestId) = digest at hkey
  have hlength : ∀ b, ((hexByte b).flatMap String.utf8EncodeChar).length = 2 := by
    intro b
    have := b.toNat_lt
    simp [hexByte, length_digit _ (show b.toNat / 16 < 16 by omega), length_digit _ (show b.toNat % 16 < 16 by omega)]
  have hsize : (receiptKeyFrom sha256 source requestId).utf8ByteSize = 70 := by
    rw [← length_utf8, hkey, List.length_append, List.length_flatMap]
    simp only [hlength, List.map_const', List.sum_replicate, Vector.length_toList]
    rfl
  have hprintable : ∀ byte ∈ utf8 (receiptKeyFrom sha256 source requestId), 0x21 ≤ byte ∧ byte ≤ 0x7e := by
    intro byte hbyte
    rw [hkey, List.mem_append, List.mem_flatMap] at hbyte
    rcases hbyte with hmark | ⟨b, -, hdigit⟩
    · exact (by decide +kernel : ∀ byte ∈ utf8 "inbox-", 0x21 ≤ byte ∧ byte ≤ 0x7e) byte hmark
    · have := b.toNat_lt
      simp only [hexByte, List.flatMap_cons, List.flatMap_nil, List.append_nil, List.mem_append] at hdigit
      rcases hdigit with hdigit | hdigit
      · exact printable_digit _ (by omega) byte hdigit
      · exact printable_digit _ (by omega) byte hdigit
  have hne : receiptKeyFrom sha256 source requestId ≠ "" := by
    rintro hempty
    rw [hempty] at hsize
    cases hsize
  simp [validKey, hne, hsize]
  simpa using hprintable

end Keys

namespace Inbox

def default : Inbox := ⟨[], "local-ui", 1⟩

section Calls

variable {Url UrlOrigin PathBuf : Type} (U : UrlLibrary Url UrlOrigin) (sha256 : Bytes → Digest) (inbox : Inbox)

def receiptKey (requestId : String) : String := receiptKeyFrom sha256 inbox.sourceNamespace requestId

/-- Without the proposals that are too old. -/
def retain (now : ℕ) : Inbox := { inbox with pending := inbox.pending.filter (·.isFresh now) }

/-- `propose` of an inbox whose proposals are not too old. -/
def stage (now : ℕ) (requestId url : String) : Except ManagerError ProposalId × Inbox :=
  if requestId = "" ∨ requestId.utf8ByteSize > 128 ∨ !(utf8 requestId).all fun b ↦ isAsciiAlphanumeric b || b = 45 then
    (.error .invalidOptions, inbox)
  else
    match inbox.pending.find? (·.source = requestId) with
    | some p => (if p.url = url then .ok p.id else .error .duplicateJob, inbox)
    | none =>
      match parseUrl U url false with
      | .error _ => (.error .invalidOptions, inbox)
      | .ok _ =>
        if inbox.pending.length ≥ maxProposals then (.error .capacity, inbox)
        else
          match checkedAdd inbox.next 1 with
          | none => (.error .capacity, inbox)
          | some next =>
            (.ok ⟨inbox.next⟩,
              { inbox with pending := inbox.pending ++ [⟨⟨inbox.next⟩, requestId, url, now⟩], next := next })

/-- Only stages a request. -/
def propose (now : ℕ) (requestId url : String) : Except ManagerError ProposalId × Inbox :=
  (inbox.retain now).stage U now requestId url

/-- Trusted UI-only preview. -/
def previewUrl (now : ℕ) (id : ProposalId) : Option String := (inbox.pending.find? (·.isLive id now)).map (·.url)

def reject (id : ProposalId) : Inbox := { inbox with pending := inbox.pending.filter (·.id ≠ id) }

/-- No credentials, HTTP permission, redirect permission or arbitrary path comes from the proposal. -/
def approvedOptions (url : String) (jobDir : PathBuf) (name : String) : Options PathBuf :=
  ⟨url, jobDir, name, none, false, 1024 * 1024, 100 * 1024 * 1024 * 1024, none, 1, .default, none⟩

/-- `approve` up to the call of the manager. -/
def admission (now : ℕ) (id : ProposalId) (jobDir : PathBuf) (name : String) :
    Except ManagerError (Admission PathBuf) :=
  match validateName name with
  | .error _ => .error .invalidOptions
  | .ok () =>
    match inbox.pending.find? (·.isLive id now) with
    | none => .error .unknownJob
    | some p => .ok ⟨inbox.receiptKey sha256 p.source, approvedOptions p.url jobDir name, .normal⟩

/-- Only call after explicit trusted UI approval. Without an answer the caller has stopped waiting for the manager. -/
def approve (now : ℕ) (id : ProposalId) (jobDir : PathBuf) (name : String)
    (answer : Option (Except ManagerError JobId)) : Option (Except ManagerError JobId) × Inbox :=
  match inbox.admission sha256 now id jobDir name with
  | .error error => (some (.error error), inbox)
  | .ok _ =>
    match answer with
    -- the index is still right: nobody else has the inbox while the manager is waited for
    | some (.ok job) => (some (.ok job), { inbox with pending := inbox.pending.eraseP (·.isLive id now) })
    | answer => (answer, inbox)

end Calls

/-! ### What a call can do -/

section Rules

variable {Url UrlOrigin PathBuf : Type} {U : UrlLibrary Url UrlOrigin} {sha256 : Bytes → Digest} {inbox : Inbox}
  {now : ℕ} {id : ProposalId} {requestId url source name : String} {jobDir : PathBuf} {admission : Admission PathBuf}

/-- What `stage` can do. -/
theorem stage_cases (U : UrlLibrary Url UrlOrigin) (inbox : Inbox) (now : ℕ) (requestId url : String) :
    ((inbox.stage U now requestId url).2 = inbox ∧ ∀ id, (inbox.stage U now requestId url).1 = .ok id →
      ∃ p ∈ inbox.pending, p.source = requestId ∧ p.url = url ∧ p.id = id) ∨
    (requestId.utf8ByteSize ≤ 128 ∧ (∃ parsed, parseUrl U url false = .ok parsed) ∧
      inbox.pending.length < maxProposals ∧ inbox.stage U now requestId url = (.ok ⟨inbox.next⟩,
        ⟨inbox.pending ++ [⟨⟨inbox.next⟩, requestId, url, now⟩], inbox.sourceNamespace, inbox.next + 1⟩)) := by
  have hrefused : ∀ {r : Except ManagerError ProposalId} {e : ManagerError}, r = .error e →
      ∀ id, r = .ok id → ∃ p ∈ inbox.pending, p.source = requestId ∧ p.url = url ∧ p.id = id := by
    rintro r e rfl id h
    cases h
  unfold stage
  split
  next => exact .inl ⟨rfl, hrefused rfl⟩
  next hname =>
    split
    next p hp =>
      refine .inl ⟨rfl, fun id hid ↦ ?_⟩
      have hsource : p.source = requestId := by simpa using List.find?_some hp
      by_cases hurl : p.url = url
      · rw [if_pos hurl] at hid
        exact ⟨p, List.mem_of_find?_eq_some hp, hsource, hurl, Except.ok.inj hid⟩
      · rw [if_neg hurl] at hid
        cases hid
    next =>
      split
      next => exact .inl ⟨rfl, hrefused rfl⟩
      next parsed hparsed =>
        split
        next => exact .inl ⟨rfl, hrefused rfl⟩
        next hroom =>
          split
          next => exact .inl ⟨rfl, hrefused rfl⟩
          next next hnext =>
            obtain ⟨-, rfl⟩ := checkedAdd_eq_some.1 hnext
            exact .inr ⟨not_lt.1 fun h ↦ hname (.inr (.inl h)), ⟨parsed, hparsed⟩, not_le.1 hroom, rfl⟩

theorem admission_eq_ok : inbox.admission sha256 now id jobDir name = .ok admission ↔
    validateName name = .ok () ∧ ∃ p, inbox.pending.find? (·.isLive id now) = some p ∧
      admission = ⟨inbox.receiptKey sha256 p.source, approvedOptions p.url jobDir name, .normal⟩ := by
  unfold Inbox.admission
  constructor
  · intro h
    split at h
    next => cases h
    next hname =>
      split at h
      next => cases h
      next p hp => exact ⟨hname, p, hp, (Except.ok.inj h).symm⟩
  · rintro ⟨hname, p, hp, rfl⟩
    rw [hname]
    simp only [hp]

/-- What `approve` leaves. -/
theorem approve_cases (answer : Option (Except ManagerError JobId))
    (h : inbox.admission sha256 now id jobDir name = .ok admission) :
    ((∃ job, answer = some (.ok job)) ∧ (inbox.approve sha256 now id jobDir name answer).2 =
        { inbox with pending := inbox.pending.eraseP (·.isLive id now) }) ∨
      (∀ job, answer ≠ some (.ok job)) ∧ (inbox.approve sha256 now id jobDir name answer).2 = inbox := by
  simp only [approve, h]
  cases answer with
  | none => exact .inr ⟨by rintro job ⟨⟩, rfl⟩
  | some r =>
    cases r with
    | error e => exact .inr ⟨by rintro job ⟨⟩, rfl⟩
    | ok job => exact .inl ⟨⟨job, rfl⟩, rfl⟩

theorem approve_refused (answer : Option (Except ManagerError JobId)) {error : ManagerError}
    (h : inbox.admission sha256 now id jobDir name = .error error) :
    (inbox.approve sha256 now id jobDir name answer).2 = inbox := by
  simp only [approve, h]

theorem isLive_iff {p : Proposal} : p.isLive id now ↔ p.id = id ∧ now < p.created + proposalLifetime := by
  have hlifetime : 0 < proposalLifetime := by decide
  rw [Proposal.isLive, Proposal.isFresh, Bool.and_eq_true_iff, decide_eq_true_iff, decide_eq_true_iff]
  exact and_congr_right fun _ ↦ by omega

/-- No other proposal is left with the id of the one that was accepted. -/
theorem ne_of_mem_eraseP {p : Proposal} {l : List Proposal} (hdistinct : (l.map (·.id)).Nodup)
    (hfind : l.find? (·.isLive id now) = some p) {q : Proposal} (hq : q ∈ l.eraseP (·.isLive id now)) : q.id ≠ id := by
  induction l with
  | nil => cases hq
  | cons r l ih =>
    rw [List.map_cons, List.nodup_cons] at hdistinct
    by_cases hr : r.isLive id now
    · rw [List.eraseP_cons_of_pos hr] at hq
      have hid : r.id = id := (isLive_iff.1 hr).1
      exact fun h ↦ hdistinct.1 (hid.trans h.symm ▸ List.mem_map_of_mem hq)
    · rw [List.eraseP_cons_of_neg hr, List.mem_cons] at hq
      rw [List.find?_cons_of_neg hr] at hfind
      rcases hq with rfl | hq
      · have hp : p ∈ l := List.mem_of_find?_eq_some hfind
        have hlive : p.isLive id now := by simpa using List.find?_some hfind
        have hid := (isLive_iff.1 hlive).1
        exact fun h ↦ hdistinct.1 (h.trans hid.symm ▸ List.mem_map_of_mem hp)
      · exact ih hdistinct.2 hfind hq

end Rules

/-! ### Courses -/

inductive Input (PathBuf : Type)
  | propose (requestId url : String)
  | reject (id : ProposalId)
  | approve (id : ProposalId) (jobDir : PathBuf) (name : String) (answer : Option (Except ManagerError JobId))

/-- What a call has left in the log. -/
inductive Entry (PathBuf : Type)
  | proposed (now : ℕ) (requestId url : String) (answer : Except ManagerError ProposalId)
  /-- An id that this inbox had given out. -/
  | rejected (id : ProposalId)
  /-- The manager was asked for this. -/
  | asked (now : ℕ) (id : ProposalId) (admission : Admission PathBuf) (answer : Option (Except ManagerError JobId))

/-- An inbox, what the clock last read, and what has been called, the last call first. -/
structure Course (PathBuf : Type) where
  inbox : Inbox
  now : ℕ
  log : List (Entry PathBuf)

section Courses

variable {Url UrlOrigin PathBuf : Type} (U : UrlLibrary Url UrlOrigin) (sha256 : Bytes → Digest)

/-- One call, some time after the last one. -/
def Course.step (c : Course PathBuf) (input : ℕ × Input PathBuf) : Course PathBuf :=
  let now := c.now + input.1
  match input.2 with
  | .propose requestId url =>
    let proposed := c.inbox.propose U now requestId url
    ⟨proposed.2, now, .proposed now requestId url proposed.1 :: c.log⟩
  | .reject id =>
    ⟨c.inbox.reject id, now, if id.value < c.inbox.next then .rejected id :: c.log else c.log⟩
  | .approve id jobDir name answer =>
    let inbox := (c.inbox.approve sha256 now id jobDir name answer).2
    match c.inbox.admission sha256 now id jobDir name with
    | .error _ => ⟨inbox, now, c.log⟩
    | .ok admission => ⟨inbox, now, .asked now id admission answer :: c.log⟩

def Course.run (c : Course PathBuf) (inputs : List (ℕ × Input PathBuf)) : Course PathBuf :=
  inputs.foldl (Course.step U sha256) c

end Courses

end Inbox

end Fhd.DownloadEngine
