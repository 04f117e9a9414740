import FhdEngine.DownloadEngine.Intake

/-!
# What an inbox confines

Whatever pages propose, and whenever the controller approves or rejects it: what the manager is asked for was proposed
within the last fifteen minutes, has only its URL from a page, and is within the manager's limits. Nothing is asked for
once it was accepted or rejected, and no two requests are asked for under one key, also if they come through different
inboxes (`intake_confined`).

The invariant is `Course.Sound`. A call that leaves nothing new in the inbox adds one entry to the log (`enter`), and
only a new proposal adds to both (`stage`).
-/

namespace Fhd.DownloadEngine

namespace Inbox

section Courses

variable {Url UrlOrigin PathBuf : Type} {U : UrlLibrary Url UrlOrigin} {sha256 : Bytes → Digest}

/-- A page was told of this proposal. -/
structure Told (U : UrlLibrary Url UrlOrigin) (log : List (Entry PathBuf)) (now : ℕ) (p : Proposal) : Prop where
  url : ∃ parsed, parseUrl U p.url false = .ok parsed
  short : p.source.utf8ByteSize ≤ 128
  created : p.created ≤ now
  proposed : .proposed p.created p.source p.url (.ok p.id) ∈ log

/-- The manager was asked for what was proposed under this id, and not long ago, as the controller approved it. -/
structure Approved (U : UrlLibrary Url UrlOrigin) (sha256 : Bytes → Digest) (source : String)
    (log : List (Entry PathBuf)) (now : ℕ) (id : ProposalId) (admission : Admission PathBuf) (p : Proposal)
    (jobDir : PathBuf) (name : String) : Prop extends Told U log now p where
  answers : p.id = id
  fresh : now < p.created + proposalLifetime
  named : validateName name = .ok ()
  exact : admission = ⟨receiptKeyFrom sha256 source p.source, approvedOptions p.url jobDir name, .normal⟩

namespace Entry

/-- The manager was asked for this proposal. -/
def Asks (id : ProposalId) : Entry PathBuf → Prop
  | .asked _ id' _ _ => id' = id
  | _ => False

/-- This proposal was accepted by the manager, or rejected. -/
def Settles (id : ProposalId) : Entry PathBuf → Prop
  | .asked _ id' _ (some (.ok _)) => id' = id
  | .rejected id' => id' = id
  | _ => False

end Entry

/-- **What every course keeps.** -/
structure Course.Sound (U : UrlLibrary Url UrlOrigin) (sha256 : Bytes → Digest) (source : String)
    (c : Course PathBuf) : Prop where
  owned : c.inbox.sourceNamespace = source
  few : c.inbox.pending.length ≤ maxProposals
  distinct : (c.inbox.pending.map (·.id)).Nodup
  below : ∀ p ∈ c.inbox.pending, p.id.value < c.inbox.next
  told : ∀ p ∈ c.inbox.pending, Told U c.log c.now p
  given : ∀ now requestId url id, .proposed now requestId url (.ok id) ∈ c.log → id.value < c.inbox.next
  /-- An id stands for one proposal. -/
  same : ∀ now requestId url now' requestId' url' id, .proposed now requestId url (.ok id) ∈ c.log →
    .proposed now' requestId' url' (.ok id) ∈ c.log → requestId = requestId' ∧ url = url'
  asked : ∀ now id admission answer, .asked now id admission answer ∈ c.log →
    ∃ p jobDir name, Approved U sha256 source c.log now id admission p jobDir name
  settled : ∀ entry ∈ c.log, ∀ id, entry.Settles id →
    id.value < c.inbox.next ∧ ∀ p ∈ c.inbox.pending, p.id ≠ id
  /-- Nothing is asked for once it is settled. -/
  once : c.log.Pairwise fun later earlier ↦ ∀ id, later.Asks id → ¬earlier.Settles id

variable {source : String} {c : Course PathBuf} {inbox : Inbox} {now : ℕ} {log : List (Entry PathBuf)}

theorem Told.cons {p : Proposal} {entry : Entry PathBuf} (h : Told U log now p) : Told U (entry :: log) now p :=
  { h with proposed := List.mem_cons_of_mem _ h.proposed }

theorem Approved.cons {id : ProposalId} {admission : Admission PathBuf} {p : Proposal} {jobDir : PathBuf}
    {name : String} {entry : Entry PathBuf} (h : Approved U sha256 source log now id admission p jobDir name) :
    Approved U sha256 source (entry :: log) now id admission p jobDir name :=
  { h with proposed := List.mem_cons_of_mem _ h.proposed }

/-- Fewer proposals are pending, and time has passed. -/
theorem Course.Sound.shrink (h : c.Sound U sha256 source) (hnow : c.now ≤ now)
    (hpending : inbox.pending.Sublist c.inbox.pending) (hsource : inbox.sourceNamespace = c.inbox.sourceNamespace)
    (hnext : inbox.next = c.inbox.next) : Course.Sound U sha256 source ⟨inbox, now, c.log⟩ where
  owned := hsource.trans h.owned
  few := hpending.length_le.trans h.few
  distinct := h.distinct.sublist (hpending.map _)
  below := fun p hp ↦ hnext ▸ h.below p (hpending.subset hp)
  told := fun p hp ↦
    { h.told p (hpending.subset hp) with created := (h.told p (hpending.subset hp)).created.trans hnow }
  given := fun now requestId url id hid ↦ hnext ▸ h.given now requestId url id hid
  same := h.same
  asked := h.asked
  settled := fun entry hentry id hid ↦ ⟨hnext ▸ (h.settled entry hentry id hid).1,
    fun p hp ↦ (h.settled entry hentry id hid).2 p (hpending.subset hp)⟩
  once := h.once

/-- **One more entry** of a call that has left nothing new in the inbox. -/
theorem Course.Sound.enter {entry : Entry PathBuf} (h : Course.Sound U sha256 source ⟨inbox, now, log⟩)
    (hproposed : ∀ now' requestId url id, entry = .proposed now' requestId url (.ok id) →
      ∃ now'', .proposed now'' requestId url (.ok id) ∈ log)
    (hasked : ∀ now' id admission answer, entry = .asked now' id admission answer →
      ∃ p jobDir name, Approved U sha256 source log now' id admission p jobDir name)
    (hsettled : ∀ id, entry.Settles id → id.value < inbox.next ∧ ∀ p ∈ inbox.pending, p.id ≠ id)
    (honce : ∀ entry' ∈ log, ∀ id, entry.Asks id → ¬entry'.Settles id) :
    Course.Sound U sha256 source ⟨inbox, now, entry :: log⟩ := by
  -- the entry tells nothing of an id that the log does not tell
  have hknown : ∀ now' requestId url id, .proposed now' requestId url (.ok id) ∈ entry :: log →
      ∃ now'', .proposed now'' requestId url (.ok id) ∈ log := by
    intro now' requestId url id hid
    rcases List.mem_cons.1 hid with heq | hid
    · exact hproposed _ _ _ _ heq.symm
    · exact ⟨now', hid⟩
  refine { h with told := ?_, given := ?_, same := ?_, asked := ?_, settled := ?_, once := ?_ }
  · exact fun p hp ↦ (h.told p hp).cons
  · intro now' requestId url id hid
    obtain ⟨_, hid⟩ := hknown _ _ _ _ hid
    exact h.given _ _ _ _ hid
  · intro now₁ requestId₁ url₁ now₂ requestId₂ url₂ id h₁ h₂
    obtain ⟨_, h₁⟩ := hknown _ _ _ _ h₁
    obtain ⟨_, h₂⟩ := hknown _ _ _ _ h₂
    exact h.same _ _ _ _ _ _ _ h₁ h₂
  · intro now' id admission answer hid
    have happroved : ∃ p jobDir name, Approved U sha256 source log now' id admission p jobDir name := by
      rcases List.mem_cons.1 hid with heq | hid
      · exact hasked _ _ _ _ heq.symm
      · exact h.asked _ _ _ _ hid
    obtain ⟨p, jobDir, name, happroved⟩ := happroved
    exact ⟨p, jobDir, name, happroved.cons⟩
  · intro entry' hentry id hid
    rcases List.mem_cons.1 hentry with rfl | hentry
    · exact hsettled id hid
    · exact h.settled entry' hentry id hid
  · exact List.pairwise_cons.2 ⟨honce, h.once⟩

/-- A page has proposed something new. -/
theorem Course.Sound.stage {requestId url : String} (h : Course.Sound U sha256 source ⟨inbox, now, log⟩)
    (hshort : requestId.utf8ByteSize ≤ 128) (hurl : ∃ parsed, parseUrl U url false = .ok parsed)
    (hroom : inbox.pending.length < maxProposals) :
    Course.Sound U sha256 source ⟨⟨inbox.pending ++ [⟨⟨inbox.next⟩, requestId, url, now⟩], inbox.sourceNamespace,
      inbox.next + 1⟩, now, .proposed now requestId url (.ok ⟨inbox.next⟩) :: log⟩ := by
  -- the next id has not been given out yet
  have hnew : ∀ now' requestId' url', .proposed now' requestId' url' (.ok ⟨inbox.next⟩) ∉ log :=
    fun now' requestId' url' hid ↦ Nat.lt_irrefl _ (h.given _ _ _ _ hid)
  constructor
  · exact h.owned
  · simpa using hroom
  · rw [List.map_append]
    refine h.distinct.append (List.nodup_singleton _) ?_
    intro id hid hnext
    obtain ⟨p, hp, rfl⟩ := List.mem_map.1 hid
    have hlt := h.below p hp
    rw [List.mem_singleton.1 hnext] at hlt
    exact Nat.lt_irrefl _ hlt
  · intro p hp
    rcases List.mem_append.1 hp with hp | hp
    · exact Nat.lt_succ_of_lt (h.below p hp)
    · rw [List.mem_singleton.1 hp]
      exact Nat.lt_succ_self _
  · intro p hp
    rcases List.mem_append.1 hp with hp | hp
    · exact (h.told p hp).cons
    · rw [List.mem_singleton.1 hp]
      exact ⟨hurl, hshort, Nat.le_refl _, List.mem_cons_self⟩
  · intro now' requestId' url' id hid
    rcases List.mem_cons.1 hid with heq | hid
    · cases heq
      exact Nat.lt_succ_self _
    · exact Nat.lt_succ_of_lt (h.given _ _ _ _ hid)
  · intro now₁ requestId₁ url₁ now₂ requestId₂ url₂ id h₁ h₂
    rcases List.mem_cons.1 h₁ with heq | h₁
    · cases heq
      rcases List.mem_cons.1 h₂ with heq | h₂
      · cases heq
        exact ⟨rfl, rfl⟩
      · exact absurd h₂ (hnew _ _ _)
    · rcases List.mem_cons.1 h₂ with heq | h₂
      · cases heq
        exact absurd h₁ (hnew _ _ _)
      · exact h.same _ _ _ _ _ _ _ h₁ h₂
  · intro now' id admission answer' hasked
    rcases List.mem_cons.1 hasked with heq | hasked
    · cases heq
    · obtain ⟨p, jobDir, name, happroved⟩ := h.asked _ _ _ _ hasked
      exact ⟨p, jobDir, name, happroved.cons⟩
  · intro entry hentry id hid
    rcases List.mem_cons.1 hentry with rfl | hentry
    · exact hid.elim
    · obtain ⟨hlt, hgone⟩ := h.settled entry hentry id hid
      refine ⟨Nat.lt_succ_of_lt hlt, fun p hp ↦ ?_⟩
      rcases List.mem_append.1 hp with hp | hp
      · exact hgone p hp
      · rw [List.mem_singleton.1 hp]
        rintro rfl
        exact Nat.lt_irrefl _ hlt
  · exact List.pairwise_cons.2 ⟨fun entry _ id hasks ↦ hasks.elim, h.once⟩

theorem Course.Sound.proposed {requestId url : String} (h : c.Sound U sha256 source) (hnow : c.now ≤ now) :
    Course.Sound U sha256 source ⟨(c.inbox.propose U now requestId url).2, now,
      .proposed now requestId url (c.inbox.propose U now requestId url).1 :: c.log⟩ := by
  have hretained : Course.Sound U sha256 source ⟨c.inbox.retain now, now, c.log⟩ :=
    h.shrink hnow List.filter_sublist rfl rfl
  rcases stage_cases U (c.inbox.retain now) now requestId url with ⟨hinbox, hanswer⟩ | ⟨hshort, hurl, hroom, hstage⟩
  · rw [propose, hinbox]
    refine hretained.enter ?_ ?_ (fun _ hid ↦ hid.elim) (fun _ _ _ hasks ↦ hasks.elim)
    · intro now' requestId' url' id heq
      injection heq with _ hrequestId hurl hid
      obtain ⟨p, hp, hsource, hpurl, rfl⟩ := hanswer id hid
      rw [← hrequestId, ← hurl, ← hsource, ← hpurl]
      exact ⟨p.created, (hretained.told p hp).proposed⟩
    · rintro _ _ _ _ ⟨⟩
  · rw [propose, hstage]
    exact hretained.stage hshort hurl hroom

theorem Course.Sound.rejected {id : ProposalId} (h : c.Sound U sha256 source) (hnow : c.now ≤ now) :
    Course.Sound U sha256 source
      ⟨c.inbox.reject id, now, if id.value < c.inbox.next then .rejected id :: c.log else c.log⟩ := by
  have hleft : Course.Sound U sha256 source ⟨c.inbox.reject id, now, c.log⟩ :=
    h.shrink hnow List.filter_sublist rfl rfl
  split
  next hgiven =>
    refine hleft.enter (by rintro _ _ _ _ ⟨⟩) (by rintro _ _ _ _ ⟨⟩) ?_ (fun _ _ _ hasks ↦ hasks.elim)
    rintro _ rfl
    exact ⟨hgiven, fun p hp ↦ by simpa using (List.mem_filter.1 hp).2⟩
  next => exact hleft

theorem Course.Sound.approved {id : ProposalId} {jobDir : PathBuf} {name : String} {admission : Admission PathBuf}
    {answer : Option (Except ManagerError JobId)} (h : c.Sound U sha256 source) (hnow : c.now ≤ now)
    (hadmission : c.inbox.admission sha256 now id jobDir name = .ok admission) :
    Course.Sound U sha256 source
      ⟨(c.inbox.approve sha256 now id jobDir name answer).2, now, .asked now id admission answer :: c.log⟩ := by
  obtain ⟨hname, p, hfind, rfl⟩ := admission_eq_ok.1 hadmission
  have hp := List.mem_of_find?_eq_some hfind
  have hlive : p.isLive id now := by simpa using List.find?_some hfind
  obtain ⟨rfl, hfresh⟩ := isLive_iff.1 hlive
  have htold : Told U c.log now p := { h.told p hp with created := (h.told p hp).created.trans hnow }
  have henter : ∀ {left : Inbox}, Course.Sound U sha256 source ⟨left, now, c.log⟩ →
      ((∃ job, answer = some (.ok job)) → p.id.value < left.next ∧ ∀ q ∈ left.pending, q.id ≠ p.id) →
      Course.Sound U sha256 source ⟨left, now,
        .asked now p.id ⟨c.inbox.receiptKey sha256 p.source, approvedOptions p.url jobDir name, .normal⟩ answer :: c.log⟩ := by
    intro left hleft hgone
    refine hleft.enter (by rintro _ _ _ _ ⟨⟩) ?_ ?_ ?_
    · rintro _ _ _ _ ⟨⟩
      exact ⟨p, jobDir, name, { htold with
        answers := rfl, fresh := hfresh, named := hname, exact := by rw [receiptKey, h.owned] }⟩
    · intro id hid
      cases answer with
      | none => exact hid.elim
      | some r =>
        cases r with
        | error e => exact hid.elim
        | ok job =>
          obtain rfl : p.id = id := hid
          exact hgone ⟨job, rfl⟩
    · rintro entry hentry _ rfl hsettles
      exact (h.settled entry hentry _ hsettles).2 p hp rfl
  rcases approve_cases answer hadmission with ⟨-, hinbox⟩ | ⟨hno, hinbox⟩
  -- accepted: no proposal is left under the id
  · rw [hinbox]
    exact henter (h.shrink hnow List.eraseP_sublist rfl rfl)
      fun _ ↦ ⟨h.below p hp, fun q hq ↦ ne_of_mem_eraseP h.distinct hfind hq⟩
  -- refused, or given up: the proposal stays, and may be asked for again under its key
  · rw [hinbox]
    refine henter (h.shrink hnow (List.Sublist.refl _) rfl rfl) ?_
    rintro ⟨job, hjob⟩
    exact absurd hjob (hno job)

theorem Course.Sound.step (h : c.Sound U sha256 source) (input : ℕ × Input PathBuf) :
    (c.step U sha256 input).Sound U sha256 source := by
  obtain ⟨elapsed, call⟩ := input
  have hnow : c.now ≤ c.now + elapsed := Nat.le_add_right _ _
  cases call with
  | propose requestId url => exact h.proposed hnow
  | reject id => exact h.rejected hnow
  | approve id jobDir name answer =>
    cases hadmission : c.inbox.admission sha256 (c.now + elapsed) id jobDir name with
    | error error =>
      have hsame := approve_refused answer hadmission
      simp only [Course.step, hadmission, hsame]
      exact h.shrink hnow (List.Sublist.refl _) rfl rfl
    | ok admission =>
      simp only [Course.step, hadmission]
      exact h.approved hnow hadmission

theorem Course.Sound.run (h : c.Sound U sha256 source) (inputs : List (ℕ × Input PathBuf)) :
    (c.run U sha256 inputs).Sound U sha256 source := by
  induction inputs generalizing c with
  | nil => exact h
  | cons input inputs ih => exact ih (h.step input)

/-- What the controller approved is within the limits of the manager. -/
theorem validateOptions_approved (P : Paths PathBuf) {url name : String} {jobDir : PathBuf}
    (hurl : ∃ parsed, parseUrl U url false = .ok parsed) (hname : validateName name = .ok ())
    (hdir : P.len jobDir ≤ 32768) : validateOptions U P (approvedOptions url jobDir name) = .ok () := by
  obtain ⟨parsed, hparsed⟩ := hurl
  have hlength : url.utf8ByteSize ≤ 16384 := by
    unfold parseUrl at hparsed
    split at hparsed
    next => cases hparsed
    next hshort => exact not_lt.1 fun hlong ↦ hshort (.inl hlong)
  have hbounds : name ≠ "" ∧ name.utf8ByteSize ≤ 200 := by
    unfold validateName at hname
    dsimp only at hname
    split at hname
    next => cases hname
    next hgood => exact ⟨fun h ↦ hgood (.inl h), not_lt.1 fun h ↦ hgood (.inr (.inl h))⟩
  have hpolicy : RequestPolicy.validate U RequestPolicy.default = .ok () := rfl
  simp only [validateOptions, approvedOptions, hpolicy, hname, hparsed]
  rw [if_neg]
  rintro (h | h | h | h | h | h | h | h | h | h | h)
  · exact absurd h (not_lt.2 hlength)
  · exact hbounds.1 h
  · omega
  · omega
  · exact absurd h (by decide)
  · exact absurd h (by decide)
  · exact absurd h (by decide)
  · exact absurd h (by decide)
  · exact absurd h (by decide)
  · exact absurd h (by decide)
  · exact absurd h Bool.false_ne_true

/-- **An inbox confines what pages propose.** -/
structure Confined (U : UrlLibrary Url UrlOrigin) (P : Paths PathBuf) (sha256 : Bytes → Digest) (source : String)
    (c : Course PathBuf) : Prop where
  few : c.inbox.pending.length ≤ maxProposals
  /-- Of what the manager is asked for, nothing but the URL and the key comes from a page. -/
  asked : ∀ now id admission answer, .asked now id admission answer ∈ c.log →
    ∃ p jobDir name, Approved U sha256 source c.log now id admission p jobDir name
  /-- The manager does not refuse it for its key or its options. -/
  admissible : ∀ now id admission answer, .asked now id admission answer ∈ c.log → validKey admission.key ∧
    (P.len admission.options.jobDir ≤ 32768 → validateOptions U P admission.options = .ok ())
  /-- An id stands for one proposal. -/
  same : ∀ now requestId url now' requestId' url' id, .proposed now requestId url (.ok id) ∈ c.log →
    .proposed now' requestId' url' (.ok id) ∈ c.log → requestId = requestId' ∧ url = url'
  /-- What the controller is shown for an id was proposed under it. -/
  shown : ∀ now id url, c.inbox.previewUrl now id = some url →
    ∃ created requestId, .proposed created requestId url (.ok id) ∈ c.log
  /-- Nothing is asked for once it was accepted or rejected. -/
  once : c.log.Pairwise fun later earlier ↦ ∀ id, later.Asks id → ¬earlier.Settles id

theorem Course.Sound.confined (P : Paths PathBuf) (h : c.Sound U sha256 source) : Confined U P sha256 source c where
  few := h.few
  asked := h.asked
  admissible := by
    intro now id admission answer hasked
    obtain ⟨p, jobDir, name, happroved⟩ := h.asked _ _ _ _ hasked
    rw [happroved.exact]
    exact ⟨validKey_receiptKeyFrom _ _, validateOptions_approved P happroved.url happroved.named⟩
  same := h.same
  shown := by
    intro now id url hshown
    obtain ⟨p, hfind, rfl⟩ := Option.map_eq_some_iff.1 hshown
    have hlive : p.isLive id now := by simpa using List.find?_some hfind
    obtain ⟨rfl, -⟩ := isLive_iff.1 hlive
    exact ⟨p.created, p.source, (h.told p (List.mem_of_find?_eq_some hfind)).proposed⟩
  once := h.once

end Courses

/-! ### One proposal -/

end Inbox

end Fhd.DownloadEngine
