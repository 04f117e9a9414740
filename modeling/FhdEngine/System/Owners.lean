import FhdEngine.Persistence.StoreInvariant

/-!
# Owners and the repository

Any number of owners hold copies of persisted jobs. An owner decides an event on its copy, the
repository commits it or refuses it, and the owner applies it; between these steps it works on the
segments of its copy, and other transactions run. Nothing orders the steps of different owners.

`World.perform` is one step of anybody, and a run is any sequence of steps. Two results are about all
runs. Whatever is committed and whatever is applied, the versions of a job grow one by one
(`linear_history`). And if owners apply only what was committed (`World.Allows`), then the repository
can load every state it has written (`loads_of_reachable`).

The world also keeps ghost records that no step reads: which jobs were admitted, which leases were
granted under which representation, and which tickets and batches were issued.
-/

namespace Fhd

open Persistence

/-- A lease and the representation it was granted under. -/
structure Grant where
  job : JobId
  generation : Generation
  total : ℕ
  validator : Option Digest
  range : ByteRange
deriving DecidableEq

/-- The repository, the copies, and what has happened so far. -/
structure World where
  store : Store
  owners : List Job
  decided : List JobEvent
  committed : List JobEvent
  admitted : List (JobId × JobSpec)
  grants : List Grant
  tickets : List SyncTicket
  batches : List CommitBatch

inductive Refusal
  | repository (error : PersistenceError)
  | domain (error : DomainError)
  | nobody
deriving DecidableEq, Repr

/-- One step of anybody. -/
inductive Action
  | reserveId
  | commitAdd (unit : AddUnitOfWork)
  | remove (key : ReceiptKey) (expectedVersion : ℕ)
  | commitExtents (job : JobId) (generation : Generation) (extents : List DurableExtent)
  | recordPublishIntent (intent : PublishIntent)
  | commitTransition (event : JobEvent)
  /-- An owner starts from `Job::new` of a committed add. -/
  | adopt (job : JobId) (spec : JobSpec)
  /-- An owner starts from every job of `load_jobs`. -/
  | loadJobs
  | decide (owner : ℕ) (command : JobCommand)
  | apply (owner : ℕ) (event : JobEvent)
  | onSegments (owner : ℕ) (op : Job.Op)

namespace World

def init (limits : Limits) : World := ⟨Store.empty limits, [], [], [], [], [], [], []⟩

/-- The end of a transaction: a refused one leaves the world as it was. -/
def settle (w : World) (r : Except PersistenceError Store) (next : Store → World) :
    Except Refusal Unit × World :=
  match r with
  | .error e => (.error (.repository e), w)
  | .ok s => (.ok (), next s)

/-- A call on the segments of the copy `j`, which is number `i`. -/
def callSegments (w : World) (i : ℕ) (j : Job) (op : Job.Op) : Except Refusal Unit × World :=
  let w' := { w with owners := w.owners.set i (j.perform op) }
  match j.answer op with
  | .error e => (.error (.domain e), w')
  | .ok (.lease lease) =>
    (.ok (), { w' with grants := w.grants ++ [⟨j.id, j.generation, j.plan.elim 0 (·.1), j.validator,
      lease.range⟩] })
  | .ok (.ticket ticket) => (.ok (), { w' with tickets := w.tickets ++ [ticket] })
  | .ok (.batch batch) => (.ok (), { w' with batches := w.batches ++ [batch] })
  | .ok _ => (.ok (), w')

def perform (w : World) : Action → Except Refusal Unit × World
  | .reserveId => w.settle ((reserveId w.store).map (·.2)) fun s ↦ { w with store := s }
  | .commitAdd unit => w.settle (commitAdd w.store unit) fun s ↦
    { w with store := s, admitted := w.admitted ++ [(unit.receipt.job, unit.receipt.original)] }
  | .remove key expectedVersion =>
    w.settle (remove w.store key expectedVersion) fun s ↦ { w with store := s }
  | .commitExtents job generation extents =>
    w.settle (durable w.store job generation extents) fun s ↦ { w with store := s }
  | .recordPublishIntent intent =>
    w.settle (intendPublish w.store intent) fun s ↦ { w with store := s }
  | .commitTransition event => w.settle (transition w.store event) fun s ↦
    { w with store := s, committed := w.committed ++ [event] }
  | .adopt job spec =>
    if (job, spec) ∈ w.admitted then (.ok (), { w with owners := w.owners ++ [Job.new job spec] })
    else (.error .nobody, w)
  | .loadJobs =>
    match jobs w.store with
    | .error e => (.error (.repository e), w)
    | .ok js => (.ok (), { w with owners := w.owners ++ js })
  | .decide owner command =>
    match w.owners[owner]? with
    | none => (.error .nobody, w)
    | some j =>
      match j.decide command with
      | .error e => (.error (.domain e), w)
      | .ok events => (.ok (), { w with decided := w.decided ++ events })
  | .apply owner event =>
    match w.owners[owner]? with
    | none => (.error .nobody, w)
    | some j =>
      ((j.apply event).1.mapError .domain, { w with owners := w.owners.set owner (j.apply event).2 })
  | .onSegments owner op =>
    match w.owners[owner]? with
    | none => (.error .nobody, w)
    | some j => if op.onSegments.isSome then w.callSegments owner j op else (.error .nobody, w)

/-- The world after a sequence of steps. -/
def run (w : World) (actions : List Action) : World := History.after perform w actions

variable {w w' : World}

/-- The ghost records of a call on segments. -/
structure Recorded (j : Job) (op : Job.Op) (grants : List Grant) (tickets : List SyncTicket)
    (batches : List CommitBatch) : Prop where
  lease : ∀ lease, j.answer op = .ok (.lease lease) →
    grants = [⟨j.id, j.generation, j.plan.elim 0 (·.1), j.validator, lease.range⟩]
  ticket : ∀ t ∈ tickets, j.answer op = .ok (.ticket t)
  batch : ∀ b ∈ batches, j.answer op = .ok (.batch b)

theorem callSegments_cases (w : World) (i : ℕ) (j : Job) (op : Job.Op) : ∃ grants tickets batches,
    Recorded j op grants tickets batches ∧ (w.callSegments i j op).2 = { w with
      owners := w.owners.set i (j.perform op), grants := w.grants ++ grants
      tickets := w.tickets ++ tickets, batches := w.batches ++ batches } := by
  unfold callSegments
  rcases hr : j.answer op with e | r
  · exact ⟨[], [], [], ⟨by simp [hr], by simp, by simp⟩, by simp⟩
  · cases r with
    | lease lease =>
      refine ⟨[_], [], [], ⟨fun lease' h ↦ ?_, by simp, by simp⟩, by simp; rfl⟩
      rw [hr] at h
      cases h
      rfl
    | ticket ticket => exact ⟨[], [ticket], [], ⟨by simp [hr], by simp [hr], by simp⟩, by simp⟩
    | batch batch => exact ⟨[], [], [batch], ⟨by simp [hr], by simp, by simp [hr]⟩, by simp⟩
    | _ => exact ⟨[], [], [], ⟨by simp [hr], by simp, by simp⟩, by simp⟩

/-- Everything a step can do to the world. -/
inductive Moves (w : World) : Action → World → Prop
  | refused (a : Action) : Moves w a w
  | reserved {job : JobId} {s : Store} (h : reserveId w.store = .ok (job, s)) :
      Moves w .reserveId { w with store := s }
  | added {unit : AddUnitOfWork} {s : Store} (h : commitAdd w.store unit = .ok s) :
      Moves w (.commitAdd unit)
        { w with
          store := s, admitted := w.admitted ++ [(unit.receipt.job, unit.receipt.original)] }
  | removed {key : ReceiptKey} {expectedVersion : ℕ} {s : Store}
      (h : remove w.store key expectedVersion = .ok s) :
      Moves w (.remove key expectedVersion) { w with store := s }
  | hardened {job : JobId} {generation : Generation} {extents : List DurableExtent} {s : Store}
      (h : durable w.store job generation extents = .ok s) :
      Moves w (.commitExtents job generation extents) { w with store := s }
  | intended {intent : PublishIntent} {s : Store} (h : intendPublish w.store intent = .ok s) :
      Moves w (.recordPublishIntent intent) { w with store := s }
  | committed {event : JobEvent} {s : Store} (h : transition w.store event = .ok s) :
      Moves w (.commitTransition event)
        { w with store := s, committed := w.committed ++ [event] }
  | adopted {job : JobId} {spec : JobSpec} (h : (job, spec) ∈ w.admitted) :
      Moves w (.adopt job spec) { w with owners := w.owners ++ [Job.new job spec] }
  | loaded {js : List Job} (h : jobs w.store = .ok js) :
      Moves w .loadJobs { w with owners := w.owners ++ js }
  | decided {i : ℕ} {command : JobCommand} {j : Job} {events : List JobEvent}
      (hj : w.owners[i]? = some j) (h : j.decide command = .ok events) :
      Moves w (.decide i command) { w with decided := w.decided ++ events }
  | applied {i : ℕ} {event : JobEvent} {j : Job} (hj : w.owners[i]? = some j) :
      Moves w (.apply i event) { w with owners := w.owners.set i (j.apply event).2 }
  | segments {i : ℕ} {op : Job.Op} {mapOp : SegmentMap.Op} {j : Job} {grants : List Grant}
      {tickets : List SyncTicket} {batches : List CommitBatch} (hj : w.owners[i]? = some j)
      (hop : op.onSegments = some mapOp) (h : Recorded j op grants tickets batches) :
      Moves w (.onSegments i op)
        { w with
          owners := w.owners.set i (j.perform op), grants := w.grants ++ grants
          tickets := w.tickets ++ tickets, batches := w.batches ++ batches }

/-- The end of a transaction, as a move. -/
theorem moves_settle {a : Action} {r : Except PersistenceError Store} {next : Store → World}
    (h : ∀ s, r = .ok s → Moves w a (next s)) : Moves w a (w.settle r next).2 := by
  rcases r with e | s
  · exact .refused a
  · exact h s rfl

/-- **Inversion**: a step is refused, or it is one of the moves. -/
theorem moves_perform (w : World) (a : Action) : Moves w a (w.perform a).2 := by
  cases a with
  | reserveId =>
    refine moves_settle fun s hs ↦ ?_
    rcases hr : Persistence.reserveId w.store with e | ⟨job, s'⟩ <;> rw [hr] at hs <;> cases hs
    exact .reserved hr
  | commitAdd unit => exact moves_settle fun s hs ↦ .added hs
  | remove key expectedVersion => exact moves_settle fun s hs ↦ .removed hs
  | commitExtents job generation extents => exact moves_settle fun s hs ↦ .hardened hs
  | recordPublishIntent intent => exact moves_settle fun s hs ↦ .intended hs
  | commitTransition event => exact moves_settle fun s hs ↦ .committed hs
  | adopt job spec =>
    rw [perform]
    split
    next h => exact .adopted h
    · exact .refused _
  | loadJobs =>
    rw [perform]
    split
    · exact .refused _
    next h => exact .loaded h
  | decide owner command =>
    rw [perform]
    split
    · exact .refused _
    next hj =>
      split
      · exact .refused _
      next h => exact .decided hj h
  | apply owner event =>
    rw [perform]
    split
    · exact .refused _
    next hj => exact .applied hj
  | onSegments owner op =>
    rw [perform]
    split
    · exact .refused _
    next j hj =>
      split
      next hop =>
        obtain ⟨mapOp, hmap⟩ := Option.isSome_iff_exists.1 hop
        obtain ⟨grants, tickets, batches, hrec, heq⟩ := w.callSegments_cases owner j op
        rw [heq]
        exact .segments hj hmap hrec
      · exact .refused _

/-! ### Events are committed in a line -/

/-- The events of one job, in the order of their commits. -/
def log (w : World) (job : JobId) : List JobEvent := w.committed.filter (·.job = job)

/-- The repository is at the version, state and generation an event starts from. -/
def Fits (s : Store) (event : JobEvent) : Prop :=
  ∃ row now, s.jobs.lookup (event.job.get : ℤ) = some row ∧ current s event.job.get = .ok now ∧
    row.version + 1 = event.version ∧ now.state = event.fromState ∧
    now.generation = event.generation.get

/-- Some receipt names this row. -/
def Receipted (s : Store) (id : ℤ) : Prop := ∃ key row, s.receipts.lookup key = some row ∧ row.jobId = id

/-- What the versions say together. -/
structure Linear (w : World) : Prop where
  versions : ∀ job, (w.log job).map (·.version) = List.range' 1 (w.log job).length
  ordered : w.committed.Pairwise fun e e' ↦ e.job = e'.job → e.version < e'.version
  row : ∀ (job : JobId) row, w.store.jobs.lookup (job.get : ℤ) = some row →
    row.version = (w.log job).length
  receipted : ∀ (job : JobId), w.log job ≠ [] ∨ w.store.jobs.lookup (job.get : ℤ) ≠ none →
    Receipted w.store job.get

theorem log_concat (w : World) (s : Store) (event : JobEvent) (job : JobId) :
    log { w with store := s, committed := w.committed ++ [event] } job =
      w.log job ++ if event.job = job then [event] else [] := by
  rw [log, log, List.filter_append]
  congr 1
  split <;> simp [*]

/-- A step that commits no event, keeps the versions and forgets no receipt stays in line. -/
theorem Linear.of_same (hw : w.Linear) (hlog : w'.committed = w.committed)
    (hjobs : ∀ id row, w'.store.jobs.lookup id = some row →
      ∃ row', w.store.jobs.lookup id = some row' ∧ row'.version = row.version)
    (hreceipts : ∀ id, Receipted w.store id → Receipted w'.store id) : w'.Linear := by
  have hlog' : ∀ job, w'.log job = w.log job := fun job ↦ by rw [log, log, hlog]
  refine ⟨fun job ↦ ?_, by rw [hlog]; exact hw.ordered, fun job row hrow ↦ ?_, fun job h ↦ ?_⟩
  · rw [hlog']
    exact hw.versions job
  · obtain ⟨row', hrow', hversion⟩ := hjobs _ row hrow
    rw [hlog', ← hversion]
    exact hw.row job row' hrow'
  · refine hreceipts _ (hw.receipted job (h.imp (by rw [hlog']; exact fun h ↦ h) fun h ↦ ?_))
    obtain ⟨row, hrow⟩ := Option.ne_none_iff_exists'.1 h
    obtain ⟨row', hrow', -⟩ := hjobs _ row hrow
    rw [hrow']
    simp

/-- An accepted transition is the next event of its job. -/
theorem Linear.commit (hw : w.Linear) {event : JobEvent} {s : Store}
    (h : transition w.store event = .ok s) :
    Linear { w with store := s, committed := w.committed ++ [event] } := by
  obtain ⟨row, now, p, ds, st, ht⟩ := transition_eq_ok h
  have hrow := hw.row event.job row ht.lookup
  have hversion : event.version = (w.log event.job).length + 1 := by
    have := ht.version
    omega
  refine ⟨fun job ↦ ?_, ?_, fun job row' hrow' ↦ ?_, fun job h ↦ ?_⟩
  · rw [log_concat]
    split
    next hjob =>
      rw [← hjob, List.map_append, hw.versions event.job, List.length_append, List.map_singleton,
        List.length_singleton, List.range'_1_concat, hversion, Nat.add_comm]
    next hjob =>
      rw [List.append_nil]
      exact hw.versions job
  · refine List.pairwise_append.2 ⟨hw.ordered, List.pairwise_singleton _ _, fun e he e' he' hjob ↦ ?_⟩
    obtain rfl := List.mem_singleton.1 he'
    have hmem : e.version ∈ (w.log e'.job).map (·.version) :=
      List.mem_map_of_mem (List.mem_filter.2 ⟨he, decide_eq_true hjob⟩)
    rw [hw.versions, List.mem_range'_1] at hmem
    omega
  · rw [log_concat]
    have heq := ht.eq
    rw [heq] at hrow'
    split
    next hjob =>
      rw [← hjob] at hrow' ⊢
      dsimp only at hrow'
      rw [AList.lookup_insert] at hrow'
      cases hrow'
      rw [List.length_append, List.length_singleton]
      exact congrArg Nat.cast hversion
    next hjob =>
      have hne : (job.get : ℤ) ≠ event.job.get := fun heq ↦
        hjob (Identifier.ext (Int.ofNat.inj heq.symm))
      dsimp only at hrow'
      rw [AList.lookup_insert_ne hne] at hrow'
      rw [List.append_nil]
      exact hw.row job row' hrow'
  · have hsame : Receipted s = Receipted w.store := by rw [ht.eq]; rfl
    dsimp only
    rw [hsame]
    by_cases hjob : event.job = job
    · refine hw.receipted job (Or.inr ?_)
      rw [← hjob, ht.lookup]
      simp
    · have hne : (job.get : ℤ) ≠ event.job.get := fun heq ↦
        hjob (Identifier.ext (Int.ofNat.inj heq.symm))
      refine hw.receipted job (h.imp (fun h ↦ ?_) fun h ↦ ?_)
      · rwa [log_concat, if_neg hjob, List.append_nil] at h
      · rw [ht.eq] at h
        dsimp only at h
        rwa [AList.lookup_insert_ne hne] at h

theorem Receipted.of_remembered {s s' : Store} {id : ℤ} (h : ∀ key row, s.receipts.lookup key = some row →
    ∃ row', s'.receipts.lookup key = some row' ∧ row'.jobId = row.jobId) (hid : Receipted s id) :
    Receipted s' id := by
  obtain ⟨key, row, hrow, rfl⟩ := hid
  obtain ⟨row', hrow', hjob⟩ := h key row hrow
  exact ⟨key, row', hrow', hjob⟩

/-- An admitted job starts at version zero, under an identifier that was never used. -/
theorem Linear.add (hw : w.Linear) {unit : AddUnitOfWork} {s : Store}
    (h : commitAdd w.store unit = .ok s) (admitted : List (JobId × JobSpec)) :
    Linear { w with store := s, admitted := admitted } := by
  obtain ⟨-, -, hkey, hrow, hreceipts, -, heq⟩ := commitAdd_eq_ok h
  have hfresh : w.log unit.receipt.job = [] := by
    by_contra hne
    obtain ⟨key, row, hk, hjob⟩ := hw.receipted unit.receipt.job (Or.inl hne)
    exact hreceipts ⟨key, row⟩ (AList.mem_lookup_iff.1 hk) hjob
  have hremember : ∀ id, Receipted w.store id → Receipted s id := by
    intro id
    refine Receipted.of_remembered fun key row hk ↦ ⟨row, ?_, rfl⟩
    rw [heq]
    refine (AList.lookup_insert_ne ?_).trans hk
    rintro rfl
    rw [hkey] at hk
    cases hk
  have hself : Receipted s unit.receipt.job.get := by
    rw [heq]
    exact ⟨_, _, AList.lookup_insert _, rfl⟩
  have hlookup : ∀ job : JobId, job ≠ unit.receipt.job →
      s.jobs.lookup (job.get : ℤ) = w.store.jobs.lookup (job.get : ℤ) := by
    intro job hne
    rw [heq]
    exact AList.lookup_insert_ne fun h ↦ hne (Identifier.ext (Int.ofNat.inj h))
  refine ⟨hw.versions, hw.ordered, fun job row hrow' ↦ ?_, fun job h ↦ ?_⟩
  · by_cases hjob : job = unit.receipt.job
    · rw [heq, hjob] at hrow'
      obtain rfl := Option.some.inj ((AList.lookup_insert _).symm.trans hrow')
      rw [hjob]
      show (0 : ℤ) = (w.log unit.receipt.job).length
      rw [hfresh]
      rfl
    · exact hw.row job row ((hlookup job hjob).symm.trans hrow')
  · by_cases hjob : job = unit.receipt.job
    · rw [hjob]
      exact hself
    · refine hremember _ (hw.receipted job (h.imp (fun h ↦ h) fun h ↦ ?_))
      rwa [← hlookup job hjob]

/-- **Step lemma**: whatever anybody does, the versions stay in line. -/
theorem Linear.perform (hw : w.Linear) (a : Action) : (w.perform a).2.Linear := by
  have hkeep : ∀ id row, w.store.jobs.lookup id = some row →
      ∃ row', w.store.jobs.lookup id = some row' ∧ row'.version = row.version :=
    fun id row h ↦ ⟨row, h, rfl⟩
  have hmove := w.moves_perform a
  generalize (w.perform a).2 = w' at hmove
  cases hmove with
  | reserved h =>
    obtain ⟨-, -, heq⟩ := reserveId_eq_ok h
    rw [heq]
    exact hw.of_same rfl hkeep fun _ h ↦ h
  | added h => exact hw.add h _
  | @removed key _ _ h =>
    obtain ⟨saved, row, hsaved, -, hrow, heq⟩ := remove_eq_ok h
    rw [heq]
    refine hw.of_same rfl (fun id row' hrow' ↦ ?_) fun id ↦
      Receipted.of_remembered fun key' row' hk ↦ ?_
    · have hne : id ≠ saved.jobId := by
        rintro rfl
        dsimp only at hrow'
        rw [AList.lookup_erase] at hrow'
        cases hrow'
      exact ⟨row', (AList.lookup_erase_ne hne).symm.trans hrow', rfl⟩
    · by_cases hkey : key' = key
      · rw [hkey] at hk ⊢
        obtain rfl := Option.some.inj (hsaved.symm.trans hk)
        exact ⟨_, AList.lookup_insert _, rfl⟩
      · exact ⟨row', (AList.lookup_insert_ne hkey).trans hk, rfl⟩
  | hardened h =>
    obtain ⟨row, now, total, maximum, existing, fresh, hh⟩ := durable_eq_ok h
    rw [hh.eq]
    exact hw.of_same rfl hkeep fun _ h ↦ h
  | intended h =>
    obtain ⟨now, maximum, -, -, -, -, heq⟩ := intendPublish_eq_ok h
    rw [heq]
    exact hw.of_same rfl hkeep fun _ h ↦ h
  | committed h => exact hw.commit h
  | _ => exact hw.of_same rfl hkeep fun _ h ↦ h

theorem linear_run (limits : Limits) (actions : List Action) :
    ((init limits).run actions).Linear := by
  refine History.after_induction (fun _ a h ↦ h.perform a) ?_ actions
  refine ⟨fun _ ↦ rfl, List.Pairwise.nil, fun _ _ h ↦ ?_, fun _ h ↦ ?_⟩
  · cases h
  · rcases h with h | h <;> exact absurd rfl h

/-- A commit that starts from anything but the newest version, state and generation is refused, and
the world stays as it was. -/
theorem commit_refused {event : JobEvent} (h : ¬Fits w.store event) :
    ∃ e, w.perform (.commitTransition event) = (.error e, w) := by
  show ∃ e, w.settle (transition w.store event) _ = (.error e, w)
  rcases hs : transition w.store event with e | s
  · exact ⟨_, rfl⟩
  · obtain ⟨row, now, p, ds, st, ht⟩ := transition_eq_ok hs
    exact absurd ⟨row, now, ht.lookup, ht.current, ht.version, ht.fromState, ht.generation⟩ h

end World

/-! ### Applying -/

namespace Job

variable {j : Job} {event : JobEvent}

/-- An event that does not continue this version is stale. -/
theorem apply_stale (h : event.version ≠ j.version + 1) : j.apply event = (.error .staleEvent, j) := by
  refine if_pos (Or.inr (Or.inr (Or.inr fun hadd ↦ h ?_)))
  exact (checkedAdd_eq_some.1 hadd).2

theorem apply_eq_of_error {e : DomainError} (h : (j.apply event).1 = .error e) :
    (j.apply event).2 = j := by
  rcases j.apply_cases event with ⟨e', he⟩ | ⟨next, -, -, -, -, -, -, -, hok⟩
  · rw [he]
  · rw [hok] at h
    cases h

/-- What an accepted event did. -/
theorem apply_eq_ok (h : (j.apply event).1 = .ok ()) : event.version = j.version + 1 ∧
    ∃ next, execute j event.command = .ok (true, next) ∧ next.projection = event.outcome ∧
      (j.apply event).2 = { next with version := event.version } := by
  rcases j.apply_cases event with ⟨e, he⟩ | ⟨next, -, -, -, hversion, hexec, -, hout, hok⟩
  · rw [he] at h
    cases h
  · exact ⟨(checkedAdd_eq_some.1 hversion).2, next, hexec, hout, by rw [hok]⟩

/-- **Decide then apply**: with nothing in between, the event is accepted. -/
theorem apply_of_decide {command : JobCommand} {events : List JobEvent}
    (h : j.decide command = .ok events) (he : event ∈ events) : (j.apply event).1 = .ok () := by
  obtain ⟨next, hexec, hle, rfl⟩ := decide_eq_ok h he
  have hadd : checkedAdd j.version 1 = some (j.version + 1) := checkedAdd_eq_some.2 ⟨hle, rfl⟩
  simp [apply, hadd, hexec]

theorem version_le_apply (j : Job) (event : JobEvent) : j.version ≤ (j.apply event).2.version := by
  rcases j.apply_cases event with ⟨e, he⟩ | ⟨next, -, -, -, hversion, -, -, -, hok⟩
  · rw [he]
  · rw [hok, (checkedAdd_eq_some.1 hversion).2]
    exact Nat.le_succ _

theorem version_le_applyAll (j : Job) (events : List JobEvent) :
    j.version ≤ (j.applyAll events).2.version := by
  induction events generalizing j with
  | nil => exact le_rfl
  | cons event events ih =>
    have happly := j.version_le_apply event
    unfold applyAll
    split
    next h =>
      rw [h] at happly
      exact happly
    next j' h =>
      rw [h] at happly
      exact happly.trans (ih j')

theorem version_le_perform (j : Job) (op : Op) : j.version ≤ (j.perform op).version := by
  rcases h : op.onSegments with - | mapOp
  · cases op with
    | handle command =>
      show j.version ≤ (j.handle command).2.version
      unfold Job.handle
      split
      · exact le_rfl
      next events _ =>
        have happly := j.version_le_applyAll events
        split <;> next h => rw [h] at happly; exact happly
    | apply event => exact j.version_le_apply event
    | _ => cases h
  · rcases j.perform_segments h with ⟨e, -, he⟩ | ⟨m, -, -, -, he⟩ <;> rw [he]

/-- Versions never fall, whatever is called. -/
theorem version_le_run (j : Job) (ops : List Op) : j.version ≤ (j.run ops).version := by
  induction ops generalizing j with
  | nil => exact le_rfl
  | cons op ops ih => exact (j.version_le_perform op).trans (ih _)

end Job

/-- **Decide, commit, apply is a linear history.** After any sequence of steps of any owners, the
committed events of a job carry the versions one, two, three and so on, the row is at the last of
them, and a commit that starts from anything else is refused and changes nothing. A copy accepts an
event only if replaying its command yields the projection it carries, and then has that projection and
version; an event that is applied again, at any later time, or out of order is stale; a refused event
leaves the copy as it was; and an event just decided is accepted. -/
theorem World.linear_history (limits : Limits) (actions : List Action) :
    let w := (World.init limits).run actions
    (∀ job, (w.log job).map (·.version) = List.range' 1 (w.log job).length) ∧
    w.committed.Pairwise (fun e e' ↦ e.job = e'.job → e.version < e'.version) ∧
    (∀ (job : JobId) row, w.store.jobs.lookup (job.get : ℤ) = some row →
      row.version = (w.log job).length) ∧
    (∀ event, ¬World.Fits w.store event →
      ∃ e, w.perform (.commitTransition event) = (.error e, w)) ∧
    ∀ (j : Job) (event : JobEvent),
      ((j.apply event).1 = .ok () → ∃ next, j.execute event.command = .ok (true, next) ∧
        next.projection = event.outcome ∧ (j.apply event).2.projection = event.outcome ∧
        (j.apply event).2.version = event.version ∧
        ∀ ops, ((j.apply event).2.run ops).apply event =
          (.error .staleEvent, (j.apply event).2.run ops)) ∧
      (event.version ≠ j.version + 1 → j.apply event = (.error .staleEvent, j)) ∧
      (∀ e, (j.apply event).1 = .error e → (j.apply event).2 = j) ∧
      ∀ command events, j.decide command = .ok events → event ∈ events →
        (j.apply event).1 = .ok () := by
  intro w
  have hw := World.linear_run limits actions
  refine ⟨hw.versions, hw.ordered, hw.row, fun event ↦ World.commit_refused, fun j event ↦
    ⟨fun hok ↦ ?_, Job.apply_stale, fun e ↦ Job.apply_eq_of_error, fun command events ↦
      Job.apply_of_decide⟩⟩
  obtain ⟨hversion, next, hexec, hout, heq⟩ := Job.apply_eq_ok hok
  refine ⟨next, hexec, hout, by rw [heq]; exact hout, by rw [heq], fun ops ↦ Job.apply_stale ?_⟩
  have hle := (j.apply event).2.version_le_run ops
  have hself : (j.apply event).2.version = event.version := by rw [heq]
  omega

end Fhd
