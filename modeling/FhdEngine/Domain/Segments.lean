import FhdEngine.Domain.Basic
import Mathlib.Algebra.BigOperators.Group.List.Basic
import Mathlib.Data.List.Nodup

/-!
# The segment map

`crates/domain/src/segments.rs`: the partition of a job's bytes into segments, the leases handed to
workers, and the checkpoint that turns written bytes into durable ones.

The source mutates `&mut self` and returns a `Result`. Each operation here takes the map and returns
the result **together with** the map as it stands afterwards, also on an error, so that "a refused
operation changes nothing" is a statement about the code and not about the encoding. `discardCheckpoint`
cannot fail and returns only the map.
-/

namespace Fhd

structure SegmentId where
  get : ℕ
deriving DecidableEq, Repr

inductive SegmentState
  | pending
  | inFlight (worker attempt : ℕ)
  | written (attempt : ℕ)
  | durable
deriving DecidableEq, Repr

namespace SegmentState

/-- `matches!(state, SegmentState::Written { .. })`. -/
def isWritten : SegmentState → Bool
  | written _ => true
  | _ => false

/-- `matches!(state, SegmentState::InFlight { .. })`. -/
def isInFlight : SegmentState → Bool
  | inFlight _ _ => true
  | _ => false

/-- The attempt an in-flight or written segment belongs to. -/
def attempt : SegmentState → Option ℕ
  | inFlight _ a => some a
  | written a => some a
  | _ => none

@[simp] theorem isWritten_pending : isWritten .pending = false := rfl
@[simp] theorem isWritten_inFlight (w a : ℕ) : isWritten (.inFlight w a) = false := rfl
@[simp] theorem isWritten_written (a : ℕ) : isWritten (.written a) = true := rfl
@[simp] theorem isWritten_durable : isWritten .durable = false := rfl
@[simp] theorem isInFlight_pending : isInFlight .pending = false := rfl
@[simp] theorem isInFlight_inFlight (w a : ℕ) : isInFlight (.inFlight w a) = true := rfl
@[simp] theorem isInFlight_written (a : ℕ) : isInFlight (.written a) = false := rfl
@[simp] theorem isInFlight_durable : isInFlight .durable = false := rfl
@[simp] theorem attempt_pending : attempt .pending = none := rfl
@[simp] theorem attempt_inFlight (w a : ℕ) : attempt (.inFlight w a) = some a := rfl
@[simp] theorem attempt_written (a : ℕ) : attempt (.written a) = some a := rfl
@[simp] theorem attempt_durable : attempt .durable = none := rfl

theorem isWritten_iff {s : SegmentState} : s.isWritten = true ↔ ∃ a, s = written a := by
  cases s <;> simp

end SegmentState

structure Segment where
  id : SegmentId
  range : ByteRange
  state : SegmentState
deriving DecidableEq, Repr

/-- What a checkpoint records of a segment: its identifier, range and attempt. -/
def Segment.selection (s : Segment) : SegmentId × ByteRange × ℕ :=
  (s.id, s.range, match s.state with | .written attempt => attempt | _ => 0)

/-- `segment.state = SegmentState::Durable`. -/
def Segment.setDurable (s : Segment) : Segment := { s with state := .durable }

structure Lease where
  job : JobId
  generation : Generation
  id : SegmentId
  attempt : ℕ
  worker : ℕ
  range : ByteRange
deriving DecidableEq, Repr

/-- One selected segment of a checkpoint: its identifier, range and attempt. -/
abbrev Selected := SegmentId × ByteRange × ℕ

structure Checkpoint where
  sequence : ℕ
  ids : List SegmentId
  selection : List Selected
  synced : Bool
deriving DecidableEq, Repr

/-- An issued request for a physical sync, not evidence that IO occurred. -/
structure SyncTicket where
  job : JobId
  generation : Generation
  sequence : ℕ
  ranges : List ByteRange
  selection : List Selected
deriving DecidableEq, Repr

/-- The trusted adapter reports sync success before this commit request is issued. -/
structure CommitBatch where
  job : JobId
  generation : Generation
  sequence : ℕ
  ranges : List ByteRange
  selection : List Selected
deriving DecidableEq, Repr

/-- The batch an accepted ticket is turned into. -/
def SyncTicket.batch (t : SyncTicket) : CommitBatch :=
  ⟨t.job, t.generation, t.sequence, t.ranges, t.selection⟩

structure SegmentMap where
  job : JobId
  generation : Generation
  total : ℕ
  maximum : ℕ
  segments : List Segment
  nextId : ℕ
  nextAttempt : ℕ
  nextCheckpoint : ℕ
  checkpoint : Option Checkpoint
deriving DecidableEq, Repr

/-- The bound on a plan's number of segments. -/
def maxSegments : ℕ := 262144

/-- `Iterator::max_by_key`: among several maximal elements the last one. -/
def maxByKey {α : Type*} (key : α → ℕ) : List α → Option α
  | [] => none
  | x :: l => some (l.foldl (fun best y ↦ if key best ≤ key y then y else best) x)

theorem mem_of_maxByKey {α : Type*} {key : α → ℕ} {l : List α} {x : α}
    (h : maxByKey key l = some x) : x ∈ l := by
  cases l with
  | nil => cases h
  | cons y l =>
    cases h
    induction l generalizing y with
    | nil => simp
    | cons z l ih =>
      rw [List.foldl_cons]
      split
      · exact List.mem_cons_of_mem _ (ih z)
      · rcases List.mem_cons.1 (ih y) with h | h
        · rw [h]; exact List.mem_cons_self
        · exact List.mem_cons_of_mem _ (List.mem_cons_of_mem _ h)

namespace SegmentMap

def hasPendingCheckpoint (m : SegmentMap) : Bool := m.checkpoint.isSome

def hasUnsynced (m : SegmentMap) : Bool := m.segments.any (·.state.isWritten)

def durableBytes (m : SegmentMap) : ℕ :=
  ((m.segments.filter (·.state = .durable)).map (·.range.len)).sum

def allDurable (m : SegmentMap) : Bool := m.segments.all (·.state = .durable)

/-! ### Construction -/

def new (job : JobId) (generation : Generation) (total maximum : ℕ) :
    Except DomainError SegmentMap :=
  if total > i64Max ∨ ¬(1 ≤ maximum ∧ maximum ≤ maxSegments) then .error .invalidInput
  else if total = 0 then
    .ok ⟨job, generation, total, maximum, [], 2, 1, 1, none⟩
  else
    match ByteRange.new 0 total with
    | .error e => .error e
    | .ok range =>
      .ok ⟨job, generation, total, maximum, [⟨⟨1⟩, range, .pending⟩], 2, 1, 1, none⟩

/-- The merging loop of `restore`. The first list holds the ranges pushed so far, the last first. -/
def mergeDurable (total : ℕ) : List ByteRange → List ByteRange → Except DomainError (List ByteRange)
  | merged, [] => .ok merged.reverse
  | [], range :: durable =>
    if range.stop > total then .error .invalidInput else mergeDurable total [range] durable
  | last :: merged, range :: durable =>
    if range.stop > total then .error .invalidInput
    else if range.start < last.stop then .error .invalidInput
    else if range.start = last.stop then
      match ByteRange.new last.start range.stop with
      | .error e => .error e
      | .ok joined => mergeDurable total (joined :: merged) durable
    else mergeDurable total (range :: last :: merged) durable

/-- `restore`'s closure `push`: the next segment is numbered by the length so far. -/
def push (segments : List Segment) (range : ByteRange) (state : SegmentState) : List Segment :=
  segments ++ [⟨⟨segments.length + 1⟩, range, state⟩]

/-- The building loop of `restore`: durable pieces with the gaps between them pending. -/
def buildSegments (total : ℕ) :
    List Segment → ℕ → List ByteRange → Except DomainError (List Segment)
  | segments, cursor, [] =>
    if cursor < total then
      match ByteRange.new cursor total with
      | .error e => .error e
      | .ok tail => .ok (push segments tail .pending)
    else .ok segments
  | segments, cursor, range :: merged =>
    if range.start > cursor then
      match ByteRange.new cursor range.start with
      | .error e => .error e
      | .ok gap =>
        buildSegments total (push (push segments gap .pending) range .durable) range.stop merged
    else buildSegments total (push segments range .durable) range.stop merged

/-- Rebuilds a map from persisted durable ranges (ascending, non-overlapping; touching ranges
merge). Gaps become pending: nothing uncommitted survives a restart. -/
def restore (job : JobId) (generation : Generation) (total maximum : ℕ) (durable : List ByteRange) :
    Except DomainError SegmentMap :=
  match new job generation total maximum with
  | .error e => .error e
  | .ok map =>
    match mergeDurable total [] durable with
    | .error e => .error e
    | .ok merged =>
      match buildSegments total [] 0 merged with
      | .error e => .error e
      | .ok segments =>
        if segments.length > maximum then .error .capacity
        else .ok { map with nextId := segments.length + 1, segments := segments }

/-! ### Operations -/

def index (m : SegmentMap) (id : SegmentId) : Except DomainError (Fin m.segments.length) :=
  match m.segments.findFinIdx? (·.id = id) with
  | none => .error .unknownSegment
  | some i => .ok i

/-- `self.segments[index].state = state`. -/
def setState (m : SegmentMap) (i : Fin m.segments.length) (state : SegmentState) : SegmentMap :=
  { m with segments := m.segments.set i { m.segments[i] with state := state } }

def splitPending (m : SegmentMap) (id : SegmentId) (at' : ℕ) :
    Except DomainError SegmentId × SegmentMap :=
  match m.index id with
  | .error e => (.error e, m)
  | .ok i =>
    if m.segments[i].state ≠ .pending then (.error .invalidTransition, m)
    else if m.segments.length = m.maximum then (.error .capacity, m)
    else
      match m.segments[i].range.split at' with
      | .error e => (.error e, m)
      | .ok (left, right) =>
        match checkedAdd m.nextId 1 with
        | none => (.error .overflow, m)
        | some next =>
          let rightId : SegmentId := ⟨m.nextId⟩
          (.ok rightId,
            { m with
              segments := (m.segments.set i { m.segments[i] with range := left }).insertIdx (i + 1)
                ⟨rightId, right, .pending⟩
              nextId := next })

/-- Only pending work can be stolen: the largest pending piece of at least twice the minimum is
halved. -/
def stealLargestPending (m : SegmentMap) (minimum : ℕ) :
    Except DomainError (Option SegmentId) × SegmentMap :=
  if minimum = 0 then (.error .invalidInput, m)
  else
    match checkedMul minimum 2 with
    | none => (.error .overflow, m)
    | some threshold =>
      match maxByKey (·.range.len)
        (m.segments.filter fun s ↦ s.state = .pending ∧ s.range.len ≥ threshold) with
      | none => (.ok none, m)
      | some s =>
        match m.splitPending s.id (s.range.start + s.range.len / 2) with
        | (.error e, m') => (.error e, m')
        | (.ok id, m') => (.ok (some id), m')

def lease (m : SegmentMap) (id : SegmentId) (worker : ℕ) : Except DomainError Lease × SegmentMap :=
  if worker = 0 then (.error .invalidInput, m)
  else
    match m.index id with
    | .error e => (.error e, m)
    | .ok i =>
      if m.segments[i].state ≠ .pending then (.error .invalidTransition, m)
      else
        match checkedAdd m.nextAttempt 1 with
        | none => (.error .overflow, m)
        | some next =>
          (.ok ⟨m.job, m.generation, id, m.nextAttempt, worker, m.segments[i].range⟩,
            { m.setState i (.inFlight worker m.nextAttempt) with nextAttempt := next })

def leaseIndex (m : SegmentMap) (lease : Lease) : Except DomainError (Fin m.segments.length) :=
  if lease.job ≠ m.job ∨ lease.generation ≠ m.generation then .error .staleToken
  else
    match m.index lease.id with
    | .error _ => .error .staleToken
    | .ok i =>
      if m.segments[i].range ≠ lease.range ∨
          m.segments[i].state ≠ .inFlight lease.worker lease.attempt then .error .staleToken
      else .ok i

def markWritten (m : SegmentMap) (lease : Lease) : Except DomainError Unit × SegmentMap :=
  match m.leaseIndex lease with
  | .error e => (.error e, m)
  | .ok i => (.ok (), m.setState i (.written lease.attempt))

def release (m : SegmentMap) (lease : Lease) : Except DomainError Unit × SegmentMap :=
  match m.leaseIndex lease with
  | .error e => (.error e, m)
  | .ok i => (.ok (), m.setState i .pending)

/-- The segments a checkpoint selects. -/
def selected (m : SegmentMap) : List Segment := m.segments.filter (·.state.isWritten)

def prepareSync (m : SegmentMap) : Except DomainError SyncTicket × SegmentMap :=
  if m.checkpoint.isSome then (.error .checkpointPending, m)
  else if m.selected.isEmpty then (.error .incomplete, m)
  else
    let selection := m.selected.map Segment.selection
    let sequence := m.nextCheckpoint
    match checkedAdd m.nextCheckpoint 1 with
    | none => (.error .overflow, m)
    | some next =>
      (.ok ⟨m.job, m.generation, sequence, m.selected.map (·.range), selection⟩,
        { m with
          nextCheckpoint := next
          checkpoint := some ⟨sequence, m.selected.map (·.id), selection, false⟩ })

def acknowledgeSync (m : SegmentMap) (ticket : SyncTicket) :
    Except DomainError CommitBatch × SegmentMap :=
  match m.checkpoint with
  | none => (.error .staleToken, m)
  | some checkpoint =>
    if ticket.job ≠ m.job ∨ ticket.generation ≠ m.generation ∨
        checkpoint.sequence ≠ ticket.sequence ∨ checkpoint.selection ≠ ticket.selection ∨
        checkpoint.synced then (.error .staleToken, m)
    else
      (.ok ticket.batch,
        { m with checkpoint := some { checkpoint with synced := true } })

/-- Check all entries before changing any, so rejection is atomic. -/
def acknowledgeCommit (m : SegmentMap) (batch : CommitBatch) :
    Except DomainError Unit × SegmentMap :=
  match m.checkpoint with
  | none => (.error .staleToken, m)
  | some checkpoint =>
    if batch.job ≠ m.job ∨ batch.generation ≠ m.generation ∨
        checkpoint.sequence ≠ batch.sequence ∨ checkpoint.selection ≠ batch.selection ∨
        ¬checkpoint.synced then (.error .staleToken, m)
    else
      match checkpoint.ids.mapM m.index with
      | .error e => (.error e, m)
      | .ok indices =>
        if indices.any fun i ↦ !m.segments[i].state.isWritten then (.error .invalidTransition, m)
        else
          (.ok (),
            { m with
              segments := (indices.map Fin.val).foldl
                (fun segments i ↦ segments.modify i Segment.setDurable) m.segments
              checkpoint := none })

/-- A failed or ambiguous adapter transaction must be reconciled from storage before continuing. -/
def discardCheckpoint (m : SegmentMap) : SegmentMap := { m with checkpoint := none }

/-- Gives up written-but-uncommitted bytes so they are fetched again; never while a checkpoint is
pending. -/
def discardUnsynced (m : SegmentMap) : Except DomainError Unit × SegmentMap :=
  if m.checkpoint.isSome then (.error .checkpointPending, m)
  else
    (.ok (),
      { m with
        segments := m.segments.map fun s ↦
          if s.state.isWritten then { s with state := .pending } else s })

def replaceGeneration (m : SegmentMap) (total : ℕ) : Except DomainError Unit × SegmentMap :=
  if m.checkpoint.isSome ∨ m.segments.any (·.state.isInFlight) then (.error .invalidTransition, m)
  else
    match m.generation.next with
    | .error e => (.error e, m)
    | .ok next =>
      match new m.job next total m.maximum with
      | .error e => (.error e, m)
      | .ok m' => (.ok (), m')

/-! ### What each operation can do

One lemma for each operation, saying everything it can do: either it refuses and leaves the map as it
was, or its guards held and the new map is the one written out. The segment an operation acts on is
given by a decomposition of the list, so that no later proof mentions an index. -/

variable {m : SegmentMap}

theorem index_eq_ok {id : SegmentId} {i : Fin m.segments.length} (h : m.index id = .ok i) :
    m.segments[i].id = id ∧ ∃ pre post, m.segments = pre ++ m.segments[i] :: post ∧ pre.length = i := by
  unfold index at h
  split at h
  · cases h
  next j hj =>
    cases h
    refine ⟨by simpa using (List.findFinIdx?_eq_some_iff.1 hj).1,
      m.segments.take i, m.segments.drop (i + 1), ?_, by simp⟩
    rw [Fin.getElem_fin, List.cons_getElem_drop_succ, List.take_append_drop]

/-- Writing one entry, with the list decomposed at it. -/
theorem set_eq_append {α : Type*} {l pre post : List α} {s s' : α} {i : ℕ}
    (h : l = pre ++ s :: post) (hi : pre.length = i) : l.set i s' = pre ++ s' :: post := by
  rw [h, List.set_append_right _ _ (by omega), hi, Nat.sub_self, List.set_cons_zero]

/-- Inserting behind one entry, with the list decomposed at it. -/
theorem insertIdx_eq_append {α : Type*} {l pre post : List α} {s x : α} {i : ℕ}
    (h : l = pre ++ s :: post) (hi : pre.length = i) :
    l.insertIdx (i + 1) x = pre ++ s :: x :: post := by
  subst h hi
  induction pre with
  | nil => rfl
  | cons y pre ih => rw [List.cons_append, List.length_cons, List.insertIdx_succ_cons, ih]; rfl

theorem splitPending_cases (m : SegmentMap) (id : SegmentId) (at' : ℕ) :
    (∃ e, m.splitPending id at' = (.error e, m)) ∨
      ∃ pre s post left right, m.segments = pre ++ s :: post ∧ s.id = id ∧ s.state = .pending ∧
        m.segments.length ≠ m.maximum ∧ s.range.split at' = .ok (left, right) ∧
        m.splitPending id at' = (.ok ⟨m.nextId⟩,
          { m with
            segments := pre ++ { s with range := left } :: ⟨⟨m.nextId⟩, right, .pending⟩ :: post
            nextId := m.nextId + 1 }) := by
  unfold splitPending
  split
  · exact Or.inl ⟨_, rfl⟩
  next i hi =>
    obtain ⟨hid, pre, post, hseg, hlen⟩ := index_eq_ok hi
    split
    · exact Or.inl ⟨_, rfl⟩
    next hpend =>
      split
      · exact Or.inl ⟨_, rfl⟩
      next hmax =>
        split
        · exact Or.inl ⟨_, rfl⟩
        next left right hsplit =>
          split
          · exact Or.inl ⟨_, rfl⟩
          next next hnext =>
            obtain ⟨-, rfl⟩ := checkedAdd_eq_some.1 hnext
            refine Or.inr ⟨pre, m.segments[i], post, left, right, hseg, hid, not_not.1 hpend, hmax,
              hsplit, ?_⟩
            dsimp only
            rw [insertIdx_eq_append (set_eq_append hseg hlen) hlen]

theorem stealLargestPending_cases (m : SegmentMap) (minimum : ℕ) :
    (∃ e, m.stealLargestPending minimum = (.error e, m)) ∨
      m.stealLargestPending minimum = (.ok none, m) ∨
      ∃ id at' new m', m.splitPending id at' = (.ok new, m') ∧
        m.stealLargestPending minimum = (.ok (some new), m') := by
  unfold stealLargestPending
  split
  · exact Or.inl ⟨_, rfl⟩
  split
  · exact Or.inl ⟨_, rfl⟩
  split
  · exact Or.inr (Or.inl rfl)
  next s _ =>
    rcases m.splitPending_cases s.id (s.range.start + s.range.len / 2) with ⟨e, he⟩ |
      ⟨pre, s', post, left, right, -, -, -, -, -, h⟩
    · rw [he]
      exact Or.inl ⟨_, rfl⟩
    · rw [h]
      exact Or.inr (Or.inr ⟨_, _, _, _, h, rfl⟩)

theorem setState_eq {i : Fin m.segments.length} {state : SegmentState} {pre post : List Segment}
    (h : m.segments = pre ++ m.segments[i] :: post) (hi : pre.length = i) :
    m.setState i state =
      { m with segments := pre ++ { m.segments[i] with state := state } :: post } := by
  rw [setState, set_eq_append h hi]

theorem lease_cases (m : SegmentMap) (id : SegmentId) (worker : ℕ) :
    (∃ e, m.lease id worker = (.error e, m)) ∨
      ∃ pre s post, m.segments = pre ++ s :: post ∧ s.id = id ∧ s.state = .pending ∧
        m.lease id worker = (.ok ⟨m.job, m.generation, id, m.nextAttempt, worker, s.range⟩,
          { m with
            segments := pre ++ { s with state := .inFlight worker m.nextAttempt } :: post
            nextAttempt := m.nextAttempt + 1 }) := by
  unfold lease
  split
  · exact Or.inl ⟨_, rfl⟩
  split
  · exact Or.inl ⟨_, rfl⟩
  next i hi =>
    obtain ⟨hid, pre, post, hseg, hlen⟩ := index_eq_ok hi
    split
    · exact Or.inl ⟨_, rfl⟩
    next hpend =>
      split
      · exact Or.inl ⟨_, rfl⟩
      next next hnext =>
        obtain ⟨-, rfl⟩ := checkedAdd_eq_some.1 hnext
        refine Or.inr ⟨pre, m.segments[i], post, hseg, hid, not_not.1 hpend, ?_⟩
        rw [setState_eq hseg hlen]

/-- A segment is held by a lease: same identifier, range, worker and attempt. -/
def Holds (s : Segment) (lease : Lease) : Prop :=
  s.id = lease.id ∧ s.range = lease.range ∧ s.state = .inFlight lease.worker lease.attempt

theorem leaseIndex_cases (m : SegmentMap) (lease : Lease) :
    m.leaseIndex lease = .error .staleToken ∨
      ∃ i pre post, m.leaseIndex lease = .ok i ∧ m.segments = pre ++ m.segments[i] :: post ∧
        pre.length = i ∧ Holds m.segments[i] lease ∧ lease.job = m.job ∧
        lease.generation = m.generation := by
  unfold leaseIndex
  split
  · exact Or.inl rfl
  next htok =>
    rw [not_or, not_not, not_not] at htok
    split
    · exact Or.inl rfl
    next i hi =>
      obtain ⟨hid, pre, post, hseg, hlen⟩ := index_eq_ok hi
      split
      · exact Or.inl rfl
      next hheld =>
        rw [not_or, not_not, not_not] at hheld
        exact Or.inr ⟨i, pre, post, rfl, hseg, hlen, ⟨hid, hheld.1, hheld.2⟩, htok.1, htok.2⟩

theorem markWritten_cases (m : SegmentMap) (lease : Lease) :
    m.markWritten lease = (.error .staleToken, m) ∨
      ∃ pre s post, m.segments = pre ++ s :: post ∧ Holds s lease ∧ lease.job = m.job ∧
        lease.generation = m.generation ∧
        m.markWritten lease = (.ok (),
          { m with segments := pre ++ { s with state := .written lease.attempt } :: post }) := by
  unfold markWritten
  rcases m.leaseIndex_cases lease with h | ⟨i, pre, post, h, hseg, hlen, hheld, hjob, hgen⟩
  · rw [h]
    exact Or.inl rfl
  · rw [h]
    refine Or.inr ⟨pre, _, post, hseg, hheld, hjob, hgen, ?_⟩
    rw [← setState_eq hseg hlen]

theorem release_cases (m : SegmentMap) (lease : Lease) :
    m.release lease = (.error .staleToken, m) ∨
      ∃ pre s post, m.segments = pre ++ s :: post ∧ Holds s lease ∧ lease.job = m.job ∧
        lease.generation = m.generation ∧
        m.release lease = (.ok (),
          { m with segments := pre ++ { s with state := .pending } :: post }) := by
  unfold release
  rcases m.leaseIndex_cases lease with h | ⟨i, pre, post, h, hseg, hlen, hheld, hjob, hgen⟩
  · rw [h]
    exact Or.inl rfl
  · rw [h]
    refine Or.inr ⟨pre, _, post, hseg, hheld, hjob, hgen, ?_⟩
    rw [← setState_eq hseg hlen]

/-- The ticket a checkpoint prepared now would issue. -/
def ticket (m : SegmentMap) : SyncTicket :=
  ⟨m.job, m.generation, m.nextCheckpoint, m.selected.map (·.range), m.selected.map Segment.selection⟩

theorem prepareSync_cases (m : SegmentMap) :
    (∃ e, m.prepareSync = (.error e, m)) ∨
      m.checkpoint = none ∧ m.selected ≠ [] ∧
        m.prepareSync = (.ok m.ticket,
          { m with
            nextCheckpoint := m.nextCheckpoint + 1
            checkpoint := some ⟨m.nextCheckpoint, m.selected.map (·.id),
              m.selected.map Segment.selection, false⟩ }) := by
  unfold prepareSync
  split
  · exact Or.inl ⟨_, rfl⟩
  next hnone =>
    split
    · exact Or.inl ⟨_, rfl⟩
    next hsel =>
      dsimp only
      split
      · exact Or.inl ⟨_, rfl⟩
      next next hnext =>
        obtain ⟨-, rfl⟩ := checkedAdd_eq_some.1 hnext
        exact Or.inr ⟨by simpa using hnone, by simpa using hsel, rfl⟩

theorem acknowledgeSync_cases (m : SegmentMap) (ticket : SyncTicket) :
    m.acknowledgeSync ticket = (.error .staleToken, m) ∨
      ∃ c, m.checkpoint = some c ∧ ticket.job = m.job ∧ ticket.generation = m.generation ∧
        c.sequence = ticket.sequence ∧ c.selection = ticket.selection ∧ c.synced = false ∧
        m.acknowledgeSync ticket =
          (.ok ticket.batch, { m with checkpoint := some { c with synced := true } }) := by
  unfold acknowledgeSync
  split
  · exact Or.inl rfl
  next c hc =>
    split
    · exact Or.inl rfl
    next h =>
      simp only [not_or, not_not, Bool.not_eq_true] at h
      exact Or.inr ⟨c, hc, h.1, h.2.1, h.2.2.1, h.2.2.2.1, h.2.2.2.2, rfl⟩

/-- The effect of a commit on one segment: selected ones become durable. -/
def commitOne (ids : List SegmentId) (s : Segment) : Segment :=
  if s.id ∈ ids then s.setDurable else s

theorem mem_of_mapM {ε α β : Type*} {f : α → Except ε β} {l : List α} {l' : List β}
    (h : l.mapM f = .ok l') :
    (∀ b ∈ l', ∃ a ∈ l, f a = .ok b) ∧ ∀ a ∈ l, ∃ b ∈ l', f a = .ok b := by
  induction l generalizing l' with
  | nil =>
    obtain rfl : [] = l' := by simpa [pure, Except.pure] using h
    exact ⟨fun b hb ↦ absurd hb List.not_mem_nil, fun a ha ↦ absurd ha List.not_mem_nil⟩
  | cons a l ih =>
    rw [List.mapM_cons] at h
    rcases hb : f a with e | b
    · rw [hb] at h
      cases h
    rcases hl : l.mapM f with e | t
    · rw [hb, hl] at h
      cases h
    rw [hb, hl] at h
    obtain rfl : b :: t = l' := by simpa [bind, Except.bind, pure, Except.pure] using h
    obtain ⟨h₁, h₂⟩ := ih hl
    refine ⟨fun c hc ↦ ?_, fun c hc ↦ ?_⟩
    · rcases List.mem_cons.1 hc with rfl | hc'
      · exact ⟨a, List.mem_cons_self, hb⟩
      · obtain ⟨x, hx, hfx⟩ := h₁ c hc'
        exact ⟨x, List.mem_cons_of_mem _ hx, hfx⟩
    · rcases List.mem_cons.1 hc with rfl | hc'
      · exact ⟨b, List.mem_cons_self, hb⟩
      · obtain ⟨x, hx, hfx⟩ := h₂ c hc'
        exact ⟨x, List.mem_cons_of_mem _ hx, hfx⟩

/-- Modifying a list at several places by an idempotent function. -/
theorem getElem?_foldl_modify {α : Type*} {f : α → α} (hf : ∀ x, f (f x) = f x) (is : List ℕ)
    (l : List α) (j : ℕ) :
    (is.foldl (fun l i ↦ l.modify i f) l)[j]? = if j ∈ is then l[j]?.map f else l[j]? := by
  induction is generalizing l with
  | nil => simp
  | cons i is ih =>
    rw [List.foldl_cons, ih, List.getElem?_modify]
    by_cases hij : i = j
    · subst hij
      rcases l[i]? with - | x <;> simp [hf]
    · simp [hij, Ne.symm hij]

/-- Identifiers that are pairwise distinct determine their segment. -/
theorem eq_of_id_eq (hids : (m.segments.map (·.id)).Nodup) {s t : Segment} (hs : s ∈ m.segments)
    (ht : t ∈ m.segments) (h : s.id = t.id) : s = t :=
  List.inj_on_of_nodup_map hids hs ht h

/-- The positions looked up for a list of identifiers are those of the segments that bear one. -/
theorem mem_indices_iff (hids : (m.segments.map (·.id)).Nodup) {ids : List SegmentId}
    {indices : List (Fin m.segments.length)} (h : ids.mapM m.index = .ok indices) {j : ℕ}
    {s : Segment} (hj : m.segments[j]? = some s) : j ∈ indices.map Fin.val ↔ s.id ∈ ids := by
  obtain ⟨hsound, hcomplete⟩ := mem_of_mapM h
  constructor
  · intro hin
    obtain ⟨i, hi, rfl⟩ := List.mem_map.1 hin
    obtain ⟨id, hid, hindex⟩ := hsound i hi
    have hs : m.segments[i] = s := (List.getElem?_eq_some_iff.1 hj).2
    rw [← hs]
    exact (index_eq_ok hindex).1 ▸ hid
  · intro hid
    obtain ⟨i, hi, hindex⟩ := hcomplete _ hid
    have hget : (m.segments.map (·.id))[(i : ℕ)]? = (m.segments.map (·.id))[j]? := by
      rw [List.getElem?_map, List.getElem?_map, hj, List.getElem?_eq_getElem i.2]
      exact congrArg some (index_eq_ok hindex).1
    have hij := (List.getElem?_inj (by simp) hids).1 hget
    exact List.mem_map.2 ⟨i, hi, hij⟩

/-- The commit loop, read as a map over the segments. -/
theorem foldl_setDurable (hids : (m.segments.map (·.id)).Nodup) {ids : List SegmentId}
    {indices : List (Fin m.segments.length)} (h : ids.mapM m.index = .ok indices) :
    (indices.map Fin.val).foldl (fun segments i ↦ segments.modify i Segment.setDurable) m.segments =
      m.segments.map (commitOne ids) := by
  refine List.ext_getElem? fun j ↦ ?_
  rw [getElem?_foldl_modify (f := Segment.setDurable) (fun _ ↦ rfl), List.getElem?_map]
  rcases hj : m.segments[j]? with - | s
  · simp
  by_cases hid : s.id ∈ ids
  · rw [if_pos ((mem_indices_iff hids h hj).2 hid)]
    simp [commitOne, hid]
  · rw [if_neg (mt (mem_indices_iff hids h hj).1 hid)]
    simp [commitOne, hid]

theorem acknowledgeCommit_cases (m : SegmentMap) (batch : CommitBatch) :
    (∃ e, m.acknowledgeCommit batch = (.error e, m)) ∨
      ∃ c m', m.checkpoint = some c ∧ batch.job = m.job ∧ batch.generation = m.generation ∧
        c.sequence = batch.sequence ∧ c.selection = batch.selection ∧ c.synced = true ∧
        m.acknowledgeCommit batch = (.ok (), m') ∧
        ((m.segments.map (·.id)).Nodup →
          m' = { m with segments := m.segments.map (commitOne c.ids), checkpoint := none }) := by
  unfold acknowledgeCommit
  split
  · exact Or.inl ⟨_, rfl⟩
  next c hc =>
    split
    · exact Or.inl ⟨_, rfl⟩
    next h =>
      simp only [not_or, not_not] at h
      split
      · exact Or.inl ⟨_, rfl⟩
      next indices hindices =>
        split
        · exact Or.inl ⟨_, rfl⟩
        · refine Or.inr ⟨c, _, hc, h.1, h.2.1, h.2.2.1, h.2.2.2.1, h.2.2.2.2, rfl, fun hids ↦ ?_⟩
          rw [foldl_setDurable hids hindices]

theorem discardUnsynced_cases (m : SegmentMap) :
    m.discardUnsynced = (.error .checkpointPending, m) ∨
      m.checkpoint = none ∧
        m.discardUnsynced = (.ok (),
          { m with
            segments := m.segments.map fun s ↦
              if s.state.isWritten then { s with state := .pending } else s }) := by
  unfold discardUnsynced
  split
  · exact Or.inl rfl
  next hnone => exact Or.inr ⟨by simpa using hnone, rfl⟩

/-- A fresh map is one pending segment over `[0, total)`, or none when there are no bytes. -/
theorem new_eq_ok {job : JobId} {generation : Generation} {total maximum : ℕ}
    (h : new job generation total maximum = .ok m) :
    total ≤ i64Max ∧ 1 ≤ maximum ∧ maximum ≤ maxSegments ∧
      m = ⟨job, generation, total, maximum, m.segments, 2, 1, 1, none⟩ ∧
      (total = 0 ∧ m.segments = [] ∨
        ∃ range : ByteRange, range.start = 0 ∧ range.stop = total ∧
          m.segments = [⟨⟨1⟩, range, .pending⟩]) := by
  unfold new at h
  split at h
  · cases h
  next hok =>
    rw [not_or, not_not, not_lt] at hok
    split at h
    next hzero =>
      cases h
      exact ⟨hok.1, hok.2.1, hok.2.2, rfl, Or.inl ⟨hzero, rfl⟩⟩
    · split at h
      · cases h
      next range hrange =>
        cases h
        obtain ⟨h₁, h₂⟩ := ByteRange.new_eq_ok.1 hrange
        exact ⟨hok.1, hok.2.1, hok.2.2, rfl, Or.inr ⟨range, h₁, h₂, rfl⟩⟩

theorem replaceGeneration_cases (m : SegmentMap) (total : ℕ) :
    (∃ e, m.replaceGeneration total = (.error e, m)) ∨
      ∃ next m', m.checkpoint = none ∧ (∀ s ∈ m.segments, s.state.isInFlight = false) ∧
        m.generation.next = .ok next ∧ new m.job next total m.maximum = .ok m' ∧
        m.replaceGeneration total = (.ok (), m') := by
  unfold replaceGeneration
  split
  · exact Or.inl ⟨_, rfl⟩
  next hidle =>
    split
    · exact Or.inl ⟨_, rfl⟩
    next next hnext =>
      split
      · exact Or.inl ⟨_, rfl⟩
      next m' hm' =>
        simp only [not_or, List.any_eq_true, not_exists, not_and, Bool.not_eq_true] at hidle
        exact Or.inr ⟨next, m', by simpa using hidle.1, hidle.2, hnext, hm', rfl⟩

end SegmentMap

end Fhd
