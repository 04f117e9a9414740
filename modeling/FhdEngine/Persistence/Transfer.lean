import FhdEngine.Persistence.Tables
import FhdEngine.Persistence.Extents
import FhdEngine.Domain.JobInvariant

/-!
# Transfer-state transactions

The transactions of `crates/adapters/persistence/src/transfer.rs`. A transaction is a function of the
store that yields the new store or an error; an error leaves the store as it was, since SQLite rolls
a transaction back that is dropped uncommitted.

The order of the checks is that of the source, so that an answer tells which check failed first.
-/

namespace Fhd

open Fallible

namespace Persistence

/-- State of a job as a transaction reads it. -/
structure Current where
  state : JobState
  generation : ℤ
  plan : Option (ℤ × ℤ)
  validator : Option Digest

/-- A job the transfer tables do not mention yet is freshly admitted. -/
def current (s : Store) (id : ℤ) : Except PersistenceError Current :=
  match s.states.lookup id with
  | none => .ok ⟨.queued, 1, none, none⟩
  | some row => do
    let state ← stateOf row.state
    pure ⟨state, row.generation, row.total.bind fun t ↦ row.maxSegments.map fun m ↦ (t, m),
      row.validator⟩

def ExtentRow.load (row : ExtentRow) : Except PersistenceError DurableExtent := do
  let start ← loaded row.start
  let stop ← loaded row.endExcl
  let range ← orCorrupt (ByteRange.new start stop)
  pure ⟨range, row.digest⟩

/-- The rows of one job and generation, ordered by their start. -/
def extentRows (rows : List ExtentRow) (id generation : ℤ) : List ExtentRow :=
  (rows.filter fun row ↦ row.job = id ∧ row.generation = generation).insertionSort
    fun a b ↦ a.start ≤ b.start

def extents (rows : List ExtentRow) (id generation : ℤ) :
    Except PersistenceError (List DurableExtent) :=
  (extentRows rows id generation).mapM ExtentRow.load

/-- The row of an extent. -/
def ExtentRow.of (id generation : ℤ) (extent : DurableExtent) : ExtentRow :=
  ⟨id, generation, extent.range.start, extent.range.stop, extent.digest⟩

@[simp] theorem ExtentRow.load_of (id generation : ℤ) (extent : DurableExtent) :
    (ExtentRow.of id generation extent).load = .ok extent := by
  have hrange : ByteRange.new extent.range.start extent.range.stop = .ok extent.range :=
    ByteRange.new_eq_ok.2 ⟨rfl, rfl⟩
  simp [ExtentRow.load, ExtentRow.of, hrange, orCorrupt, bind, Except.bind, pure, Except.pure]

/-- Extents ordered by their start. -/
def sorted (extents : List DurableExtent) : List DurableExtent :=
  extents.insertionSort fun a b ↦ a.range.start ≤ b.range.start

theorem sorted_perm (l : List DurableExtent) : (sorted l).Perm l := List.perm_insertionSort _ l

theorem mapM_load_of (id generation : ℤ) (l : List DurableExtent) :
    (l.map (ExtentRow.of id generation)).mapM ExtentRow.load = .ok l := by
  induction l with
  | nil => rfl
  | cons e l ih =>
    rw [List.map_cons, List.mapM_cons, ExtentRow.load_of, ih]
    rfl

/-- **Reading extents back**, when all rows of the job are of that generation. -/
theorem extents_eq {rows : List ExtentRow} {id generation : ℤ} {l : List DurableExtent}
    (h : rows.filter (·.job = id) = l.map (ExtentRow.of id generation)) :
    extents rows id generation = .ok (sorted l) := by
  have hfilter : rows.filter (fun row ↦ row.job = id ∧ row.generation = generation) =
      l.map (ExtentRow.of id generation) := by
    rw [← h]
    refine List.filter_congr fun row hrow ↦ ?_
    by_cases hid : row.job = id
    · have hmem : row ∈ rows.filter (·.job = id) := List.mem_filter.2 ⟨hrow, decide_eq_true hid⟩
      rw [h] at hmem
      obtain ⟨e, -, rfl⟩ := List.mem_map.1 hmem
      simp [ExtentRow.of]
    · simp [hid]
  have hsort : extentRows rows id generation = (sorted l).map (ExtentRow.of id generation) := by
    have hle : ∀ a ∈ l, ∀ b ∈ l, a.range.start ≤ b.range.start ↔
        (ExtentRow.of id generation a).start ≤ (ExtentRow.of id generation b).start :=
      fun a _ b _ ↦ Int.ofNat_le.symm
    rw [extentRows, hfilter, sorted]
    exact (List.map_insertionSort _ _ (ExtentRow.of id generation) l hle).symm
  rw [extents, hsort, mapM_load_of]

/-- The plan after a transition: kept, set by the first probe of a generation, or dropped with the
generation. -/
def planAfter (replaced : Bool) (command : JobCommand) (plan : Option (ℤ × ℤ)) :
    Except PersistenceError (Option (ℤ × ℤ)) :=
  if replaced then .ok none
  else
    match command, plan with
    | .probeSucceeded total _ _, some plan => do
      let total ← stored total
      require (plan.1 = total) .conflict
      pure (some plan)
    | .probeSucceeded total maxSegments _, none => do
      let total ← stored total
      let maximum ← stored maxSegments
      pure (some (total, maximum))
    | _, plan => .ok plan

/-- The validator follows the plan: set once, compared on a further probe, forgotten with the
generation. -/
def validatorAfter (replaced : Bool) (command : JobCommand) (now : Current) :
    Except PersistenceError (Option Digest) :=
  if replaced then .ok none
  else
    match command with
    | .probeSucceeded _ _ validator =>
      if now.plan.isNone then .ok validator
      else do
        require (¬(validator.isNone ∨ validator ≠ now.validator)) .conflict
        pure now.validator
    | _ => .ok now.validator

/-- The extents that survive a transition: all of them, unless the generation is replaced. -/
def keptExtents (s : Store) (id : ℤ) (replaced : Bool) : List ExtentRow :=
  if replaced then s.extents.filter (·.job ≠ id) else s.extents

/-- The intents that survive a transition. A published job needs none; the record itself says
`completed`. -/
def keptIntents (s : Store) (id : ℤ) (replaced : Bool) (command : JobCommand) :
    AList fun _ : ℤ ↦ IntentRow :=
  let intents := if replaced then s.intents.erase id else s.intents
  if command = .publishCommitted then intents.erase id else intents

def transition (s : Store) (event : JobEvent) : Except PersistenceError Store := do
  let id ← signedId event.job
  let row ← okOr (s.jobs.lookup id) .conflict
  let now ← current s id
  let version ← loaded row.version
  require (checkedAdd version 1 = some event.version ∧ now.state = event.fromState) .conflict
  let from' ← stored event.generation.get
  require (now.generation = from') .conflict
  let outcome := event.outcome
  let generation ← stored outcome.generation.get
  let replaced : Bool := generation ≠ now.generation
  let plan ← planAfter replaced event.command now.plan
  let validator ← validatorAfter replaced event.command now
  require (validator = outcome.validator) .conflict
  let rows := keptExtents s id replaced
  let durable ← extents rows id generation
  -- memory marks bytes durable only after this repository committed them
  require (outcome.durableBytes ≤ (durable.map (·.range.len)).sum) .conflict
  let state ← encodeState outcome generation plan validator
  require state.admissible .unavailable
  let next ← stored event.version
  pure { s with
    extents := rows, intents := keptIntents s id replaced event.command
    states := s.states.insert id state, jobs := s.jobs.insert id { row with version := next } }

/-- The generation is replaced by an event. -/
def replaces (event : JobEvent) : Bool := event.outcome.generation ≠ event.generation

/-- **What an accepted transition has checked and written.** -/
structure Transitioned (s : Store) (event : JobEvent) (row : JobsRow) (now : Current)
    (p : Option (ℤ × ℤ)) (ds : List DurableExtent) (st : StateRow) (s' : Store) : Prop where
  id_le : event.job.get ≤ i64Max
  lookup : s.jobs.lookup (event.job.get : ℤ) = some row
  current : current s (event.job.get : ℤ) = .ok now
  version : row.version + 1 = event.version
  fromState : now.state = event.fromState
  generation : now.generation = event.generation.get
  plan : planAfter (replaces event) event.command now.plan = .ok p
  validator : validatorAfter (replaces event) event.command now = .ok event.outcome.validator
  extents : extents (keptExtents s (event.job.get : ℤ) (replaces event)) (event.job.get : ℤ)
    (event.outcome.generation.get : ℤ) = .ok ds
  durableBytes : event.outcome.durableBytes ≤ (ds.map (·.range.len)).sum
  state : encodeState event.outcome event.outcome.generation.get p event.outcome.validator =
    .ok st
  admissible : st.admissible = true
  eq : s' = { s with
    extents := keptExtents s (event.job.get : ℤ) (replaces event)
    intents := keptIntents s (event.job.get : ℤ) (replaces event) event.command
    states := s.states.insert (event.job.get : ℤ) st
    jobs := s.jobs.insert (event.job.get : ℤ) { row with version := event.version } }

theorem transition_eq_ok {s s' : Store} {event : JobEvent} (h : transition s event = .ok s') :
    ∃ row now plan durable state, Transitioned s event row now plan durable state s' := by
  unfold transition at h
  obtain ⟨id, hid, h⟩ := bind_eq_ok.1 h
  obtain ⟨hidle, rfl⟩ := stored_eq_ok.1 hid
  obtain ⟨row, hrow, h⟩ := bind_eq_ok.1 h
  obtain ⟨now, hnow, h⟩ := bind_eq_ok.1 h
  obtain ⟨version, hversion, h⟩ := bind_eq_ok.1 h
  obtain ⟨_, hcas, h⟩ := bind_eq_ok.1 h
  obtain ⟨from', hfrom, h⟩ := bind_eq_ok.1 h
  obtain ⟨-, rfl⟩ := stored_eq_ok.1 hfrom
  obtain ⟨_, hgen, h⟩ := bind_eq_ok.1 h
  obtain ⟨generation, hgeneration, h⟩ := bind_eq_ok.1 h
  obtain ⟨-, rfl⟩ := stored_eq_ok.1 hgeneration
  obtain ⟨plan, hplan, h⟩ := bind_eq_ok.1 h
  obtain ⟨validator, hvalidator, h⟩ := bind_eq_ok.1 h
  obtain ⟨_, hsame, h⟩ := bind_eq_ok.1 h
  obtain ⟨durable, hdurable, h⟩ := bind_eq_ok.1 h
  obtain ⟨_, hbytes, h⟩ := bind_eq_ok.1 h
  obtain ⟨state, hstate, h⟩ := bind_eq_ok.1 h
  obtain ⟨_, hadmissible, h⟩ := bind_eq_ok.1 h
  obtain ⟨next, hnext, h⟩ := bind_eq_ok.1 h
  obtain ⟨-, rfl⟩ := stored_eq_ok.1 hnext
  obtain ⟨hversion', hstate'⟩ := require_eq_ok.1 hcas
  have hgen := require_eq_ok.1 hgen
  have hreplaced : (decide ((event.outcome.generation.get : ℤ) ≠ now.generation) : Bool) =
      replaces event := by
    rw [hgen, replaces, decide_eq_decide, not_iff_not, Int.natCast_inj]
    exact ⟨Identifier.ext, congrArg Identifier.get⟩
  rw [hreplaced] at hplan hvalidator hdurable h
  rw [require_eq_ok.1 hsame] at hvalidator hstate
  cases h
  refine ⟨row, now, plan, durable, state, hidle, okOr_eq_ok.1 hrow, hnow, ?_, hstate', hgen, hplan,
    hvalidator, hdurable, require_eq_ok.1 hbytes, hstate, require_eq_ok.1 hadmissible, rfl⟩
  have hle : 0 ≤ row.version ∧ version = row.version.toNat := by
    unfold loaded at hversion
    split at hversion
    · cases hversion
      exact ⟨by assumption, rfl⟩
    · cases hversion
  have := (checkedAdd_eq_some.1 hversion').2
  omega

/-- One `INSERT INTO extents`, refused when the primary key exists. -/
def insertExtent (id generation : ℤ) (rows : List ExtentRow) (extent : DurableExtent) :
    Except PersistenceError (List ExtentRow) := do
  let start ← stored extent.range.start
  let stop ← stored extent.range.stop
  require (rows.all fun row ↦
    ¬(row.job = id ∧ row.generation = generation ∧ row.start = start)) .unavailable
  pure (rows ++ [⟨id, generation, start, stop, extent.digest⟩])

/-- Commits a batch of durable extents (`commit_extents`). -/
def durable (s : Store) (job : JobId) (generation : Generation) (incoming : List DurableExtent) :
    Except PersistenceError Store := do
  let id ← signedId job
  require (s.jobs.lookup id ≠ none) .conflict
  let now ← current s id
  let generation ← stored generation.get
  let (total, maximum) ← okOr now.plan .conflict
  require (generation = now.generation ∧
    (now.state = .transferring ∨ now.state = .stopping ∨ now.state = .cancelling)) .conflict
  let total ← loaded total
  require (∀ e ∈ incoming, e.range.stop ≤ total) .corrupt
  let existing ← extents s.extents id generation
  let fresh ← okOr (admitExtents existing incoming) .conflict
  let maximum ← loaded maximum
  -- never write a state that `load_jobs` could not rebuild
  require (restoredSegments (ranges existing ++ ranges fresh) total ≤ maximum) .conflict
  let rows ← fresh.foldlM (insertExtent id generation) s.extents
  pure { s with extents := rows }

theorem insertExtents_eq_ok {id generation : ℤ} {fresh : List DurableExtent}
    {rows rows' : List ExtentRow} (h : fresh.foldlM (insertExtent id generation) rows = .ok rows') :
    rows' = rows ++ fresh.map (ExtentRow.of id generation) := by
  induction fresh generalizing rows with
  | nil =>
    cases h
    simp
  | cons extent fresh ih =>
    rw [List.foldlM_cons] at h
    obtain ⟨mid, hmid, h⟩ := bind_eq_ok.1 h
    unfold insertExtent at hmid
    obtain ⟨start, hstart, hmid⟩ := bind_eq_ok.1 hmid
    obtain ⟨stop, hstop, hmid⟩ := bind_eq_ok.1 hmid
    obtain ⟨_, -, hmid⟩ := bind_eq_ok.1 hmid
    cases hmid
    rw [ih h, (stored_eq_ok.1 hstart).2, (stored_eq_ok.1 hstop).2]
    simp [ExtentRow.of]

/-- **What an accepted batch of extents has checked and written.** -/
structure Hardened (s : Store) (job : JobId) (g : Generation)
    (incoming : List DurableExtent) (row : JobsRow) (now : Current) (total maximum : ℕ)
    (existing fresh : List DurableExtent) (s' : Store) : Prop where
  id_le : job.get ≤ i64Max
  lookup : s.jobs.lookup (job.get : ℤ) = some row
  current : current s job.get = .ok now
  plan : now.plan = some ((total : ℤ), (maximum : ℤ))
  generation : now.generation = g.get
  active : Job.isActive now.state = true
  within : ∀ e ∈ incoming, e.range.stop ≤ total
  extents : extents s.extents job.get g.get = .ok existing
  admitted : admitExtents existing incoming = some fresh
  fits : restoredSegments (ranges existing ++ ranges fresh) total ≤ maximum
  eq : s' = { s with
    extents := s.extents ++ fresh.map (ExtentRow.of (job.get : ℤ) (g.get : ℤ)) }

theorem durable_eq_ok {s s' : Store} {job : JobId} {generation : Generation}
    {incoming : List DurableExtent} (h : durable s job generation incoming = .ok s') :
    ∃ row now total maximum existing fresh,
      Hardened s job generation incoming row now total maximum existing fresh s' := by
  unfold durable at h
  obtain ⟨id, hid, h⟩ := bind_eq_ok.1 h
  obtain ⟨hidle, rfl⟩ := stored_eq_ok.1 hid
  obtain ⟨_, hexists, h⟩ := bind_eq_ok.1 h
  obtain ⟨now, hnow, h⟩ := bind_eq_ok.1 h
  obtain ⟨number, hnumber, h⟩ := bind_eq_ok.1 h
  obtain ⟨-, rfl⟩ := stored_eq_ok.1 hnumber
  obtain ⟨⟨total, maximum⟩, hplan, h⟩ := bind_eq_ok.1 h
  obtain ⟨_, hcas, h⟩ := bind_eq_ok.1 h
  obtain ⟨total', htotal, h⟩ := bind_eq_ok.1 h
  obtain ⟨_, hwithin, h⟩ := bind_eq_ok.1 h
  obtain ⟨existing, hexisting, h⟩ := bind_eq_ok.1 h
  obtain ⟨fresh, hfresh, h⟩ := bind_eq_ok.1 h
  obtain ⟨maximum', hmaximum, h⟩ := bind_eq_ok.1 h
  obtain ⟨_, hfits, h⟩ := bind_eq_ok.1 h
  obtain ⟨rows, hrows, h⟩ := bind_eq_ok.1 h
  obtain ⟨row, hrow⟩ := Option.ne_none_iff_exists'.1 (require_eq_ok.1 hexists)
  obtain ⟨hgen, hactive⟩ := require_eq_ok.1 hcas
  have hplan := okOr_eq_ok.1 hplan
  rw [loaded_eq_ok.1 htotal, loaded_eq_ok.1 hmaximum] at hplan
  cases h
  refine ⟨row, now, total', maximum', existing, fresh, hidle, hrow, hnow, hplan, hgen.symm, ?_,
    require_eq_ok.1 hwithin, hexisting, okOr_eq_ok.1 hfresh, require_eq_ok.1 hfits, ?_⟩
  · rcases hactive with h | h | h <;> rw [h] <;> rfl
  · rw [insertExtents_eq_ok hrows]

/-- `u32::try_from`. -/
def loadedWord (value : ℤ) : Except PersistenceError UInt32 :=
  if 0 ≤ value ∧ value < 2 ^ 32 then .ok (UInt32.ofNat value.toNat) else .error .corrupt

/-- The intent recorded for a job, if any (`publish_intent`). -/
def intent (s : Store) (job : JobId) : Except PersistenceError (Option PublishIntent) := do
  let id ← signedId job
  match s.intents.lookup id with
  | none => pure none
  | some row =>
    let generation ← orCorrupt (Identifier.new (← loaded row.generation))
    let attempt ← loadedWord row.attempt
    let size ← loaded row.size
    pure (some ⟨job, generation, attempt, size, row.digest⟩)

/-- Records a publish intent (`record_publish_intent`); only a verified job of this generation may be
published. -/
def intendPublish (s : Store) (intent : PublishIntent) : Except PersistenceError Store := do
  let id ← signedId intent.job
  let now ← current s id
  require (now.state = .verifying) .conflict
  let generation ← stored intent.generation.get
  require (now.generation = generation) .conflict
  require (now.plan.any fun plan ↦ loaded plan.1 = .ok intent.size) .conflict
  let size ← stored intent.size
  -- `CHECK(attempt > 0)`
  require (0 < intent.attempt) .unavailable
  pure { s with intents := s.intents.insert id ⟨generation, intent.attempt.toNat, size, intent.digest⟩ }

/-- The row of an intent. -/
def IntentRow.of (intent : PublishIntent) : IntentRow :=
  ⟨intent.generation.get, intent.attempt.toNat, intent.size, intent.digest⟩

/-- **What an accepted intent has checked and written.** -/
theorem intendPublish_eq_ok {s s' : Store} {intent : PublishIntent}
    (h : intendPublish s intent = .ok s') : ∃ now maximum, current s intent.job.get = .ok now ∧
      now.state = .verifying ∧ now.generation = intent.generation.get ∧
      now.plan = some ((intent.size : ℤ), maximum) ∧
      s' = { s with intents := s.intents.insert (intent.job.get : ℤ) (IntentRow.of intent) } := by
  unfold intendPublish at h
  obtain ⟨id, hid, h⟩ := bind_eq_ok.1 h
  obtain ⟨-, rfl⟩ := stored_eq_ok.1 hid
  obtain ⟨now, hnow, h⟩ := bind_eq_ok.1 h
  obtain ⟨_, hstate, h⟩ := bind_eq_ok.1 h
  obtain ⟨number, hnumber, h⟩ := bind_eq_ok.1 h
  obtain ⟨-, rfl⟩ := stored_eq_ok.1 hnumber
  obtain ⟨_, hgen, h⟩ := bind_eq_ok.1 h
  obtain ⟨_, hplan, h⟩ := bind_eq_ok.1 h
  obtain ⟨size, hsize, h⟩ := bind_eq_ok.1 h
  obtain ⟨-, rfl⟩ := stored_eq_ok.1 hsize
  obtain ⟨_, -, h⟩ := bind_eq_ok.1 h
  cases h
  have hplan := require_eq_ok.1 hplan
  rcases hp : now.plan with - | ⟨total, maximum⟩
  · rw [hp] at hplan
    cases hplan
  · rw [hp] at hplan
    have hload : loaded total = .ok intent.size := by simpa using hplan
    exact ⟨now, maximum, hnow, require_eq_ok.1 hstate, require_eq_ok.1 hgen,
      by rw [hp, loaded_eq_ok.1 hload], rfl⟩

/-- The durable extents of the current generation, ascending (`durable_extents`). -/
def currentExtents (s : Store) (job : JobId) : Except PersistenceError (List DurableExtent) := do
  let id ← signedId job
  extents s.extents id ((s.states.lookup id).elim 1 (·.generation))

/-- The record of a job, assembled from its rows. -/
def loadRecord (s : Store) (id : ℤ) (row : JobsRow) : Except PersistenceError JobRecord := do
  let job ← orCorrupt (Identifier.new (← loaded id))
  let spec ← decodeSpec row.spec
  let version ← loaded row.version
  match s.states.lookup id with
  | none =>
    pure ⟨job, spec, version, .queued, Generation.initial, none, none, none, false, 0, none, none,
      []⟩
  | some state =>
    let h ← decodeState state
    let durable ← extents s.extents id state.generation
    pure ⟨job, spec, version, h.state, h.generation, h.reason, h.retryAt, h.stop, h.replaceOnDrain,
      h.attempts, h.plan, h.validator, ranges durable⟩

/-- One iteration of the loop in `jobs`. -/
def loadJob (s : Store) (entry : (_ : ℤ) × JobsRow) : Except PersistenceError Job := do
  let record ← loadRecord s entry.1 entry.2
  orCorrupt (Job.restore record)

/-- All jobs, rebuilt (`load_jobs`). -/
def jobs (s : Store) : Except PersistenceError (List Job) :=
  (s.jobs.entries.insertionSort fun a b ↦ a.1 ≤ b.1).mapM (loadJob s)

end Persistence

end Fhd
