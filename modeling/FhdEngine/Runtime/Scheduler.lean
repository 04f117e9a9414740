import FhdEngine.Runtime.Origin
import FhdEngine.Runtime.Session
import Mathlib.Data.List.AList

/-!
# The scheduler

`crates/runtime/src/scheduler.rs`: who runs, under how many connections, and when the rest is looked at
again. `Loop` is everything `Scheduler::run` holds between two turns of its loop, with the sessions it
has spawned as the programs they are (`Coordinator.runWith`), stopped wherever they are.

A `Turn` is everything one turn of the loop does not decide: what the clock read each time it was asked,
how the repository answered, what the sessions did meanwhile and in between (an `Aside` answers one
call of one session, or lets it panic), and which branch of the select fired. The control channel of a
session is exact: it holds four messages, is emptied by the session alone, and refuses what is sent
after the session has ended.
-/

namespace Fhd

open Process (Prog)

structure SchedulerConfig where
  maxActive : ℕ
  connections : ℕ
  perJob : ℕ
  /-- Waits for more work instead of finishing when the queue empties. -/
  resident : Bool
deriving DecidableEq, Repr

def SchedulerConfig.valid (c : SchedulerConfig) : Bool :=
  (1 ≤ c.maxActive ∧ c.maxActive ≤ 4096) ∧ (1 ≤ c.connections ∧ c.connections ≤ 4096) ∧
    1 ≤ c.perJob ∧ c.perJob ≤ c.connections

inductive Command
  | admitJob (job : Job)
  | pause (id : JobId)
  | cancel (id : JobId)
  /-- Pauses what is running and returns. -/
  | shutdown

/-- How one job left the scheduler, with the job as it now stands. -/
structure Outcome where
  id : JobId
  job : Option Job
  result : Option (Except RunError SessionEnd)

namespace Outcome

def settled (job : Job) : Outcome := ⟨job.id, some job, none⟩

def failed (id : JobId) (error : RunError) : Outcome := ⟨id, none, some (.error error)⟩

end Outcome

/-- A job waiting its turn, with the origin it was grouped under. -/
structure Entry where
  job : Job
  origin : OriginId

/-- What the scheduler keeps of a running session; `control` is the task at the other end. -/
structure Active where
  control : ℕ
  origin : OriginId
  grant : ℕ
deriving DecidableEq, Repr

/-- A spawned session: what is left of it, or nothing after a panic, and the controls it has not
taken from its channel. -/
structure Task where
  number : ℕ
  id : JobId
  controls : List Control
  session : Option (Prog Port Answer (Job × Except RunError SessionEnd))

/-- The capacity of a control channel. -/
def controlCapacity : ℕ := 4

/-- The receiver of a control channel lives as long as its session. -/
def Task.receiving (t : Task) : Bool :=
  match t.session with
  | some (.call _ _) => true
  | _ => false

structure Scheduler where
  coordinator : Coordinator
  config : SchedulerConfig
  /-- How long the loops of a session may take. -/
  fuel : ℕ
  config_valid : config.valid
  perJob_le : config.perJob ≤ coordinator.config.connections

def Scheduler.new (coordinator : Coordinator) (config : SchedulerConfig) (fuel : ℕ) :
    Except RunError Scheduler :=
  if h : ¬config.valid ∨ config.perJob > coordinator.config.connections then .error .invalidConfig
  else .ok ⟨coordinator, config, fuel, by simpa using fun hv ↦ h (Or.inl hv), by omega⟩

structure Loop where
  ready : List Entry
  waiting : List Entry
  done : List Outcome
  active : AList fun _ : JobId ↦ Active
  owners : AList fun _ : ℕ ↦ JobId
  sessions : List Task
  /-- How each job's last session ended. -/
  last : AList fun _ : JobId ↦ SessionEnd
  deferred : List (JobId × Control)
  used : ℕ
  isOpen : Bool
  stopping : Bool
  governor : OriginGovernor
  /-- The number the next task gets. -/
  nextTask : ℕ
  /-- What the run returned, once it has. -/
  outcomes : Option (List Outcome)

/-- How the ports of one command on a job answer. -/
abbrev Answers := (op : JobPort) → JobAnswer op

/-- One thing a session does by itself. -/
inductive Aside
  | answer (task : ℕ) (give : (op : Port) → Option (Answer op))
  | panic (task : ℕ)

inductive Event
  /-- A task was joined; `now` is what the clock read, `origin` how the transport groups the job. -/
  | joined (task : ℕ) (now : ℕ) (origin : OriginId)
  | command (command : Command) (origin : OriginId) (moved settled : Answers)
  /-- Nobody can send commands any more. -/
  | closed
  | woke

/-- Everything one turn of the loop does not decide. -/
structure Turn where
  delivering : ℕ → List Aside
  promoteNow : ℕ
  promoted : ℕ → Answers
  admitNow : ℕ
  admitting : ℕ → List Aside
  checking : List Aside
  deadlineNow : ℕ
  selecting : List Aside
  event : Event

namespace Loop

/-! ### The queue -/

/-- `Queue::take`. -/
def take (s : Loop) (entry : Entry) : Loop :=
  match entry.job.state with
  | .queued | .verifying | .publishing => { s with ready := s.ready ++ [entry] }
  | .retryWait => { s with waiting := s.waiting ++ [entry] }
  -- anything else rests until a user or another pass decides otherwise
  | _ => { s with done := s.done ++ [.settled entry.job] }

/-- `Queue::remove`: the first entry of that identity, ready ones before waiting ones. -/
def remove (s : Loop) (id : JobId) : Option (Entry × Loop) :=
  match s.ready.find? (·.job.id = id) with
  | some entry => some (entry, { s with ready := s.ready.eraseP (·.job.id = id) })
  | none =>
    match s.waiting.find? (·.job.id = id) with
    | some entry => some (entry, { s with waiting := s.waiting.eraseP (·.job.id = id) })
    | none => none

def idle (s : Loop) : Bool := s.ready.isEmpty && s.waiting.isEmpty

/-- `queue.done.push`. -/
def push (s : Loop) (outcome : Outcome) : Loop := { s with done := s.done ++ [outcome] }

/-! ### What sessions do -/

/-- The controls left after a receive; `none` where that cannot be received now. -/
def received (s : Loop) (t : Task) : Option Control → Option (List Control)
  | some control => if t.controls.head? = some control then some t.controls.tail else none
  -- an empty channel reports its end only when the sending side is gone
  | none =>
    if t.controls = [] ∧ ¬s.active.entries.any (·.2.control = t.number) then some [] else none

/-- What an answer to a session means for its channel and the governor. -/
def answered (s : Loop) (t : Task) : (op : Port) → Answer op → Option (List Control × OriginGovernor)
  | .awaitProbe _ _, .control _ message => (s.received t message).map (·, s.governor)
  | .awaitWorker _ _, .control _ message => (s.received t message).map (·, s.governor)
  | .tryRecv, some control => (s.received t (some control)).map (·, s.governor)
  | .tryRecv, none => if t.controls = [] then some ([], s.governor) else none
  | .note origin (.succeeded now), _ => some (t.controls, s.governor.succeeded origin now)
  | .note origin (.throttled retryAfterMs now), _ =>
    some (t.controls, s.governor.throttled origin retryAfterMs now)
  | .note origin (.failed now), _ => some (t.controls, s.governor.failed origin now)
  | _, _ => some (t.controls, s.governor)

def setTask (s : Loop) (t : Task) : Loop :=
  { s with sessions := s.sessions.map fun t' ↦ if t'.number = t.number then t else t' }

def aside (s : Loop) : Aside → Loop
  | .answer task give =>
    match s.sessions.find? (·.number = task) with
    | some t =>
      match t.session with
      | some (.call op next) =>
        match give op with
        | none => s
        | some a =>
          match s.answered t op a with
          | none => s
          | some (controls, governor) =>
            { s.setTask { t with controls, session := some (next a) } with governor }
      | _ => s
    | none => s
  | .panic task =>
    match s.sessions.find? (·.number = task) with
    | some t => if t.receiving then s.setTask { t with session := none } else s
    | none => s

def asides (s : Loop) (l : List Aside) : Loop := l.foldl aside s

/-- `try_send`; `none` where the channel is full or its session has ended. -/
def trySend (s : Loop) (task : ℕ) (control : Control) : Option Loop :=
  match s.sessions.find? (·.number = task) with
  | none => none
  | some t =>
    if t.receiving ∧ t.controls.length < controlCapacity then
      some (s.setTask { t with controls := t.controls ++ [control] })
    else none

/-- Sends, or defers what the channel refused. -/
def send (s : Loop) (id : JobId) (task : ℕ) (control : Control) : Loop :=
  (s.trySend task control).getD { s with deferred := s.deferred ++ [(id, control)] }

/-! ### The pieces of a turn -/

/-- Retries controls a full session channel refused earlier. -/
def deliverAll (s : Loop) (meanwhile : ℕ → List Aside) : List (JobId × Control) → Loop
  | [] => s
  | (id, control) :: rest =>
    let s := s.asides (meanwhile 0)
    match s.active.lookup id with
    | some entry => (s.send id entry.control control).deliverAll (meanwhile ∘ (· + 1)) rest
    -- the session ended before the command reached it
    | none => s.deliverAll (meanwhile ∘ (· + 1)) rest

def deliver (s : Loop) (meanwhile : ℕ → List Aside) : Loop :=
  { s with deferred := [] }.deliverAll meanwhile s.deferred

/-- Whether a retry deadline is still ahead. -/
def ahead (now : ℕ) (entry : Entry) : Bool := entry.job.retryAt.any (· > now)

/-- Takes back what a command answered, or gives the job up. -/
def takeBack (s : Loop) (entry : Entry) : Except RunError Job → Loop
  | .ok job => s.take ⟨job, entry.origin⟩
  | .error error => s.push (.failed entry.job.id error)

def promoteAll (s : Loop) (now : ℕ) (answers : ℕ → Answers) : List Entry → Loop
  | [] => s
  | entry :: rest =>
    let s :=
      if ahead now entry then { s with waiting := s.waiting ++ [entry] }
      else s.takeBack entry ((Coordinator.command entry.job (.retryDue now)).eval (answers 0))
    s.promoteAll now (answers ∘ (· + 1)) rest

/-- Moves every job whose retry deadline has passed back into the ready queue. -/
def promoteDue (s : Loop) (now : ℕ) (answers : ℕ → Answers) : Loop :=
  { s with waiting := [] }.promoteAll now answers s.waiting

/-- A session is spawned under its grant. -/
def spawn (S : Scheduler) (s : Loop) (entry : Entry) (grant : ℕ) : Loop :=
  { s with
    active := s.active.insert entry.job.id ⟨s.nextTask, entry.origin, grant⟩
    used := s.used + grant
    sessions := s.sessions ++ [⟨s.nextTask, entry.job.id, [],
      some (S.coordinator.runWith S.fuel entry.job grant entry.origin)⟩]
    owners := s.owners.insert s.nextTask entry.job.id
    nextTask := s.nextTask + 1 }

def admitAll (S : Scheduler) (now : ℕ) (s : Loop) (meanwhile : ℕ → List Aside)
    (skipped : List Entry) : List Entry → Loop
  | [] => { s with ready := skipped }
  | entry :: rest =>
    if s.active.entries.length ≥ S.config.maxActive ∨ S.config.connections - s.used = 0 then
      { s with ready := skipped ++ entry :: rest }
    else
      let s := s.asides (meanwhile 0)
      let want := min S.config.perJob (S.config.connections - s.used)
      let grant := (s.governor.admitConnections entry.origin want now).1
      let s := { s with governor := (s.governor.admitConnections entry.origin want now).2 }
      if grant = 0 then admitAll S now s (meanwhile ∘ (· + 1)) (skipped ++ [entry]) rest
      else admitAll S now (s.spawn S entry grant) (meanwhile ∘ (· + 1)) skipped rest

/-- Starts every ready job the caps allow, in queue order, skipping the ones an origin is not taking
now. A skipped job keeps its place. -/
def admitReady (S : Scheduler) (s : Loop) (now : ℕ) (meanwhile : ℕ → List Aside) : Loop :=
  admitAll S now { s with ready := [] } meanwhile [] s.ready

/-- The soonest moment anything could change. -/
def nextDeadline (s : Loop) (now : ℕ) : Option ℕ :=
  let retry := ((s.waiting.filterMap (·.job.retryAt)).filter (· > now)).min?
  let origin := (s.ready.filterMap fun entry ↦ s.governor.readyAt entry.origin now).min?
  match retry, origin with
  | some a, some b => some (min a b)
  | a, b => a <|> b

/-- Releases the grant and tells the governor how the origin behaved. -/
def finish (s : Loop) (id : JobId) (published : Bool) (now : ℕ) : Loop :=
  match s.active.lookup id with
  | none => s
  | some entry =>
    let governor := s.governor.release entry.origin entry.grant now
    { s with
      active := s.active.erase id
      used := s.used - entry.grant
      governor := if published then governor.succeeded entry.origin now else governor }

def isPublished : Except RunError SessionEnd → Bool
  | .ok (.published _) => true
  | _ => false

/-- A finished session is taken out of the set. -/
def onJoined (s : Loop) (task now : ℕ) (origin : OriginId) : Loop :=
  match s.sessions.find? (·.number = task) with
  | none => s
  | some t =>
    let rest := { s with sessions := s.sessions.filter (·.number ≠ task) }
    match t.session with
    | some (.call _ _) => s
    | some (.done (job, result)) =>
      let s := rest.finish t.id (isPublished result) now
      match result with
      -- the job moved: classify it and let it run on
      | .ok sessionEnd => { s with last := s.last.insert t.id sessionEnd }.take ⟨job, origin⟩
      | .error error => s.push (.failed t.id error)
    | none =>
      match rest.owners.lookup task with
      | none => rest
      | some id =>
        ({ rest with owners := rest.owners.erase task }.finish id false now).push
          (.failed id .invariant)

/-- Brings a job restored from the repository to a state the scheduler can act on. -/
def settle (answers : Answers) (job : Job) : Except RunError Job :=
  match job.state with
  | .probing | .transferring | .stopping | .cancelling => (Coordinator.recover job).eval answers
  | _ => .ok job

/-- A control for a job that is not running is a command on it. -/
def commandOf : Control → JobCommand
  | .pause => .pause
  | .cancel => .cancel

/-- A control reaches the session that runs, or the job that waits. -/
def onControl (s : Loop) (id : JobId) (control : Control) (moved settled : Answers) : Loop :=
  match s.active.lookup id with
  | some entry => s.send id entry.control control
  | none =>
    match s.remove id with
    -- nobody here owns this job
    | none => s
    | some (entry, s) =>
      match (Coordinator.command entry.job (commandOf control)).eval moved with
      | .ok job => s.takeBack entry (settle settled job)
      | .error error => s.push (.failed id error)

def onCommand (s : Loop) (origin : OriginId) (moved settled : Answers) : Command → Loop
  | .admitJob job => s.take ⟨job, origin⟩
  | .shutdown =>
    { s.active.entries.foldl (fun s e ↦ s.send e.1 e.2.control .pause) s with stopping := true }
  | .pause id => s.onControl id .pause moved settled
  | .cancel id => s.onControl id .cancel moved settled

/-- The branch of the select that fired. -/
def select (s : Loop) : Event → Loop
  | .joined task now origin => s.onJoined task now origin
  | .command command origin moved settled =>
    if s.isOpen then s.onCommand origin moved settled command else s
  | .closed => { s with isOpen := false }
  | .woke => s

/-! ### The whole run -/

/-- How the last session of a job ended is told with its first outcome that has no result. -/
def fill (last : AList fun _ : JobId ↦ SessionEnd) : List Outcome → List Outcome
  | [] => []
  | outcome :: rest =>
    match outcome.result with
    | some _ => outcome :: fill last rest
    | none =>
      { outcome with result := (last.lookup outcome.id).map .ok } ::
        fill (last.erase outcome.id) rest

/-- What `run` returns: everything done, and everything still queued handed back. -/
def conclude (s : Loop) : Loop :=
  let done := s.done ++ (s.ready ++ s.waiting).map fun entry ↦ .settled entry.job
  { s with
    outcomes := some ((fill s.last done).mergeSort fun a b ↦ a.id.get ≤ b.id.get) }

/-- The part of a turn before the select: deliver, promote, admit. -/
def prepare (S : Scheduler) (s : Loop) (t : Turn) : Loop :=
  let s := s.deliver t.delivering
  if s.stopping then s
  else admitReady S (s.promoteDue t.promoteNow t.promoted) t.admitNow t.admitting

/-- Whether the loop waits for more work with nothing to do. -/
def resident (S : Scheduler) (s : Loop) : Bool := S.config.resident && s.isOpen

/-- Whether there is nothing left to wait for. -/
def finished (S : Scheduler) (s : Loop) : Bool :=
  s.sessions.isEmpty && (s.stopping || (s.idle && !s.resident S))

/-- Whether nothing runs and no moment exists at which that could change. A session that was started
is among those that run. -/
def stranded (S : Scheduler) (s : Loop) (deadline : Option ℕ) : Bool :=
  s.sessions.isEmpty && deadline.isNone && !s.resident S

/-- One turn of the loop. -/
def turn (S : Scheduler) (s : Loop) (t : Turn) : Loop :=
  if s.outcomes.isSome then s
  else
    let s := s.prepare S t
    if s.finished S then s.conclude
    else
      let s := s.asides t.checking
      if s.stranded S (s.nextDeadline t.deadlineNow) then s.conclude
      else (s.asides t.selecting).select t.event

def start (governor : OriginGovernor) : Loop :=
  ⟨[], [], [], ∅, ∅, [], ∅, [], 0, true, false, governor, 0, none⟩

/-- The jobs given to `run`, each with how its settling is answered and its origin. A repeated
identity is refused. -/
def intake (s : Loop) : List JobId → List (Job × Answers × OriginId) → Loop
  | _, [] => s
  | seen, (job, answers, origin) :: rest =>
    if job.id ∈ seen then (s.push (.failed job.id .invariant)).intake seen rest
    else
      match settle answers job with
      | .ok settled => (s.take ⟨settled, origin⟩).intake (job.id :: seen) rest
      | .error error => (s.push (.failed job.id error)).intake (job.id :: seen) rest

end Loop

/-- The scheduler after its intake and any number of turns. -/
def Scheduler.run (S : Scheduler) (governor : OriginGovernor)
    (jobs : List (Job × Answers × OriginId)) (turns : List Turn) : Loop :=
  turns.foldl (Loop.turn S) ((Loop.start governor).intake [] jobs)

end Fhd
