import FhdEngine.Application.AddDownload
import FhdEngine.Http.Transport
import FhdEngine.Library.Routine
import FhdEngine.Persistence.References

/-!
# The resident engine

`crates/bins/daemon/src/service.rs`: how a request becomes a job, and what the engine remembers when it is
started again. One request touches four stores in sequence, each under a lock or in a transaction of its
own, so any number of requests interleave with each other and with what the scheduler commits.

A `Life` is one process: the engine is opened on what the last one left, and then requests arrive, advance
and die with it. What the process held is lost between two lives; the database is not.

Paths are those of Unix. What canonicalizing a directory answers is the file system's, and may change.
-/

namespace Fhd

open Process (Prog System Pool Move)
open Persistence (References appError)

structure AddRequest where
  url : String
  destination : String
  /-- A link that must never be written to disk, such as a signed one. -/
  sensitive : Bool
  expectedSha256 : Option String
  maxBytes : ℕ
  allowHttp : Bool
deriving DecidableEq, Repr

/-- What the service reads of its configuration. -/
structure EngineConfig where
  maxBytes : ℕ
  allowHttp : Bool
deriving DecidableEq, Repr

/-- The part of `Service` that does not change: its own tree and the allowed root are as the file system
names them. -/
structure Service where
  config : EngineConfig
  canonicalState : Path
  canonicalRoot : Option Path
deriving DecidableEq, Repr

inductive EngineError
  | invalidInput
  | destinationRefused
  | binding (error : BindingError)
  | admission (error : AppError)
deriving DecidableEq, Repr

/-! ### References -/

/-- `u64::to_le_bytes`. -/
def le64 (n : ℕ) : Bytes := (List.range 8).map fun i ↦ UInt8.ofNat (n / 256 ^ i)

/-- What is hashed: no two lists of parts read alike. -/
def framed (label : Bytes) (parts : List Bytes) : Bytes :=
  label ++ parts.flatMap fun part ↦ le64 part.length ++ part

section Digests

variable (sha256 : Bytes → Digest)

def digest (label : Bytes) (parts : List Bytes) : Digest := sha256 (framed label parts)

/-- A stable reference, so re-running the same request reaches the same job. -/
def reference (label : Bytes) (parts : List Bytes) : ℕ :=
  max (((digest sha256 label parts).toList.take 8).foldr (fun b n ↦ b.toNat + 256 * n) 0) 1

theorem reference_ne_zero (label : Bytes) (parts : List Bytes) : reference sha256 label parts ≠ 0 := by
  unfold reference
  omega

/-- `u8::from(flag)`. -/
def flag (b : Bool) : Bytes := [if b then 1 else 0]

def sourceRef (url : String) (allowHttp : Bool) : SourceRef :=
  ⟨reference sha256 (ascii "FHD.source.v1" ++ [0]) [ascii url, flag allowHttp], reference_ne_zero _ _ _⟩

def destinationRef (destination : String) : DestinationRef :=
  ⟨reference sha256 (ascii "FHD.destination.v1" ++ [0]) [ascii destination], reference_ne_zero _ _ _⟩

/-- What to fetch and where it lands. The expected digest is deliberately absent. -/
def requestKey (request : AddRequest) (allowHttp : Bool) : ReceiptKey where
  principal := ⟨1, Nat.one_ne_zero⟩
  digest := digest sha256 (ascii "FHD.request.v1" ++ [0])
    [ascii request.url, ascii request.destination, le64 request.maxBytes, flag allowHttp]

end Digests

/-! ### Destinations -/

/-- Extensions whose file is an instruction to the system, wherever they appear in the name. -/
def refusedExtensions : List String :=
  ["lnk", "url", "scf", "library-ms", "search-ms", "searchconnector-ms", "appref-ms", "theme",
    "themepack", "desktop", "inf", "hta", "msc", "reg"]

/-- Opening one of these names talks to a device, whatever extension follows. -/
def deviceNames : List String :=
  ["con", "prn", "aux", "nul", "com1", "com2", "com3", "com4", "com5", "com6", "com7", "com8", "com9",
    "lpt1", "lpt2", "lpt3", "lpt4", "lpt5", "lpt6", "lpt7", "lpt8", "lpt9"]

/-- Makes a name read as something it is not. -/
def isDirectional (c : Char) : Bool :=
  (0x202a ≤ c.toNat && c.toNat ≤ 0x202e) || (0x2066 ≤ c.toNat && c.toNat ≤ 0x2069) ||
    c.toNat = 0x200e || c.toNat = 0x200f

def publishableName (leaf : String) : Bool :=
  let chars := leaf.toList
  let lower := chars.map Char.toLower
  let parts := (lower.splitOn '.').map String.ofList
  if leaf = "" ∨ leaf.utf8ByteSize > 255 ∨ leaf = "." ∨ leaf = ".." then false
  else if chars.getLast? = some '.' ∨ chars.getLast? = some ' ' ∨ chars.head? = some ' ' then false
  else if ':' ∈ chars ∨ '/' ∈ chars ∨ '\\' ∈ chars then false
  else if String.ofList lower ∈ ["autorun.inf", "desktop.ini", ".htaccess"] then false
  else if parts.headD "" ∈ deviceNames then false
  -- every extension, not only the last
  else if parts.tail.any (refusedExtensions.contains ·) then false
  else !chars.any fun c ↦ isControl c || isDirectional c

/-- `Path::components` after the root. -/
def components (text : String) : List String :=
  ((text.toList.splitOn '/').map String.ofList).filter fun name ↦ name ≠ "" ∧ name ≠ "."

/-- Resolves `..` by spelling, so that it never reaches the file system. -/
def resolve : Path → List String → Option Path
  | resolved, [] => some resolved
  | resolved, name :: rest =>
    if name = ".." then if resolved = [] then none else resolve resolved.dropLast rest
    else resolve (resolved ++ [name]) rest

/-! ### What the service calls -/

namespace Daemon

inductive Port (Url : Type)
  | canonicalize (directory : Path)
  | claimedByOther (destination : DestinationRef) (path : Path)
  | bind (source : SourceRef) (binding : SourceBinding Url)
  | admission (port : AddDownload.Port)
  | record (source : SourceRef) (reference : SourceReference) (destination : DestinationRef) (path : Path)
  | insert (destination : DestinationRef) (path : Path)
  | loadJobs
  /-- `Command::Admit`; whether anybody receives it is ignored. -/
  | send (job : Job)

def Answer {Url : Type} : Port Url → Type
  | .canonicalize _ => Option Path
  | .claimedByOther _ _ => Bool
  | .bind _ _ => Except BindingError Unit
  | .admission port => port.Answer
  | .record _ _ _ _ => Except CommitError Unit
  | .insert _ _ | .send _ => Unit
  | .loadJobs => Except AppError (List Job)

abbrev ServiceM (Url : Type) := ExceptT EngineError (Prog (Port Url) Answer)

variable {Url Origin : Type}

/-- A call whose answer may end the request. -/
def call {α : Type} (op : Port Url) (f : Answer op → Except EngineError α) : ServiceM Url α :=
  ExceptT.mk (.call op fun a ↦ .done (f a))

def orElse {ε α : Type} (error : ε → EngineError) : Except ε α → Except EngineError α
  | .ok a => .ok a
  | .error e => .error (error e)

def decodeDigest (hex : String) : Except EngineError Digest :=
  if hex.utf8ByteSize ≠ 64 ∨ hex.toList.any (127 < ·.toNat) then .error .invalidInput
  else
    match ((List.range 32).mapM fun i ↦ do
        -- `from_str_radix` takes a leading plus sign
        let high ← if hex.toList[2 * i]? = some '+' then some 0 else nibble (hex.toList[2 * i]?)
        let low ← nibble (hex.toList[2 * i + 1]?)
        some (UInt8.ofNat (16 * high + low))) with
    | none => .error .invalidInput
    | some bytes => if h : bytes.toArray.size = 32 then .ok ⟨bytes.toArray, h⟩ else .error .invalidInput
where
  nibble : Option Char → Option ℕ
    | none => none
    | some c =>
      if '0' ≤ c ∧ c ≤ '9' then some (c.toNat - 48)
      else if 'a' ≤ c ∧ c ≤ 'f' then some (c.toNat - 87)
      else if 'A' ≤ c ∧ c ≤ 'F' then some (c.toNat - 55)
      else none

/-- Where a client's bytes may land. -/
def allowedDestination (service : Service) (proposed : String) : ServiceM Url Path :=
  if proposed.toList.head? ≠ some '/' then throw .destinationRefused
  else
    match resolve [] (components proposed) with
    | none => throw .destinationRefused
    | some resolved =>
      match resolved.getLast? with
      | none => throw .destinationRefused
      | some leaf =>
        if !publishableName leaf then throw .destinationRefused
        else
          call (.canonicalize resolved.dropLast) fun
            | none => .error .destinationRefused
            | some (parent : Path) =>
              -- the engine's own tree is nothing a server has a say in
              if service.canonicalState.isPrefixOf parent then .error .destinationRefused
              else if service.canonicalRoot.any fun root ↦ !root.isPrefixOf parent then
                .error .destinationRefused
              else .ok (parent ++ [leaf])

variable (U : Urls Url Origin) (sha256 : Bytes → Digest)

/-- `Service::bind`. -/
def bind (source : SourceRef) (url : String) (allowHttp : Bool) : ServiceM Url Unit :=
  match SourceBinding.new U url none none allowHttp [] with
  | .error e => throw (.binding e)
  | .ok binding => call (.bind source binding) (orElse .binding)

def job (id : JobId) : ServiceM Url Job :=
  call .loadJobs fun
    | .error e => .error (.admission e)
    | .ok (jobs : List Job) =>
      match jobs.find? (·.id = id) with
      | none => .error .invalidInput
      | some job => .ok job

/-- What `LocalOperator` allows is everything, so its gates are calls like the others. -/
def execute (key : ReceiptKey) (spec : JobSpec) : ServiceM Url JobId :=
  ExceptT.mk do
    let answer ← (AddDownload.execute key spec).run.embed Port.admission fun _ ↦ id
    return orElse .admission answer

/-- The end of `add`: what was committed is recorded, claimed and handed over. -/
def settle (request : AddRequest) (allowHttp : Bool) (source : SourceRef) (destination : DestinationRef)
    (path : Path) (id : JobId) : ServiceM Url JobId := do
  let stored ←
    if request.sensitive then pure (SourceReference.sensitive allowHttp)
    else ExceptT.mk (pure (orElse .admission (SourceReference.new request.url allowHttp)))
  call (.record source stored destination path) (orElse fun _ ↦ .admission .persistenceUnavailable)
  -- only now, once the database holds both
  call (.insert destination path) fun _ ↦ .ok ()
  let job ← job id
  if job.state = .queued then call (.send job) fun _ ↦ .ok ()
  return id

/-- Two jobs aiming at one name would race for it; the second is refused. -/
def refuseClaimed (destination : DestinationRef) (path : Path) : ServiceM Url Unit :=
  call (.claimedByOther destination path) fun
    | true => .error .invalidInput
    | false => .ok ()

/-- The part of `add` that follows the checks of the destination and the digest. -/
def addTo (service : Service) (request : AddRequest) (path : Path) (expected : Option Digest) :
    ServiceM Url JobId := do
  let allowHttp := request.allowHttp && service.config.allowHttp
  let source := sourceRef sha256 request.url allowHttp
  let destination := destinationRef sha256 request.destination
  refuseClaimed destination path
  bind U source request.url allowHttp
  let spec ← ExceptT.mk (pure (orElse (fun _ ↦ .invalidInput)
    (JobSpec.new source destination expected .normal (min request.maxBytes service.config.maxBytes))))
  let id ← execute (requestKey sha256 request allowHttp) spec
  settle request allowHttp source destination path id

/-- Admits one request. Anything refused is refused before a byte is fetched. -/
def add (service : Service) (request : AddRequest) : ServiceM Url JobId := do
  let path ← allowedDestination service request.destination
  let expected ←
    match request.expectedSha256 with
    | none => pure none
    | some hex => ExceptT.mk (pure ((decodeDigest hex).map some))
  addTo U sha256 service request path expected

/-! ### The engine between the calls -/

/-- The database, what the process holds, and ghost records: which calls found their name free, and
whose references took effect. -/
structure Engine (Url : Type) where
  desk : AddDownload.Desk
  references : References
  transport : Sources Url
  registry : AList fun _ : DestinationRef ↦ Path
  commands : List Job
  passed : List (ℕ × DestinationRef × Path)
  recorded : List ℕ

/-- What a call does not control. -/
structure Choice where
  canonical : Option Path
  fate : AddDownload.Fate

namespace Engine

def init (limits : Persistence.Limits) : Engine Url :=
  ⟨.init limits, .empty, .empty, ∅, [], [], []⟩

/-- `Registry::claimed_by_other`. -/
def claimedByOther (s : Engine Url) (destination : DestinationRef) (path : Path) : Bool :=
  s.registry.entries.any fun e ↦ e.1 ≠ destination ∧ e.2 = path

/-- `Registry::resolve`. -/
def resolve (s : Engine Url) (destination : DestinationRef) : Option Path := s.registry.lookup destination

def record (s : Engine Url) (n : ℕ) (source : SourceRef) (reference : SourceReference)
    (destination : DestinationRef) (path : Path) : Engine Url :=
  { s with
    references := s.references.record source reference destination path
    recorded := s.recorded ++ [n] }

def serve (n : ℕ) (s : Engine Url) (op : Port Url) (c : Choice) : Answer op × Engine Url :=
  match op with
  | .canonicalize _ => (c.canonical, s)
  | .claimedByOther destination path =>
    if s.claimedByOther destination path then (true, s)
    else (false, { s with passed := s.passed ++ [(n, destination, path)] })
  | .bind source binding =>
    ((s.transport.bind source binding).1, { s with transport := (s.transport.bind source binding).2 })
  | .admission port =>
    let (answer, desk) := s.desk.serve n port ⟨.ok (), c.fate⟩
    (answer, { s with desk })
  | .record source reference destination path =>
    match c.fate with
    | .failed => (.error .unavailable, s)
    | .lost => (.error .unavailable, s.record n source reference destination path)
    | .answered => (.ok (), s.record n source reference destination path)
  | .insert destination path => ((), { s with registry := s.registry.insert destination path })
  | .loadJobs =>
    match c.fate with
    | .answered => ((Persistence.jobs s.desk.store).mapError appError, s)
    | _ => (.error (appError .unavailable), s)
  | .send job =>
    match c.fate with
    | .answered => ((), { s with commands := s.commands ++ [job] })
    | _ => ((), s)

end Engine

/-! ### Starting again -/

/-- What `restore` has bound and what it hands to the scheduler. -/
structure Restored (Url : Type) where
  transport : Sources Url
  jobs : List Job

/-- One job of `restore`. -/
def restoreJob (config : EngineConfig) (sources : List (SourceRef × SourceReference)) (r : Restored Url)
    (job : Job) : Restored Url :=
  match sources.lookup job.spec.source with
  | none => r
  | some reference =>
    match reference.url with
    -- a link kept out of the database cannot be fetched again unattended
    | none => r
    | some url =>
      -- policy is what this run was started with
      if reference.allowHttp ∧ !config.allowHttp then r
      else
        match SourceBinding.new U url none none reference.allowHttp [] with
        | .error _ => r
        | .ok binding =>
          match r.transport.bind job.spec.source binding with
          | (.error _, _) => r
          | (.ok (), transport) =>
            ⟨transport, if job.state = .queued ∨ job.state = .retryWait then r.jobs ++ [job] else r.jobs⟩

/-- `Service::restore`: the engine as it is before it serves, and the jobs for the scheduler. -/
def restore (config : EngineConfig) (s : Engine Url) : Except AppError (Engine Url × List Job) := do
  let sources ← s.references.storedSources.mapError appError
  let jobs ← (Persistence.jobs s.desk.store).mapError appError
  let restored := jobs.foldl (restoreJob U config sources) ⟨.empty, []⟩
  return ({ s with
    transport := restored.transport
    registry := s.references.storedDestinations.foldl (fun map e ↦ map.insert e.1 e.2) ∅
    commands := [] }, restored.jobs)

/-! ### Lives -/

/-- A call is named by the service that answers it and its request. -/
structure Call where
  service : Service
  request : AddRequest
deriving DecidableEq

namespace Call

def allowHttp (x : Call) : Bool := x.request.allowHttp && x.service.config.allowHttp

def source (x : Call) : SourceRef := sourceRef sha256 x.request.url x.allowHttp

def destination (x : Call) : DestinationRef := destinationRef sha256 x.request.destination

def key (x : Call) : ReceiptKey := requestKey sha256 x.request x.allowHttp

end Call

/-- How a call has ended; one that died with its process has not. -/
abbrev Ended := Option (Except EngineError JobId)

def system : System (Engine Url) Call (Port Url) Answer Ended Choice AddDownload.Transaction where
  program x := do
    let answer ← (add U sha256 x.service x.request).run
    return some answer
  serve := Engine.serve
  disturb s transaction := { s with desk := s.desk.commit transaction }

abbrev Step := Move AddRequest Choice AddDownload.Transaction

abbrev Calls (Url : Type) := Pool (Engine Url) Call (Port Url) (@Answer Url) Ended

/-- One process: which service it is, and what happens while it runs. -/
structure Life where
  service : Service
  steps : List Step

/-- A request is answered by the service of its life. -/
def named (service : Service) : Step → Move Call Choice AddDownload.Transaction
  | .start request => .start ⟨service, request⟩
  | .advance n c => .advance n c
  | .disturb e => .disturb e

/-- A call dies with its process. -/
def die : Prog (Port Url) Answer Ended → Prog (Port Url) Answer Ended
  | .done ended => .done ended
  | .call _ _ => .done none

/-- The engine is opened on what the last process left. -/
def reborn (s : Engine Url) (P : Calls Url) : Calls Url := ⟨s, P.procs.map fun e ↦ (e.1, die e.2)⟩

/-- An engine that cannot read its database does not serve. -/
def live (P : Calls Url) (life : Life) : Calls Url :=
  match restore U life.service.config P.shared with
  | .error _ => reborn P.shared P
  | .ok (s, _) => (system U sha256).run (reborn s P) (life.steps.map (named life.service))

/-- **Every step** of these lives finds the engine as `C` says. -/
def EachStep (C : Calls Url → Move Call Choice AddDownload.Transaction → Prop) :
    Calls Url → List Life → Prop
  | _, [] => True
  | P, life :: lives =>
    (match restore U life.service.config P.shared with
      | .error _ => True
      | .ok (s, _) =>
        (system U sha256).Throughout C (reborn s P) (life.steps.map (named life.service))) ∧
      EachStep C (live U sha256 P life) lives

instance decidableEachStep (C : Calls Url → Move Call Choice AddDownload.Transaction → Prop)
    [∀ P move, Decidable (C P move)] (P : Calls Url) (lives : List Life) :
    Decidable (EachStep U sha256 C P lives) :=
  match lives with
  | [] => inferInstanceAs (Decidable True)
  | life :: lives =>
    have hlife : Decidable (match restore U life.service.config P.shared with
      | .error _ => True
      | .ok (s, _) =>
        (system U sha256).Throughout C (reborn s P) (life.steps.map (named life.service))) :=
      match restore U life.service.config P.shared with
      | .error _ => inferInstanceAs (Decidable True)
      | .ok (_, _) => inferInstance
    have := decidableEachStep C (live U sha256 P life) lives
    inferInstanceAs (Decidable (_ ∧ _))

/-- The state at any point of the last of these lives. -/
def after (limits : Persistence.Limits) (lives : List Life) : Calls Url :=
  lives.foldl (live U sha256) ⟨.init limits, []⟩

/-! ### One link -/

def Sample.limits : Persistence.Limits := ⟨4, 8, by decide, by decide, by decide, by decide⟩

def Sample.service : Service := ⟨⟨1000, true⟩, ["state"], none⟩

def Sample.request (destination : String) (sensitive allowHttp : Bool) : AddRequest :=
  ⟨"https://a/f", destination, sensitive, none, 100, allowHttp⟩

/-- The hashes of what is hashed for this link. -/
def Sample.hashes : List (Bytes × ℕ) :=
  let source := fun allowHttp ↦ framed (ascii "FHD.source.v1" ++ [0]) [ascii "https://a/f", flag allowHttp]
  let destination := fun path ↦ framed (ascii "FHD.destination.v1" ++ [0]) [ascii path]
  let request := fun path allowHttp ↦ framed (ascii "FHD.request.v1" ++ [0])
    [ascii "https://a/f", ascii path, le64 100, flag allowHttp]
  [(source false, 0x1c6fd7079cf3602dc36830552974146825e036f02c8863873cde8ef8bd8f83ba),
    (source true, 0x5eaefc6fc09ff1b33ee2419d75796825884c1ac01b187e1b5d20594ac5e2ffc6),
    (destination "/d/a", 0xd1afa1dfed5b3bef5ac32aecc945e80a42fbfe958de75aa7058979e73a142871),
    (destination "/d/b", 0xdfffc3f66cf54b8e1c1e71c062de4d8673e1def3248f9dae010be9ce8642c58f),
    (request "/d/a" false, 0xfd5346391265782413302fb2f48f93bf0d6c6864efb67510afceabd0683ab87b),
    (request "/d/a" true, 0x2d76f7e2b88266ab2aa3f334465450ab004e51ffdc42483942939ac7f15e403b),
    (request "/d/b" false, 0x2ef339b0cf933b3e82f85d0902dcd47d8bf706e6e536063f9c0cf21cfaefd704),
    (request "/d/b" true, 0xe7e7850cf5040979c6d9d21cf922469254f72f7a03e334498b588672fa6e3d65)]

def Sample.hashOf (message : Bytes) : Digest :=
  let hash := ((Sample.hashes.find? (·.1 = message)).map (·.2)).getD 0
  Vector.ofFn fun i ↦ UInt8.ofNat (hash / 256 ^ (31 - i.val))

/-- Call number `n` is made, and nothing goes wrong. -/
def Sample.adding (n : ℕ) (request : AddRequest) : List Step :=
  .start request :: List.replicate 12 (.advance n ⟨some ["d"], .answered⟩)

/-- What the calls of a run were named, and how they ended. -/
def Sample.ended (lives : List Life) : List (Call × Option Ended) :=
  (after Sample.urls Sample.hashOf Sample.limits lives).procs.map fun e ↦ (e.1, e.2.result?)

theorem Sample.procs_of_ended {lives : List Life} {n : ℕ} {x : Call} {ended : Ended}
    (h : (Sample.ended lives)[n]? = some (x, some ended)) :
    (after Sample.urls Sample.hashOf Sample.limits lives).procs[n]? = some (x, .done ended) := by
  rw [Sample.ended, List.getElem?_map] at h
  exact Prog.getElem?_of_result h

theorem Sample.names_of_ended {lives : List Life} {l : List (Call × Option Ended)}
    (h : Sample.ended lives = l) :
    (after Sample.urls Sample.hashOf Sample.limits lives).procs.map Prod.fst = l.map Prod.fst := by
  rw [← h, Sample.ended, List.map_map]
  rfl

end Daemon

end Fhd
