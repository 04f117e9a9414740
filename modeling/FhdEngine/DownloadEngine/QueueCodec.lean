import FhdEngine.DownloadEngine.QueueChecks

/-!
# Reading a saved queue back

`decode` reads what `encode` wrote field by field, and checks it again. `recheck` is those checks, made on the
snapshot itself: `decode_encode` says that decoding the bytes of a snapshot comes to exactly what `recheck`
comes to, so a snapshot is lost by being saved if and only if `recheck` refuses it.
-/

namespace Fhd.DownloadEngine

open Fallible
open Reading (Reads bytesOf numberOf length_bytesOf numberOf_bytesOf failIf)

/-! ### Single values -/

section Values

theorem length_put (value : UInt64) : (put value).length = 8 := length_bytesOf _ _

theorem number_put (value : UInt64) : UInt64.ofNat (numberOf (put value)) = value := by
  rw [put, numberOf_bytesOf (by have := value.toNat_lt; omega), UInt64.ofNat_toNat]

theorem toNat_len {n : ℕ} (h : n < 2 ^ 64) : (UInt64.ofNat n).toNat = n := by
  rw [UInt64.toNat_ofNat', Nat.mod_eq_of_lt h]

theorem reads_take {count : ℕ} {text : Bytes} (h : text.length = count) :
    Reads (Reader.take count) text (.ok text) := .take h

theorem reads_byte (b : UInt8) : Reads Reader.byte [b] (.ok b) := (reads_take rfl : Reads (Reader.take 1) [b] (.ok [b])).map

theorem reads_n (value : UInt64) : Reads Reader.n (put value) (.ok value) := by
  refine (reads_take (length_put value)).map.congr ?_
  show Except.ok (UInt64.ofNat (numberOf (put value))) = _
  rw [number_put]

/-- A count within its limit. -/
def recheckCount (max n : ℕ) : Except ManagerError ℕ := if n > max then .error .persistence else .ok n

theorem recheckCount_eq_ok {max n n' : ℕ} : recheckCount max n = .ok n' ↔ n ≤ max ∧ n' = n := by
  unfold recheckCount
  split
  next h => exact ⟨nofun, fun h' ↦ absurd h'.1 (Nat.not_le_of_gt h)⟩
  next h => exact ⟨fun h' ↦ ⟨Nat.le_of_not_gt h, (Except.ok.inj h').symm⟩, fun h' ↦ by rw [h'.2]⟩

theorem reads_bounded {max n : ℕ} (h : n < 2 ^ 64) :
    Reads (Reader.bounded max) (putLen n) (recheckCount max n) := by
  refine ((reads_n (.ofNat n)).bind_last fun _ hn ↦ Reads.failIf.bind_nil fun _ _ ↦ .pure _).congr ?_
  show (if (UInt64.ofNat n).toNat > max then Except.error ManagerError.persistence else .ok ()) >>= _ = _
  rw [toNat_len h, recheckCount]
  split <;> rfl

/-- A text within its limit. -/
def recheckText (max : ℕ) (text : String) : Except ManagerError String :=
  if text.utf8ByteSize > max then .error .persistence else .ok text

theorem reads_string {max : ℕ} {text : String} (h : text.utf8ByteSize < 2 ^ 64) :
    Reads (Reader.string max) (putString text) (recheckText max text) := by
  have htext : ((fromUtf8 (utf8 text)).elim (.error .persistence) .ok : Except ManagerError String) = .ok text := by
    rw [fromUtf8_utf8]
    rfl
  have hread : Reads (Reader.string max) (putString text)
      (recheckCount max text.utf8ByteSize >>= fun _ ↦ .ok text) := by
    refine (reads_bounded h).bind fun n hn ↦ ?_
    rw [(recheckCount_eq_ok.1 hn).2]
    exact (reads_take (length_utf8 text)).ok_last (Reads.ofExcept.congr htext)
  refine hread.congr ?_
  unfold recheckText recheckCount
  split <;> rfl

theorem reads_option {value : Option UInt64} (h : value ≠ some 0) :
    Reads Reader.option (putOption value) (.ok value) := by
  refine (reads_n _).map.congr ?_
  cases value with
  | none => rfl
  | some n =>
    show Except.ok (if n ≠ 0 then some n else none) = _
    rw [if_pos fun hn ↦ h (by rw [hn])]

theorem reads_boolean (value : Bool) : Reads Reader.boolean (putBool value) (.ok value) := by
  cases value
  · exact (reads_byte 0).ok_last (.pure _)
  · exact (reads_byte 1).ok_last (.pure _)

theorem reads_digest (value : Digest) : Reads Reader.digest value.toList (.ok value) := by
  refine (reads_take value.length_toList).ok_last ?_
  rw [dif_pos (by simp)]
  exact (Reads.pure _).congr (congrArg _ (Vector.toArray_inj.1 value.toArray.toArray_toList))

theorem reads_hash (value : Option Digest) : Reads Reader.hash (putHash value) (.ok value) := by
  refine (reads_boolean _).ok_bind ?_
  cases value with
  | none => exact .pure _
  | some digest => exact (reads_digest digest).map

theorem reads_priority (value : Priority) : Reads Reader.priority [value.code] (.ok value) := by
  refine (reads_byte value.code).ok_last ?_
  cases value <;> exact .pure _

/-- What is left of a state: the cause of a failure is forgotten. -/
def State.saved : State → State
  | .failed _ => .failed .workerFailed
  | state => state

theorem reads_state (value : State) : Reads Reader.state [value.code] (.ok value.saved) := by
  refine (reads_byte value.code).ok_last ?_
  cases value <;> exact .pure _

theorem recheckText_eq_ok {max : ℕ} {text text' : String} :
    recheckText max text = .ok text' ↔ text.utf8ByteSize ≤ max ∧ text' = text := by
  unfold recheckText
  split
  next h => exact ⟨nofun, fun h' ↦ absurd h'.1 (Nat.not_le_of_gt h)⟩
  next h => exact ⟨fun h' ↦ ⟨Nat.le_of_not_gt h, (Except.ok.inj h').symm⟩, fun h' ↦ by rw [h'.2]⟩

end Values

section Paths

variable {Url UrlOrigin PathBuf : Type} (U : UrlLibrary Url UrlOrigin) (P : Paths PathBuf)
  (sha256 : Bytes → Digest)

/-! ### Options -/

def recheckPolicy (policy : RequestPolicy) : Except ManagerError RequestPolicy := do
  let auth ← recheckText 8192 (policy.authorization.getD "")
  let cookie ← recheckText 8192 (policy.cookie.getD "")
  let _ ← recheckCount 8 policy.redirectOrigins.length
  let origins ← policy.redirectOrigins.mapM (recheckText 16384)
  (RequestPolicy.new U (if auth ≠ "" then some auth else none) (if cookie ≠ "" then some cookie else none)
    origins).mapError fun _ ↦ .persistence

theorem length_putString (text : String) : (putString text).length = 8 + text.utf8ByteSize := by
  rw [putString, List.length_append, putLen, length_put, length_utf8]

theorem length_part_le {α : Type} (text : α → Bytes) {l : List α} {x : α} (h : x ∈ l) :
    (text x).length ≤ (l.flatMap text).length := by
  rw [List.length_flatMap]
  exact List.single_le_sum (fun _ _ ↦ Nat.zero_le _) _ (List.mem_map_of_mem h)

theorem length_le_flatMap {α : Type} {text : α → Bytes} {l : List α} (h : ∀ x ∈ l, text x ≠ []) :
    l.length ≤ (l.flatMap text).length := by
  induction l with
  | nil => rfl
  | cons x l ih =>
    obtain ⟨hx, hl⟩ := List.forall_mem_cons.1 h
    have := List.length_pos_iff.2 hx
    have := ih hl
    rw [List.flatMap_cons, List.length_append, List.length_cons]
    omega

theorem reads_policy {policy : RequestPolicy} (h : (putPolicy policy).length < 2 ^ 64) :
    Reads (Reader.policy U) (putPolicy policy) (recheckPolicy U policy) := by
  simp only [putPolicy, List.append_assoc, List.length_append, length_putString] at h ⊢
  have hcount : policy.redirectOrigins.length ≤ (policy.redirectOrigins.flatMap putString).length :=
    length_le_flatMap fun origin _ ↦ List.ne_nil_of_length_pos (by rw [length_putString]; omega)
  refine (reads_string (by omega)).bind fun auth hauth ↦ (reads_string (by omega)).bind fun cookie hcookie ↦
    (reads_bounded (by omega)).bind fun count hc ↦ ?_
  rw [(recheckCount_eq_ok.1 hc).2]
  refine (Reads.times fun origin horigin ↦ reads_string ?_).bind_last fun origins _ ↦ Reads.ofExcept
  have := length_part_le putString horigin
  rw [length_putString] at this
  omega

/-- The options, with the policy made again. -/
def recheckOptions (options : Options PathBuf) : Except ManagerError (Options PathBuf) := do
  let _ ← recheckText 16384 options.url
  let _ ← recheckText 131072 ((P.toStr options.jobDir).getD "")
  let _ ← recheckText 255 options.outputName
  let requestPolicy ← recheckPolicy U options.requestPolicy
  return { options with requestPolicy }

theorem reads_options {options : Options PathBuf} {bytes : Bytes}
    (hbytes : encodeOptionsV2 P options = .ok bytes) (hlength : bytes.length < 2 ^ 64)
    (hrate : options.bytesPerSecond ≠ some 0) :
    Reads (Reader.options U P (magic 3)) bytes (recheckOptions U P options) := by
  unfold encodeOptionsV2 at hbytes
  cases hdir : P.toStr options.jobDir with
  | none =>
    rw [hdir] at hbytes
    cases hbytes
  | some jobDir =>
    rw [hdir] at hbytes
    cases hbytes
    simp only [List.append_assoc, List.length_append, length_putString] at hlength ⊢
    unfold recheckOptions
    rw [hdir]
    refine (reads_string (by omega)).bind fun url hurl ↦ (reads_string (by show jobDir.utf8ByteSize < _; omega)).bind
      fun dir hdir' ↦ (reads_string (by omega)).bind fun outputName hname ↦ ?_
    obtain ⟨-, rfl⟩ := recheckText_eq_ok.1 hurl
    obtain ⟨-, rfl⟩ := recheckText_eq_ok.1 hdir'
    obtain ⟨-, rfl⟩ := recheckText_eq_ok.1 hname
    refine (reads_hash _).ok_bind <| (reads_boolean _).ok_bind <| (reads_n _).ok_bind <| (reads_n _).ok_bind <|
      (reads_option hrate).ok_bind <| (reads_byte _).ok_bind ?_
    rw [if_pos (by decide)]
    refine (reads_policy U (by omega)).bind fun policy _ ↦ (reads_hash _).ok_last ?_
    rw [show P.ofStr _ = options.jobDir from P.ofStr_toStr _ _ hdir]
    exact .pure _

/-! ### Jobs, the queue and receipts -/

def refuse (c : Prop) [Decidable c] : Except ManagerError Unit := if c then .error .persistence else .ok ()

/-- A job after those before it, with what is left of its state. -/
def recheckJob (jobs : List (SavedJob PathBuf)) (job : SavedJob PathBuf) :
    Except ManagerError (SavedJob PathBuf) := do
  refuse (job.id.value = 0 ∨ ∃ other ∈ jobs, other.id = job.id)
  let options ← recheckOptions U P job.options
  refuse (job.attempts.toNat > 5 ∨ job.progress.toNat > options.maxDownloadBytes.toNat)
  return { job with options, state := job.state.saved }

theorem reads_job {job : SavedJob PathBuf} {bytes : Bytes} (hbytes : encodeJob P job = .ok bytes)
    (hlength : bytes.length < 2 ^ 64) (hrate : job.options.bytesPerSecond ≠ some 0)
    (jobs : List (SavedJob PathBuf)) :
    Reads (Reader.job U P (magic 3) jobs) bytes (recheckJob U P jobs job) := by
  unfold encodeJob at hbytes
  cases hoptions : encodeOptionsV2 P job.options with
  | error e =>
    rw [hoptions] at hbytes
    cases hbytes
  | ok options =>
    rw [hoptions] at hbytes
    cases hbytes
    simp only [List.append_assoc, List.length_append] at hlength ⊢
    have hread := reads_options U P hoptions (by omega) hrate
    exact (reads_n _).ok_bind <| Reads.failIf.bind_nil fun _ _ ↦ hread.bind fun options' _ ↦
      (reads_priority _).ok_bind <| (reads_state _).ok_bind <| (reads_n _).ok_bind <|
      (reads_byte _).ok_bind <| Reads.failIf.bind_nil fun _ _ ↦ .pure _

def recheckQueued (jobs : List (SavedJob PathBuf)) (queue : List JobId) (id : JobId) :
    Except ManagerError JobId := do
  refuse (id ∈ queue ∨ ¬∃ job ∈ jobs, job.id = id)
  return id

def recheckReceipt (jobs : List (SavedJob PathBuf)) (receipts : List Receipt) (receipt : Receipt) :
    Except ManagerError Receipt := do
  refuse (receipt.jobId.value = 0 ∨
    (∃ other ∈ receipts, other.keyHash = receipt.keyHash ∨ other.jobId = receipt.jobId) ∨
    receipt.removed = decide (∃ job ∈ jobs, job.id = receipt.jobId))
  return receipt

theorem reads_queued (jobs : List (SavedJob PathBuf)) (queue : List JobId) (id : JobId) :
    Reads (Reader.queued jobs queue) (put id.value) (recheckQueued jobs queue id) :=
  (reads_n id.value).ok_last <| Reads.failIf.bind_nil fun _ _ ↦ .pure _

theorem reads_receipt (jobs : List (SavedJob PathBuf)) (receipts : List Receipt) (receipt : Receipt) :
    Reads (Reader.receipt jobs receipts) (putReceipt receipt) (recheckReceipt jobs receipts receipt) := by
  simp only [putReceipt, List.append_assoc]
  exact (reads_digest _).ok_bind <| (reads_digest _).ok_bind <| (reads_n _).ok_bind <|
    (reads_boolean _).ok_last <| Reads.failIf.bind_nil fun _ _ ↦ .pure _

/-! ### The whole snapshot -/

def recheckConfig (c : Config) : Except ManagerError Config := do
  let _ ← recheckCount 32 c.maxActive
  let _ ← recheckCount 1024 c.maxJobs
  let _ ← recheckCount 32 c.maxPerOrigin
  let _ ← recheckCount 5 c.retry.maxAttempts.toNat
  c.validate
  return c

theorem reads_config {c : Config} (h : c.validate = .ok ()) :
    Reads Reader.config (putConfig c) (recheckConfig c) := by
  obtain ⟨hactive, hjobs, -, horigin, hattempts, hrate⟩ := bounds_of_validate h
  simp only [putConfig, List.append_assoc]
  refine (reads_bounded (by omega)).bind fun a ha ↦ (reads_bounded (by omega)).bind fun b hb ↦
    (reads_bounded (by omega)).bind fun d hd ↦ (reads_bounded (by omega)).bind fun e he ↦
      (reads_n _).ok_bind <| (reads_n _).ok_bind <| (reads_option (ne_zero_of_validLimit hrate)).ok_last ?_
  rw [(recheckCount_eq_ok.1 ha).2, (recheckCount_eq_ok.1 hb).2, (recheckCount_eq_ok.1 hd).2,
    (recheckCount_eq_ok.1 he).2, UInt8.ofNat_toNat]
  exact Reads.ofExcept.bind_nil fun _ _ ↦ .pure _

/-- The fields of a snapshot, read and checked one after the other. -/
def recheckFields (s : Snapshot PathBuf) : Except ManagerError (Option UInt64 × Snapshot PathBuf) := do
  let config ← recheckConfig s.config
  let _ ← recheckCount config.maxJobs s.jobs.length
  let jobs ← Reading.eachOf (recheckJob U P) s.jobs []
  let _ ← recheckCount jobs.length s.queue.length
  let queue ← Reading.eachOf (recheckQueued jobs) s.queue []
  let _ ← recheckCount maxReceipts s.receipts.length
  let receipts ← Reading.eachOf (recheckReceipt jobs) s.receipts []
  return (some s.lastId, ⟨0, receipts, config, jobs, queue⟩)

/-- **What decoding makes of a snapshot.** -/
def recheck (s : Snapshot PathBuf) : Except ManagerError (Snapshot PathBuf) := do
  let (_, fields) ← recheckFields U P s
  refuse (s.lastId < maximumId fields.jobs ∨ ∃ receipt ∈ fields.receipts, receipt.jobId.value > s.lastId)
  return { fields with lastId := s.lastId }

/-- The bytes of a job that can be written. -/
def written (job : SavedJob PathBuf) : Bytes := (encodeJob P job).toOption.getD []

theorem encodeJob_written {job : SavedJob PathBuf} {text : Bytes} (h : encodeJob P job = .ok text) :
    written P job = text := by
  unfold written
  rw [h]
  rfl

theorem written_of_mapM {jobs : List (SavedJob PathBuf)} {texts : List Bytes}
    (h : jobs.mapM (encodeJob P) = .ok texts) :
    (∀ job ∈ jobs, encodeJob P job = .ok (written P job)) ∧ texts.flatten = jobs.flatMap (written P) := by
  induction jobs generalizing texts with
  | nil =>
    rw [List.mapM_nil] at h
    injection h with h
    rw [← h]
    exact ⟨fun _ hjob ↦ absurd hjob List.not_mem_nil, rfl⟩
  | cons job jobs ih =>
    rw [List.mapM_cons] at h
    obtain ⟨text, hjob, h⟩ := bind_eq_ok.1 h
    obtain ⟨rest, hjobs, h⟩ := bind_eq_ok.1 h
    injection h with h
    obtain ⟨hall, hflat⟩ := ih hjobs
    refine ⟨List.forall_mem_cons.2 ⟨by rw [encodeJob_written P hjob, hjob], hall⟩, ?_⟩
    rw [← h, List.flatten_cons, hflat, List.flatMap_cons, encodeJob_written P hjob]

theorem written_ne_nil {job : SavedJob PathBuf} (h : encodeJob P job = .ok (written P job)) :
    written P job ≠ [] := by
  obtain ⟨options, -, h⟩ := map_eq_ok.1 h
  rw [← h]
  simp

/-- What `encode` wrote. -/
theorem encode_eq_ok {s : Snapshot PathBuf} {bytes : Bytes} :
    encode P sha256 s = .ok bytes ↔ ∃ plain, encodePlain P s = .ok plain ∧ plain.length ≤ maxPlain ∧
      bytes = plain ++ (sha256 plain).toList := by
  refine bind_eq_ok.trans (exists_congr fun plain ↦ and_congr_right fun _ ↦ ?_)
  by_cases hlong : plain.length > maxPlain
  · rw [if_pos hlong]
    exact ⟨nofun, fun h ↦ absurd h.1 (Nat.not_le_of_gt hlong)⟩
  · rw [if_neg hlong]
    exact ⟨fun h ↦ ⟨Nat.le_of_not_gt hlong, (Except.ok.inj h).symm⟩, fun h ↦ congrArg _ h.2.symm⟩

theorem encodePlain_eq_ok {s : Snapshot PathBuf} {plain : Bytes} (h : encodePlain P s = .ok plain) :
    (∀ job ∈ s.jobs, encodeJob P job = .ok (written P job)) ∧ s.receipts.length ≤ maxReceipts ∧
      plain = magic 3 ++ putConfig s.config ++ put s.lastId ++ putLen s.jobs.length ++
        s.jobs.flatMap (written P) ++ putLen s.queue.length ++ s.queue.flatMap (fun id ↦ put id.value) ++
        putLen s.receipts.length ++ s.receipts.flatMap putReceipt := by
  obtain ⟨texts, hjobs, h⟩ := bind_eq_ok.1 h
  obtain ⟨hall, hflat⟩ := written_of_mapM P hjobs
  by_cases hmany : s.receipts.length > maxReceipts
  · rw [if_pos hmany] at h
    cases h
  · rw [if_neg hmany] at h
    rw [← Except.ok.inj h, hflat]
    exact ⟨hall, Nat.le_of_not_gt hmany, rfl⟩

theorem reads_jobs {jobs : List (SavedJob PathBuf)} (hall : ∀ job ∈ jobs, encodeJob P job = .ok (written P job))
    (hrates : ∀ job ∈ jobs, job.options.bytesPerSecond ≠ some 0)
    (hlength : (jobs.flatMap (written P)).length < 2 ^ 64) :
    Reads (Reader.jobs U P (magic 3) jobs.length) (jobs.flatMap (written P))
      (Reading.eachOf (recheckJob U P) jobs []) :=
  Reads.each (fun job hjob before ↦ reads_job U P (hall job hjob)
    ((length_part_le (written P) hjob).trans_lt hlength) (hrates job hjob) before) []

theorem reads_snapshot {s : Snapshot PathBuf} {plain : Bytes} (h : encodePlain P s = .ok plain)
    (hlength : plain.length < 2 ^ 64) (hconfig : s.config.validate = .ok ())
    (hrates : ∀ job ∈ s.jobs, job.options.bytesPerSecond ≠ some 0) :
    Reads (Reader.snapshot U P) plain (recheckFields U P s) := by
  obtain ⟨hall, hmany, rfl⟩ := encodePlain_eq_ok P h
  have hjobs : s.jobs.length ≤ (s.jobs.flatMap (written P)).length :=
    length_le_flatMap fun job hjob ↦ written_ne_nil P (hall job hjob)
  have hqueue : s.queue.length ≤ (s.queue.flatMap fun id ↦ put id.value).length :=
    length_le_flatMap fun id _ ↦ List.ne_nil_of_length_pos (by rw [length_put]; omega)
  simp only [List.append_assoc, List.length_append] at hlength ⊢
  have hid : Reads (if magic 3 ≠ magic 1 then some <$> Reader.n else pure none) (put s.lastId) (.ok (some s.lastId)) := by
    rw [if_pos (by decide)]
    exact (reads_n _).map
  refine (reads_take (by decide)).ok_bind <| (Reads.failIf_neg (by decide)).ok_nil ?_
  refine (reads_config hconfig).bind fun config _ ↦ hid.ok_bind ?_
  refine (reads_bounded (by omega)).bind fun count hcount ↦ ?_
  rw [(recheckCount_eq_ok.1 hcount).2]
  refine (reads_jobs U P hall hrates (by omega)).bind fun jobs _ ↦ ?_
  refine (reads_bounded (by omega)).bind fun count hcount ↦ ?_
  rw [(recheckCount_eq_ok.1 hcount).2]
  refine (Reads.each (fun id _ queue ↦ reads_queued jobs queue id) []).bind fun queue _ ↦ ?_
  rw [if_pos (by decide)]
  refine (reads_bounded (lt_of_le_of_lt hmany (by decide))).bind fun count hcount ↦ ?_
  rw [(recheckCount_eq_ok.1 hcount).2]
  exact (Reads.each (fun receipt _ before ↦ reads_receipt jobs before receipt) []).bind_last
    fun receipts _ ↦ .pure _

theorem lastId_of_recheckFields {s : Snapshot PathBuf} {read : Option UInt64 × Snapshot PathBuf}
    (h : recheckFields U P s = .ok read) : read.1 = some s.lastId := by
  obtain ⟨_, -, h⟩ := bind_eq_ok.1 h
  obtain ⟨_, -, h⟩ := bind_eq_ok.1 h
  obtain ⟨_, -, h⟩ := bind_eq_ok.1 h
  obtain ⟨_, -, h⟩ := bind_eq_ok.1 h
  obtain ⟨_, -, h⟩ := bind_eq_ok.1 h
  obtain ⟨_, -, h⟩ := bind_eq_ok.1 h
  obtain ⟨_, -, h⟩ := bind_eq_ok.1 h
  rw [← Except.ok.inj h]

theorem length_of_encodePlain {s : Snapshot PathBuf} {plain : Bytes} (h : encodePlain P s = .ok plain) :
    9 ≤ plain.length := by
  obtain ⟨-, -, rfl⟩ := encodePlain_eq_ok P h
  simp only [List.append_assoc, List.length_append]
  exact Nat.le_add_right_of_le (by decide)

/-- **Decoding what was encoded** comes to what the checks on the snapshot itself come to. -/
theorem decode_encode {s : Snapshot PathBuf} {bytes : Bytes} (h : encode P sha256 s = .ok bytes)
    (hconfig : s.config.validate = .ok ()) (hrates : ∀ job ∈ s.jobs, job.options.bytesPerSecond ≠ some 0) :
    decode U P sha256 bytes = recheck U P s := by
  obtain ⟨plain, hplain, hmax, rfl⟩ := (encode_eq_ok P sha256).1 h
  have hread := (reads_snapshot U P hplain (lt_of_le_of_lt hmax (by decide)) hconfig hrates).run_all
  have hmin := length_of_encodePlain P hplain
  have hlength : (plain ++ (sha256 plain).toList).length = plain.length + 32 := by
    rw [List.length_append, Vector.length_toList]
  have hcut : (plain ++ (sha256 plain).toList).length - 32 = plain.length := by rw [hlength]; omega
  unfold decode
  rw [if_neg (by omega), hcut, List.take_left, List.drop_left]
  show (if (sha256 plain).toList ≠ (sha256 plain).toList then _ else _) = _
  rw [if_neg (by simp), hread, recheck]
  cases hfields : recheckFields U P s with
  | error e => rfl
  | ok read =>
    obtain ⟨saved, fields⟩ := read
    obtain rfl : saved = some s.lastId := lastId_of_recheckFields U P hfields
    show (if s.lastId < maximumId fields.jobs ∨ ∃ receipt ∈ fields.receipts, receipt.jobId.value > s.lastId then
      (Except.error .persistence : Except ManagerError (Snapshot PathBuf))
      else .ok { fields with lastId := s.lastId }) = refuse _ >>= fun _ ↦ .ok { fields with lastId := s.lastId }
    unfold refuse
    split <;> rfl

end Paths

end Fhd.DownloadEngine
