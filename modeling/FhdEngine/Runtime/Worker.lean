import FhdEngine.Http.Stream
import FhdEngine.Runtime.Session

/-!
# A worker

`fetch` of `crates/runtime/src/coordinator.rs`: one connection fetches a leased range and hands full buffers
to the writer lane, with the buffers of `crates/runtime/src/buffers.rs` and the checks of
`crates/runtime/src/writer.rs`. Every wait of it may be cut short by the cancellation.
-/

namespace Fhd

open Process (Does Ensures Environment Prog Reaches Returns Routine)

inductive BufferError
  | invalidBudget
  | invalidLength
  | cancelled
  | closed
deriving DecidableEq, Repr

/-- Blocks of one length, of which so many may be out. -/
structure BufferPool where
  block : ℕ
  blocks : ℕ
  block_pos : 0 < block
  blocks_pos : 0 < blocks
  /-- Only a small budget has smaller blocks, and then a single one. -/
  block_eq : block = maxBuffer ∨ block < maxBuffer ∧ blocks = 1
deriving Repr

namespace BufferPool

def new (budget : ℕ) : Except BufferError BufferPool :=
  if h : 1 ≤ budget ∧ budget ≤ 512 * 1024 * 1024 then
    .ok {
      block := min budget maxBuffer
      blocks := budget / min budget maxBuffer
      block_pos := by rw [maxBuffer]; omega
      blocks_pos := Nat.div_pos (Nat.min_le_left _ _) (by rw [maxBuffer]; omega)
      block_eq := by
        rcases Nat.lt_or_ge budget maxBuffer with hlt | hge
        · rw [Nat.min_eq_left hlt.le, Nat.div_self h.1]
          exact .inr ⟨hlt, rfl⟩
        · exact .inl (Nat.min_eq_right hge) }
  else .error .invalidBudget

def capacity (pool : BufferPool) : ℕ := pool.block * pool.blocks

/-- What a worker takes for its blocks is what the pool has. -/
theorem min_capacity (pool : BufferPool) : min maxBuffer pool.capacity = pool.block := by
  have hle : pool.block ≤ pool.capacity := Nat.le_mul_of_pos_right _ pool.blocks_pos
  rcases pool.block_eq with heq | ⟨hlt, hone⟩
  · rw [← heq, Nat.min_eq_left hle]
  · rw [capacity, hone, Nat.mul_one, Nat.min_eq_right hlt.le]

end BufferPool

/-! ### The task -/

namespace Worker

/-- What a worker waits for. -/
inductive WorkerPort
  | fetch (source : SourceRef) (range : ByteRange) (validator : Option Digest)
  | permit
  | read (length : ℕ)
  | write (offset : ℕ) (bytes : Bytes)

/-- A wait that was cancelled has no answer. -/
def WorkerAnswer : WorkerPort → Type
  | .fetch .. => Option (Except TransportError Unit)
  | .permit => Except BufferError Unit
  | .read length => Option (Except TransportError { bytes : Bytes // bytes.length ≤ length })
  | .write .. => Except WriterError Unit

abbrev WorkerM (ε : Type) := Routine ε Unit WorkerPort WorkerAnswer

def selected {α : Type} : Option (Except TransportError α) → Except Failure α
  | none => .error .cancelled
  | some (.error e) => .error (.transport e)
  | some (.ok a) => .ok a

theorem selected_eq_ok {α : Type} {answer : Option (Except TransportError α)} {a : α}
    (h : selected answer = .ok a) : answer = some (.ok a) := by
  rcases answer with _ | _ | b
  · cases h
  · cases h
  · rw [Except.ok.inj h]

def acquire (pool : BufferPool) (length : ℕ) : WorkerM BufferError Unit := do
  Routine.failIf (length = 0 ∨ length > pool.block) .invalidLength
  let permit ← Routine.ask WorkerPort.permit
  MonadExcept.ofExcept (m := WorkerM BufferError) permit

/-- `Writer::write` of a lane for `lane`. -/
def writeThrough (lane spec : PartSpec) (offset : ℕ) (buffer : Bytes) : WorkerM WriterError Unit := do
  Routine.failIf (spec ≠ lane) .wrongGeneration
  Routine.failIf ((checkedAdd offset buffer.length).all (· > lane.size)) .bounds
  let reply ← Routine.ask (WorkerPort.write offset buffer)
  MonadExcept.ofExcept (m := WorkerM WriterError) reply

/-- The inner loop: reads until the buffer is full. -/
def fill (length : ℕ) (buffer : Bytes) : WorkerM Failure Bytes :=
  if buffer.length < length then do
    let answer ← Routine.ask (WorkerPort.read (length - buffer.length))
    let read ← MonadExcept.ofExcept (m := WorkerM Failure) (selected answer)
    if read.1 = [] then throw (.transport .transient) else fill length (buffer ++ read.1)
  else return buffer
termination_by length - buffer.length
decreasing_by
  have := List.length_pos_iff.2 ‹¬_ = []›
  rw [List.length_append]
  omega

/-- How much of the rest of the range goes into one buffer. -/
def blockLength (pool : BufferPool) (range : ByteRange) (offset : ℕ) : ℕ :=
  min (min maxBuffer pool.capacity) (range.stop - offset)

theorem blockLength_pos {pool : BufferPool} {range : ByteRange} {offset : ℕ} (h : offset < range.stop) :
    0 < blockLength pool range offset := by
  have := pool.block_pos
  rw [blockLength, pool.min_capacity]
  omega

theorem add_blockLength_le {pool : BufferPool} {range : ByteRange} {offset : ℕ} (h : offset ≤ range.stop) :
    offset + blockLength pool range offset ≤ range.stop := by
  have : blockLength pool range offset ≤ range.stop - offset := Nat.min_le_right _ _
  omega

/-- The outer loop: from this offset to the end of the range. -/
def transferFrom (spec : PartSpec) (pool : BufferPool) (range : ByteRange) (offset : ℕ) : WorkerM Failure Unit :=
  if offset < range.stop then do
    ExceptT.adapt (fun _ ↦ .cancelled) (acquire pool (blockLength pool range offset))
    let buffer ← fill (blockLength pool range offset) []
    ExceptT.adapt .writer (writeThrough spec spec offset buffer)
    transferFrom spec pool range (offset + blockLength pool range offset)
  else return ()
termination_by range.stop - offset
decreasing_by
  have : 0 < blockLength pool range offset := blockLength_pos ‹_›
  omega

def fetch (spec : PartSpec) (pool : BufferPool) (source : SourceRef) (range : ByteRange)
    (validator : Option Digest) : WorkerM Failure Unit := do
  let stream ← Routine.ask (WorkerPort.fetch source range validator)
  MonadExcept.ofExcept (m := WorkerM Failure) (selected stream)
  transferFrom spec pool range range.start
  let probe ← Routine.ask (WorkerPort.read 1)
  let tail ← MonadExcept.ofExcept (m := WorkerM Failure) (selected probe)
  if tail.1 ≠ [] then throw (.transport .transient)

/-! ### One connection and one lane -/

/-- The stream, the body it reads from, what the worker handed to the lane, and what of it the lane wrote. -/
structure Wire where
  stream : HttpStream
  body : Body
  handed : List (ℕ × Bytes)
  written : List (ℕ × Bytes)

def Wire.opened (range : ByteRange) (body : Body) : Wire := ⟨.opened range, body, [], []⟩

/-- How the waits of a worker may end. -/
inductive Carries : Environment Wire WorkerPort WorkerAnswer
  | fetch {w : Wire} {source : SourceRef} {range : ByteRange} {validator : Option Digest}
      (answer : Option (Except TransportError Unit)) : Carries w (.fetch source range validator) answer w
  | permit {w : Wire} (answer : Except BufferError Unit) : Carries w .permit answer w
  /-- A dropped read leaves its stream anywhere. -/
  | dropped {w : Wire} {length : ℕ} (stream : HttpStream) (body : Body) :
      Carries w (.read length) none { w with stream, body }
  | read {w : Wire} {length : ℕ} (answer : Except TransportError { bytes : Bytes // bytes.length ≤ length })
      {stream : HttpStream} {body : Body}
      (hread : w.stream.read length w.body = (answer.map (·.1), stream, body)) :
      Carries w (.read length) (some answer) { w with stream, body }
  | wrote {w : Wire} {offset : ℕ} {bytes : Bytes} :
      Carries w (.write offset bytes) (.ok ())
        { w with handed := w.handed ++ [(offset, bytes)], written := w.written ++ [(offset, bytes)] }
  /-- A lane that fails, or whose reply is lost, may have written or not. -/
  | unwritten {w : Wire} {offset : ℕ} {bytes : Bytes} (error : WriterError) {written : List (ℕ × Bytes)}
      (hwritten : written = w.written ∨ written = w.written ++ [(offset, bytes)]) :
      Carries w (.write offset bytes) (.error error)
        { w with handed := w.handed ++ [(offset, bytes)], written }

/-- The bytes of some pieces, one after the other. -/
def bytesOf (pieces : List (ℕ × Bytes)) : Bytes := pieces.flatMap (·.2)

/-- Consecutive pieces of the body, none of them empty, from the start of the range and within it. -/
structure InLease (range : ByteRange) (body : Body) (handed : List (ℕ × Bytes)) : Prop where
  consecutive : ∀ front piece back, handed = front ++ piece :: back →
    piece.1 = range.start + (bytesOf front).length ∧ piece.2 ≠ []
  within : range.start + (bytesOf handed).length ≤ range.stop
  inOrder : bytesOf handed <+: body.bytes

/-- Between two blocks: everything handed on so far was written, and the stream stands right behind it. -/
structure Standing (range : ByteRange) (body : Body) (offset : ℕ) (w : Wire) : Prop where
  inLease : InLease range body w.handed
  offset_eq : offset = range.start + (bytesOf w.handed).length
  written_eq : w.written = w.handed
  holds : w.stream.Holds body range.len (bytesOf w.handed) w.body

theorem standing_opened (range : ByteRange) (body : Body) :
    Standing range body range.start (Wire.opened range body) where
  inLease := {
    consecutive := fun front piece back h ↦ by cases front <;> cases h
    within := range.start_lt.le
    inOrder := List.nil_prefix }
  offset_eq := rfl
  written_eq := rfl
  holds := HttpStream.holds_opened range body

/-! ### What a worker hands on -/

section Does

variable {range : ByteRange} {total : Body} {w : Wire} {spec : PartSpec} {pool : BufferPool}

/-- What the lane was handed, whatever else has changed. -/
abbrev Keeps (range : ByteRange) (total : Body) (w : Wire) : Prop := InLease range total w.handed

theorem bytesOf_concat (pieces : List (ℕ × Bytes)) (offset : ℕ) (bytes : Bytes) :
    bytesOf (pieces ++ [(offset, bytes)]) = bytesOf pieces ++ bytes := by
  simp [bytesOf]

/-- The next piece, taken from the body right behind the last one. -/
theorem InLease.concat {handed : List (ℕ × Bytes)} {offset : ℕ} {bytes : Bytes}
    (h : InLease range total handed) (hoffset : offset = range.start + (bytesOf handed).length)
    (hbytes : bytes ≠ []) (hstop : offset + bytes.length ≤ range.stop)
    (horder : bytesOf handed ++ bytes <+: total.bytes) : InLease range total (handed ++ [(offset, bytes)]) where
  consecutive := fun front piece back heq ↦ by
    rcases List.eq_nil_or_concat back with rfl | ⟨back', last, rfl⟩
    · obtain ⟨rfl, hpiece⟩ := List.append_inj' heq rfl
      cases hpiece
      exact ⟨hoffset, hbytes⟩
    · rw [List.concat_eq_append, ← List.cons_append, ← List.append_assoc] at heq
      exact h.consecutive front piece back' (List.append_inj' heq rfl).1
  within := by
    rw [bytesOf_concat, List.length_append]
    omega
  inOrder := by rwa [bytesOf_concat]

/-- Reading leaves alone what was handed on. -/
structure Filled (range : ByteRange) (total : Body) (length : ℕ) (w : Wire) (buffer : Bytes) (w' : Wire) : Prop where
  length_eq : buffer.length = length
  holds : w'.stream.Holds total range.len (bytesOf w.handed ++ buffer) w'.body
  handed_eq : w'.handed = w.handed
  written_eq : w'.written = w.written

/-- **The inner loop** fills the buffer with the next bytes of the body. -/
theorem fill_does (length : ℕ) (buffer : Bytes) {w₀ : Wire} (hlength : buffer.length ≤ length)
    (hhanded : w.handed = w₀.handed) (hwritten : w.written = w₀.written) (hkeeps : Keeps range total w)
    (hholds : w.stream.Holds total range.len (bytesOf w₀.handed ++ buffer) w.body) :
    Does Carries (Keeps range total) () w (fill length buffer)
      (fun buffer _ w' ↦ Filled range total length w₀ buffer w') fun _ _ _ ↦ True := by
  induction buffer using fill.induct length generalizing w with
  | case1 buffer hlt ih =>
    rw [fill, if_pos hlt]
    refine Does.ask fun answer w' hcall ↦ ?_
    cases hcall with
    | dropped stream body => exact ⟨hkeeps, Does.ofExcept (fun _ _ ↦ trivial) nofun⟩
    | read answer hread =>
      refine ⟨hkeeps, Does.ofExcept (fun _ _ ↦ trivial) fun read hanswer ↦ ?_⟩
      cases selected_eq_ok hanswer
      have hnext := (hholds.read_eq_ok hread).holds
      rw [List.append_assoc] at hnext
      split
      next => exact Does.throw trivial
      next hsome =>
        refine ih _ hsome ?_ hhanded hwritten hkeeps hnext
        have := read.2
        rw [List.length_append]
        omega
  | case2 buffer hfull =>
    rw [fill, if_neg hfull]
    exact ⟨Nat.le_antisymm hlength (Nat.le_of_not_lt hfull), hholds, hhanded, hwritten⟩

theorem acquire_does {length : ℕ} (hkeeps : Keeps range total w) :
    Does Carries (Keeps range total) () w (acquire pool length) (fun _ _ w' ↦ w' = w) fun _ _ _ ↦ True := by
  refine Does.failIf (fun _ ↦ trivial) fun _ ↦ Does.ask fun answer w' hcall ↦ ?_
  cases hcall with
  | permit =>
    refine ⟨hkeeps, ?_⟩
    cases answer with
    | ok => exact Does.pure rfl
    | error e => exact Does.throw trivial

/-- One block: what was filled follows what was handed on. -/
theorem writeThrough_does (spec : PartSpec) {offset length : ℕ} {buffer : Bytes} {w₀ : Wire}
    (h : Standing range total offset w₀) (hfilled : Filled range total length w₀ buffer w)
    (hpos : 0 < length) (hle : offset + length ≤ range.stop) :
    Does Carries (Keeps range total) () w (writeThrough spec spec offset buffer)
      (fun _ _ w' ↦ Standing range total (offset + length) w') fun _ _ _ ↦ True := by
  have hbytes : buffer ≠ [] := List.length_pos_iff.1 (by rw [hfilled.length_eq]; exact hpos)
  have hnext : InLease range total (w.handed ++ [(offset, buffer)]) := by
    rw [hfilled.handed_eq]
    exact h.inLease.concat h.offset_eq hbytes (by rwa [hfilled.length_eq]) hfilled.holds.isPrefix
  refine Does.failIf (fun _ ↦ trivial) fun _ ↦ Does.failIf (fun _ ↦ trivial) fun _ ↦
    Does.ask fun answer w' hcall ↦ ?_
  cases hcall with
  | wrote =>
    refine ⟨hnext, Does.pure ⟨hnext, ?_, ?_, ?_⟩⟩
    · show offset + length = range.start + (bytesOf (w.handed ++ [(offset, buffer)])).length
      rw [bytesOf_concat, List.length_append, hfilled.length_eq, hfilled.handed_eq, h.offset_eq, Nat.add_assoc]
    · show w.written ++ _ = w.handed ++ _
      rw [hfilled.written_eq, hfilled.handed_eq, h.written_eq]
    · show w.stream.Holds total range.len (bytesOf (w.handed ++ [(offset, buffer)])) w.body
      rw [bytesOf_concat, hfilled.handed_eq]
      exact hfilled.holds
  | unwritten error hwritten => exact ⟨hnext, Does.throw trivial⟩

/-- **The outer loop** hands on the whole range, block after block. -/
theorem transferFrom_does {offset : ℕ} (h : Standing range total offset w) (hle : offset ≤ range.stop) :
    Does Carries (Keeps range total) () w (transferFrom spec pool range offset)
      (fun _ _ w' ↦ Standing range total range.stop w') fun _ _ _ ↦ True := by
  induction offset using transferFrom.induct pool range generalizing w with
  | case1 offset hlt ih =>
    rw [transferFrom, if_pos hlt]
    refine Does.bind (Does.adapt (acquire_does h.inLease)) fun _ _ w' hw ↦ ?_
    subst hw
    have hfill := fill_does (blockLength pool range offset) [] (Nat.zero_le _) rfl rfl h.inLease
      (by rw [List.append_nil]; exact h.holds)
    refine Does.bind hfill fun buffer _ w₁ hfilled ↦ ?_
    have hwrite := writeThrough_does spec h hfilled (blockLength_pos hlt) (add_blockLength_le hle)
    exact Does.bind (Does.adapt hwrite) fun _ _ w₂ hw₂ ↦ ih hw₂ (add_blockLength_le hle)
  | case2 offset hend =>
    rw [transferFrom, if_neg hend]
    exact Does.pure (Nat.le_antisymm hle (Nat.le_of_not_lt hend) ▸ h)

/-- The body ended with the last byte of the range, and all of it was written. -/
structure Fetched (range : ByteRange) (body : Body) (w : Wire) : Prop where
  whole : body.Whole
  length_eq : body.bytes.length = range.len
  handed_eq : bytesOf w.handed = body.bytes
  written_eq : w.written = w.handed

theorem fetch_does (spec : PartSpec) (pool : BufferPool) (source : SourceRef) (range : ByteRange)
    (validator : Option Digest) (body : Body) :
    Does Carries (Keeps range body) () (Wire.opened range body) (fetch spec pool source range validator)
      (fun _ _ w ↦ Fetched range body w) fun _ _ _ ↦ True := by
  have hopened := standing_opened range body
  refine Does.ask fun answer w hcall ↦ ?_
  cases hcall
  refine ⟨hopened.inLease, Does.ofExcept (fun _ _ ↦ trivial) fun _ _ ↦ ?_⟩
  refine Does.bind (transferFrom_does hopened range.start_lt.le) fun _ _ w hstanding ↦ ?_
  -- One more read tells whether the body is over.
  refine Does.ask fun answer w' hcall ↦ ?_
  cases hcall with
  | dropped stream body => exact ⟨hstanding.inLease, Does.ofExcept (fun _ _ ↦ trivial) nofun⟩
  | read answer hread =>
    refine ⟨hstanding.inLease, Does.ofExcept (fun _ _ ↦ trivial) fun tail htail ↦ ?_⟩
    cases selected_eq_ok htail
    split
    next => exact Does.throw trivial
    next hnone =>
      obtain ⟨hwhole, hlength, hall⟩ := (hstanding.holds.read_eq_ok hread).ended (not_not.1 hnone)
      exact Does.pure ⟨hwhole, hlength, hall, hstanding.written_eq⟩

end Does

/-- **A worker writes exactly its lease.** However a body is cut into chunks and a caller's buffers, a
stream hands on its bytes in order; it reports the end only where the body ends with the last byte asked
for, and a body that is longer or shorter as an error. Whatever the block length of the pool and wherever it
is cancelled, the worker hands the lane only consecutive pieces of that body within the leased range, and
if it returns well, the body was that long and every byte of it was written where it belongs. -/
theorem fetch_exact (spec : PartSpec) (pool : BufferPool) (source : SourceRef) (range : ByteRange)
    (validator : Option Digest) (body : Body) :
    (∀ lengths : List ℕ, ∀ answers, answers = HttpStream.reads lengths (.opened range) body →
      HttpStream.handedOn answers <+: body.bytes ∧ (HttpStream.handedOn answers).length ≤ range.len ∧
      (∀ (k : ℕ) (bytes : Bytes), answers[k]? = some (.ok bytes) → ∃ length ∈ lengths[k]?, bytes.length ≤ length) ∧
      (.ok [] ∈ answers → body.Whole ∧ body.bytes.length = range.len ∧ HttpStream.handedOn answers = body.bytes) ∧
      (range.len < body.bytes.length ∨ body.Whole ∧ body.bytes.length < range.len → .ok [] ∉ answers ∧
        (range.len < lengths.length → ∃ e, .error e ∈ answers))) ∧
    ∀ (w : Wire) (rest : Prog WorkerPort WorkerAnswer (Except Failure Unit × Unit)),
      Reaches Carries (Wire.opened range body) ((fetch spec pool source range validator).run.run ()) w rest →
        InLease range body w.handed ∧ (rest = .done (.ok (), ()) → Fetched range body w) := by
  constructor
  · rintro lengths answers rfl
    have hopened := HttpStream.holds_opened range body
    obtain ⟨s, body', hstands⟩ := hopened.after_reads lengths
    have hlength : (HttpStream.handedOn (HttpStream.reads lengths (.opened range) body)).length ≤ range.len := by
      have := hstands.count
      rw [List.nil_append] at this
      omega
    refine ⟨hstands.isPrefix, hlength, fun k bytes hk ↦ hopened.reads_length_le hk,
      fun hend ↦ hopened.reads_ended hend, fun hother ↦ ?_⟩
    have hno : .ok [] ∉ HttpStream.reads lengths (.opened range) body := fun hend ↦ by
      have := (hopened.reads_ended hend).2.1
      omega
    refine ⟨hno, fun hmany ↦ (hopened.reads_stop ?_).resolve_left hno⟩
    rwa [List.length_nil, Nat.zero_add]
  · intro w rest hreaches
    have hdoes := fetch_does spec pool source range validator body
    obtain ⟨hkeeps, hrest⟩ := Ensures.reaches hdoes hreaches (standing_opened range body).inLease
    exact ⟨hkeeps, fun hdone ↦ by rw [hdone] at hrest; exact hrest⟩

/-! ### A run -/

def Sample.spec : PartSpec := ⟨⟨1, Nat.one_ne_zero⟩, ⟨1, Nat.one_ne_zero⟩, 4, four_le_i64Max⟩

def Sample.pool : BufferPool := ⟨8, 1, by decide, Nat.zero_lt_one, .inr (by decide)⟩

def Sample.lease : ByteRange := ⟨2, 3, by decide, by decide⟩

/-- An empty chunk, the byte asked for, and the end. -/
def Sample.body : Body := .chunk [] (.chunk [7] .ended)

def Sample.fetched : Wire := ⟨⟨[7], 1, 0⟩, .ended, [(2, [7])], [(2, [7])]⟩

/-- The lane has the byte, and the stream has not been told of the end yet. -/
def Sample.filled : Wire := ⟨⟨[7], 1, 0⟩, .ended, [], []⟩

theorem Sample.returns_fill :
    Returns Carries (Wire.opened lease body) ((fill 1 []).run.run ()) (.ok [7], ()) filled := by
  rw [fill, if_pos (by decide)]
  refine .call (.read (.ok ⟨[7], by decide⟩) rfl) ?_
  show Returns Carries _ ((fill 1 [7]).run.run ()) _ _
  rw [fill, if_neg (by decide)]
  exact .done _ _

theorem Sample.returns_transferFrom :
    Returns Carries (Wire.opened lease body) ((transferFrom spec pool lease 2).run.run ()) (.ok (), ()) fetched := by
  rw [transferFrom, if_pos (by decide)]
  refine Returns.andThen (.call (.permit (.ok ())) (.done _ _)) ?_
  refine Returns.andThen returns_fill ?_
  refine Returns.andThen (.call .wrote (.done _ _)) ?_
  rw [transferFrom, if_neg (by decide)]
  exact .done _ _

theorem Sample.returns_fetch (source : SourceRef) : Returns Carries (Wire.opened lease body)
    ((fetch spec pool source lease none).run.run ()) (.ok (), ()) fetched := by
  refine .call (.fetch (some (.ok ()))) ?_
  refine Returns.andThen (.done _ _) ?_
  refine Returns.andThen returns_transferFrom ?_
  exact .call (.read (.ok ⟨[], by decide⟩) rfl) (.done _ _)

theorem fetch_exact_byte : Fetched Sample.lease Sample.body Sample.fetched ∧
    HttpStream.handedOn (HttpStream.reads [3, 5] (.opened Sample.lease) Sample.body) = Sample.body.bytes := by
  have hexact := fetch_exact Sample.spec Sample.pool ⟨1, by decide⟩ Sample.lease none Sample.body
  refine ⟨(hexact.2 _ _ (Sample.returns_fetch _).reaches).2 rfl, ?_⟩
  exact ((hexact.1 [3, 5] _ rfl).2.2.2.1 (by decide)).2.2

end Worker

end Fhd
