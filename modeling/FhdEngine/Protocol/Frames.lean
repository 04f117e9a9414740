import FhdEngine.Domain.Retry
import FhdEngine.Library.Reassembly
import FhdEngine.Protocol.Messages

/-!
# Frames

`Frames` of `crates/protocol/src/lib.rs`, which puts frames together again from a byte stream, and the loop of
`serve_client` in `crates/adapters/ipc/src/lib.rs` that feeds it: after every read the frames that are there are
taken out, and the connection ends with the first error.

What is delivered depends on the stream only, not on how it was read (`serve_eq`).
-/

namespace Fhd.Protocol

/-- The buffer. -/
abbrev Frames := Bytes

namespace Frames

/-- The announced length, checked as soon as the header is complete. -/
def declared : Frames → Except ProtocolError (Option ℕ)
  | a :: b :: c :: d :: _ =>
    let length := fromBe32 a b c d
    -- a frame of nothing is not a size problem
    if length = 0 then .error .malformed
    else if length > maxFrame then .error .tooLarge
    else .ok (some length)
  | _ => .ok none

/-- Adds received bytes. They stay in the buffer when the header is refused. -/
def push (frames : Frames) (bytes : Bytes) : Except ProtocolError Unit × Frames :=
  if saturatingAdd frames.length bytes.length > 4 + maxFrame + maxRead then (.error .tooLarge, frames)
  else ((fun _ ↦ ()) <$> declared (frames ++ bytes), frames ++ bytes)

/-- The next complete frame, and what it leaves. -/
def nextFrame (frames : Frames) : Except ProtocolError (Option (Bytes × Frames)) :=
  match declared frames with
  | .error e => .error e
  | .ok none => .ok none
  | .ok (some length) =>
    if frames.length < 4 + length then .ok none
    else .ok (some ((frames.drop 4).take length, frames.drop (4 + length)))

/-! ### What the header says -/

variable {frames : Frames}

theorem declared_append {length : ℕ} (more : Bytes) (h : declared frames = .ok (some length)) :
    declared (frames ++ more) = .ok (some length) := by
  match frames, h with
  | a :: b :: c :: d :: rest, h => exact h

theorem declared_append_error {e : ProtocolError} (more : Bytes) (h : declared frames = .error e) :
    declared (frames ++ more) = .error e := by
  match frames, h with
  | a :: b :: c :: d :: rest, h => exact h

theorem declared_eq_some {length : ℕ} (h : declared frames = .ok (some length)) : 0 < length ∧ length ≤ maxFrame := by
  match frames, h with
  | a :: b :: c :: d :: rest, h =>
    simp only [declared] at h
    split at h
    next => cases h
    next hpos =>
      split at h
      next => cases h
      next hle =>
        cases h
        exact ⟨Nat.pos_of_ne_zero hpos, not_lt.1 hle⟩

theorem length_lt_of_declared (h : declared frames = .ok none) : frames.length < 4 := by
  match frames, h with
  | [], _ | [_], _ | [_, _], _ | [_, _, _], _ => simp
  | a :: b :: c :: d :: rest, h =>
    simp only [declared] at h
    split at h
    next => cases h
    next => split at h <;> cases h

theorem nextFrame_eq_item {frame : Bytes} {rest : Frames} (h : nextFrame frames = .ok (some (frame, rest))) :
    ∃ length, declared frames = .ok (some length) ∧ 4 + length ≤ frames.length ∧
      frame = (frames.drop 4).take length ∧ rest = frames.drop (4 + length) := by
  unfold nextFrame at h
  split at h
  next => cases h
  next => cases h
  next length hdeclared =>
    split at h
    next => cases h
    next hlong =>
      cases h
      exact ⟨length, hdeclared, not_lt.1 hlong, rfl, rfl⟩

theorem nextFrame_eq_error {e : ProtocolError} : nextFrame frames = .error e ↔ declared frames = .error e := by
  unfold nextFrame
  split
  next h => rw [h, Except.error.injEq, Except.error.injEq]
  next h =>
    rw [h]
    exact ⟨fun h ↦ (by cases h), fun h ↦ (by cases h)⟩
  next h =>
    rw [h]
    split <;> exact ⟨fun h ↦ (by cases h), fun h ↦ (by cases h)⟩

/-- A buffer that waits for more holds less than a frame. -/
theorem length_lt_of_nextFrame (h : nextFrame frames = .ok none) : frames.length < 4 + maxFrame := by
  unfold nextFrame at h
  split at h
  next => cases h
  next hdeclared =>
    have := length_lt_of_declared hdeclared
    omega
  next length hdeclared =>
    split at h
    next hshort =>
      have := (declared_eq_some hdeclared).2
      omega
    next => cases h

/-- Frames are cut off the front of the buffer. -/
def cutter : Cutter UInt8 Bytes ProtocolError where
  next := nextFrame
  shrinks h := by
    obtain ⟨length, -, hle, -, rfl⟩ := nextFrame_eq_item h
    rw [List.length_drop]
    omega
  item_append {l _ _} more h := by
    obtain ⟨length, hdeclared, hle, rfl, rfl⟩ := nextFrame_eq_item h
    have hlong : ¬(l ++ more).length < 4 + length := by
      rw [List.length_append]
      omega
    rw [nextFrame, declared_append more hdeclared]
    dsimp only
    rw [if_neg hlong, List.drop_append_of_le_length (by omega), List.drop_append_of_le_length hle,
      List.take_append_of_le_length (by rw [List.length_drop]; omega)]
  error_append more h := nextFrame_eq_error.2 (declared_append_error more (nextFrame_eq_error.1 h))

end Frames

/-! ### Serving a client -/

open Frames

/-- What one read delivers, and what is left in the buffer unless the connection has ended with an error. -/
def receive (frames : Frames) (read : Bytes) : List Bytes × Except ProtocolError Frames :=
  match push frames read with
  | (.error e, _) => ([], .error e)
  | (.ok _, frames) => cutter.drain frames

/-- The loop of `serve_client`. -/
def serve : Frames → List Bytes → List Bytes × Except ProtocolError Frames
  | frames, [] => ([], .ok frames)
  | frames, read :: reads =>
    match receive frames read with
    | (delivered, .error e) => (delivered, .error e)
    | (delivered, .ok frames) => (delivered ++ (serve frames reads).1, (serve frames reads).2)

/-- A header that is refused at once would be refused when the frame is taken out. -/
theorem receive_eq {frames : Frames} {read : Bytes} (hframes : nextFrame frames = .ok none)
    (hread : read.length ≤ maxRead) : receive frames read = cutter.drain (frames ++ read) := by
  have hfits : ¬saturatingAdd frames.length read.length > 4 + maxFrame + maxRead := by
    have := length_lt_of_nextFrame hframes
    unfold saturatingAdd
    omega
  rw [receive, push, if_neg hfits]
  match hdeclared : declared (frames ++ read) with
  | .error e => exact (cutter.drain_error (nextFrame_eq_error.2 hdeclared)).symm
  | .ok length => rfl

/-- **However the stream is read**, what is delivered is what there is in it. -/
theorem serve_eq {frames : Frames} {reads : List Bytes} (hframes : nextFrame frames = .ok none)
    (hreads : ∀ read ∈ reads, read.length ≤ maxRead) :
    serve frames reads = cutter.drain (frames ++ reads.flatten) := by
  induction reads generalizing frames with
  | nil => rw [List.flatten_nil, List.append_nil, cutter.drain_none hframes, serve]
  | cons read reads ih =>
    obtain ⟨hread, hrest⟩ := List.forall_mem_cons.1 hreads
    rw [serve, receive_eq hframes hread, List.flatten_cons, ← List.append_assoc]
    match hdrain : cutter.drain (frames ++ read) with
    | (delivered, .error e) => rw [cutter.drain_append_error reads.flatten (congrArg Prod.snd hdrain), hdrain]
    | (delivered, .ok rest) =>
      have hleft : (cutter.drain (frames ++ read)).2 = .ok rest := congrArg Prod.snd hdrain
      rw [cutter.drain_append reads.flatten hleft, hdrain, ← ih (cutter.next_of_drain hleft) hrest]

/-! ### Legal frames -/

/-- A frame that was encoded is cut off as its text. -/
theorem nextFrame_encoded {json : Bytes} (more : Bytes) (hne : json ≠ []) (hshort : json.length ≤ maxFrame) :
    nextFrame (be32 json.length ++ json ++ more) = .ok (some (json, more)) := by
  have hdeclared : declared (be32 json.length ++ json ++ more) = .ok (some json.length) := by
    have hlength : fromBe32 _ _ _ _ = json.length := fromBe32_be32 (by unfold maxFrame at hshort; omega)
    have hpos := List.length_pos_iff.2 hne
    show (if fromBe32 _ _ _ _ = 0 then _ else if fromBe32 _ _ _ _ > maxFrame then _ else _) = _
    rw [hlength, if_neg (by omega), if_neg (not_lt.2 hshort)]
  have hlong : ¬(be32 json.length ++ json ++ more).length < 4 + json.length := by
    rw [List.length_append, List.length_append, show (be32 json.length).length = 4 from rfl]
    omega
  rw [nextFrame, hdeclared]
  dsimp only
  rw [if_neg hlong, ← List.drop_drop]
  show Except.ok (some ((json ++ more).take json.length, (json ++ more).drop json.length)) = _
  rw [List.take_left, List.drop_left]

section Encoded

variable {T : Type} {check : T → Except ProtocolError Unit} {toVec : Envelope T → Option Bytes}

/-- What `encode` has built. -/
def Encoded (check : T → Except ProtocolError Unit) (toVec : Envelope T → Option Bytes) (frame : Bytes) : Prop :=
  ∃ id body, encode check toVec id body = .ok frame

/-- **Frames that were encoded** are cut apart as they were put together. -/
theorem drain_encoded {frames : List Bytes} (htext : ∀ envelope json, toVec envelope = some json → json ≠ [])
    (hframes : ∀ frame ∈ frames, Encoded check toVec frame) :
    cutter.drain frames.flatten = (frames.map (·.drop 4), .ok []) := by
  induction frames with
  | nil => exact cutter.drain_none rfl
  | cons frame frames ih =>
    obtain ⟨⟨id, body, hencode⟩, hrest⟩ := List.forall_mem_cons.1 hframes
    obtain ⟨json, hjson, hshort, rfl⟩ := encode_eq_ok hencode
    rw [List.flatten_cons, cutter.drain_item (nextFrame_encoded frames.flatten (htext _ json hjson) hshort), ih hrest]
    rfl

end Encoded

/-! ### What the buffer holds -/

/-- What may be asked of the frames. -/
inductive Call
  | push (bytes : Bytes)
  | nextFrame
deriving DecidableEq

def Frames.call (frames : Frames) : Call → Frames
  | .push bytes => (frames.push bytes).2
  | .nextFrame =>
    match nextFrame frames with
    | .ok (some (_, rest)) => rest
    | _ => frames

theorem length_call {frames : Frames} (h : frames.length ≤ 4 + maxFrame + maxRead) (call : Call) :
    (frames.call call).length ≤ 4 + maxFrame + maxRead := by
  cases call with
  | push bytes =>
    show (frames.push bytes).2.length ≤ _
    unfold push
    split
    next => exact h
    next hfits =>
      have hlength : (frames ++ bytes).length ≤ 4 + maxFrame + maxRead := by
        rw [List.length_append]
        unfold saturatingAdd u64Max at hfits
        unfold maxFrame maxRead at hfits ⊢
        omega
      exact hlength
  | nextFrame =>
    simp only [Frames.call]
    split
    next frame rest hnext => exact (cutter.shrinks hnext).le.trans h
    next => exact h

/-- **Reassembly does not depend on the reads**, as long as none is larger than a transport may hand over: the
same stream delivers the same frames and ends the same way; frames that were encoded come out as they went in,
and nothing is refused before their end; and whatever is asked of the buffer, it stays within its bound. -/
theorem serve_reads {T : Type} (check : T → Except ProtocolError Unit) (toVec : Envelope T → Option Bytes)
    -- no JSON text is empty
    (htext : ∀ envelope json, toVec envelope = some json → json ≠ []) :
    (∀ reads reads' : List Bytes, (∀ read ∈ reads, read.length ≤ maxRead) → (∀ read ∈ reads', read.length ≤ maxRead) →
      reads.flatten = reads'.flatten → serve [] reads = serve [] reads') ∧
    (∀ frames reads : List Bytes, (∀ frame ∈ frames, Encoded check toVec frame) →
      (∀ read ∈ reads, read.length ≤ maxRead) → reads.flatten = frames.flatten →
      serve [] reads = (frames.map (·.drop 4), .ok [])) ∧
    (∀ frames reads : List Bytes, (∀ frame ∈ frames, Encoded check toVec frame) →
      (∀ read ∈ reads, read.length ≤ maxRead) → reads.flatten <+: frames.flatten →
      ∀ e, (serve [] reads).2 ≠ .error e) ∧
    ∀ calls : List Call, (calls.foldl Frames.call []).length ≤ 4 + maxFrame + maxRead := by
  have hserve : ∀ reads : List Bytes, (∀ read ∈ reads, read.length ≤ maxRead) →
      serve [] reads = cutter.drain reads.flatten := fun reads hreads ↦ serve_eq rfl hreads
  refine ⟨fun reads reads' hreads hreads' hsame ↦ ?_, fun frames reads hframes hreads hsame ↦ ?_,
    fun frames reads hframes hreads hfront e he ↦ ?_, fun calls ↦ ?_⟩
  · rw [hserve reads hreads, hserve reads' hreads', hsame]
  · rw [hserve reads hreads, hsame, drain_encoded htext hframes]
  · obtain ⟨more, hmore⟩ := hfront
    have hall : (cutter.drain (reads.flatten ++ more)).2 = .ok [] := by rw [hmore, drain_encoded htext hframes]
    obtain ⟨left, hleft⟩ := cutter.drain_ok_of_append hall
    rw [hserve reads hreads, hleft] at he
    cases he
  · have hrun : ∀ (calls : List Call) (frames : Frames), frames.length ≤ 4 + maxFrame + maxRead →
        (calls.foldl Frames.call frames).length ≤ 4 + maxFrame + maxRead := by
      intro calls
      induction calls with
      | nil => exact fun _ h ↦ h
      | cons call calls ih => exact fun frames h ↦ ih _ (length_call h call)
    exact hrun calls [] (Nat.zero_le _)

/-- The text of a request about a job, in its envelope. -/
def Sample.toVec (envelope : Envelope Request) : Option Bytes :=
  let kind (name : String) (job : ℕ) := ascii "\x7b\"kind\":\"" ++ ascii name ++ ascii "\",\"job\":" ++ decimal job ++ [125]
  let text (body : Bytes) : Bytes := 123 :: ascii "\"v\":" ++ decimal envelope.v ++ ascii ",\"id\":" ++
    decimal envelope.id ++ ascii ",\"body\":" ++ body ++ [125]
  match envelope.body with
  | .pause job => some (text (kind "pause" job))
  | .resume job => some (text (kind "resume" job))
  | .cancel job => some (text (kind "cancel" job))
  | _ => none

theorem serve_reads_text :
    (∀ reads reads' : List Bytes, (∀ read ∈ reads, read.length ≤ maxRead) → (∀ read ∈ reads', read.length ≤ maxRead) →
      reads.flatten = reads'.flatten → serve [] reads = serve [] reads') ∧
    (∀ frames reads : List Bytes, (∀ frame ∈ frames, Encoded Request.check Sample.toVec frame) →
      (∀ read ∈ reads, read.length ≤ maxRead) → reads.flatten = frames.flatten →
      serve [] reads = (frames.map (·.drop 4), .ok [])) ∧
    (∀ frames reads : List Bytes, (∀ frame ∈ frames, Encoded Request.check Sample.toVec frame) →
      (∀ read ∈ reads, read.length ≤ maxRead) → reads.flatten <+: frames.flatten →
      ∀ e, (serve [] reads).2 ≠ .error e) ∧
    ∀ calls : List Call, (calls.foldl Frames.call []).length ≤ 4 + maxFrame + maxRead :=
  serve_reads Request.check Sample.toVec fun envelope json h ↦ by
    unfold Sample.toVec at h
    split at h <;> cases h <;> exact List.cons_ne_nil _ _

end Fhd.Protocol
