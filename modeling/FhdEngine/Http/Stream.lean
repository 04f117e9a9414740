import FhdEngine.Http.Headers

/-!
# The body of a response, read into buffers

`HttpStream` of `crates/adapters/http/src/lib.rs`: a reader that hands on the body of one range in whatever
pieces its caller has room for. The body is what the connection brings, chunk by chunk.

A caller gives a stream up when a read fails, so a run of reads (`reads`) stops there.
-/

namespace Fhd

/-- What the connection still brings. An answer that takes longer than the idle time is `late`. -/
inductive Body
  | ended
  | late
  | broken (error : TransportError)
  | chunk (bytes : Bytes) (rest : Body)
deriving DecidableEq, Repr

namespace Body

/-- All of the body that arrives. -/
def bytes : Body → Bytes
  | .chunk bytes rest => bytes ++ rest.bytes
  | _ => []

/-- The body arrives to its end. -/
def Whole : Body → Prop
  | .ended => True
  | .chunk _ rest => rest.Whole
  | _ => False

end Body

structure HttpStream where
  /-- The last chunk, of which `position` bytes were handed on. -/
  pending : Bytes
  position : ℕ
  /-- What is still to be handed on, with what is pending. -/
  remaining : ℕ
deriving DecidableEq, Repr

namespace HttpStream

/-- As `fetch` returns it. -/
def opened (range : ByteRange) : HttpStream := ⟨[], 0, range.len⟩

/-- One read into a buffer that is not empty. -/
def take (length : ℕ) (s : HttpStream) (body : Body) : Except TransportError Bytes × HttpStream × Body :=
  -- Empty chunks are legal; they are never an ending.
  if s.position = s.pending.length then
    match body with
    | .late => (.error .transient, s, .late)
    | .broken error => (.error error, s, .broken error)
    | .chunk bytes rest =>
      if bytes.length > s.remaining then (.error .transient, s, rest)
      else take length { s with pending := bytes, position := 0 } rest
    | .ended => if s.remaining = 0 then (.ok [], s, .ended) else (.error .transient, s, .ended)
  else
    let taken := min length (s.pending.length - s.position)
    (.ok ((s.pending.drop s.position).take taken),
      { s with position := s.position + taken, remaining := s.remaining - taken }, body)
termination_by structural body

def read (length : ℕ) (s : HttpStream) (body : Body) : Except TransportError Bytes × HttpStream × Body :=
  if length = 0 then (.error (.fatal .policy), s, body) else s.take length body

/-- Reads with buffers of these lengths, up to the first that fails. -/
def reads : List ℕ → HttpStream → Body → List (Except TransportError Bytes)
  | [], _, _ => []
  | length :: lengths, s, body =>
    match s.read length body with
    | (.error e, _, _) => [.error e]
    | (.ok bytes, s, body) => .ok bytes :: reads lengths s body

/-! ### What a read hands on -/

/-- A stream that has handed on `delivered` of `total`, with `body` still to come: nothing is lost between
the three, and what is pending fits what remains. -/
structure Holds (total : Body) (requested : ℕ) (delivered : Bytes) (s : HttpStream) (body : Body) : Prop where
  position_le : s.position ≤ s.pending.length
  bytes_eq : delivered ++ s.pending.drop s.position ++ body.bytes = total.bytes
  whole_iff : body.Whole ↔ total.Whole
  count : delivered.length + s.remaining = requested
  unread_le : s.pending.length - s.position ≤ s.remaining

theorem holds_opened (range : ByteRange) (body : Body) :
    (opened range).Holds body range.len [] body where
  position_le := Nat.le_refl 0
  bytes_eq := rfl
  whole_iff := Iff.rfl
  count := Nat.zero_add _
  unread_le := Nat.zero_le _

variable {total body body' : Body} {requested length : ℕ} {delivered bytes : Bytes} {s s' : HttpStream}

/-- The next chunk, once everything before it was handed on. -/
theorem Holds.next {rest : Body} (h : s.Holds total requested delivered (.chunk bytes rest))
    (hread : s.position = s.pending.length) (hle : bytes.length ≤ s.remaining) :
    ({ s with pending := bytes, position := 0 } : HttpStream).Holds total requested delivered rest where
  position_le := Nat.zero_le _
  bytes_eq := by
    have hbytes := h.bytes_eq
    rw [List.drop_eq_nil_of_le hread.ge, List.append_nil] at hbytes
    rw [← hbytes, List.append_assoc]
    rfl
  whole_iff := h.whole_iff
  count := h.count
  unread_le := hle

/-- Part of what is pending. -/
theorem Holds.hand_on (h : s.Holds total requested delivered body) {taken : ℕ}
    (hle : taken ≤ s.pending.length - s.position) :
    ({ s with position := s.position + taken, remaining := s.remaining - taken } : HttpStream).Holds total
      requested (delivered ++ (s.pending.drop s.position).take taken) body where
  position_le := by
    have := h.position_le
    show s.position + taken ≤ s.pending.length
    omega
  bytes_eq := by
    show delivered ++ (s.pending.drop s.position).take taken ++ s.pending.drop (s.position + taken) ++
      body.bytes = total.bytes
    rw [← h.bytes_eq, List.append_assoc delivered, ← List.drop_drop, List.take_append_drop]
  whole_iff := h.whole_iff
  count := by
    have hcount := h.count
    have hunread := h.unread_le
    have htaken : ((s.pending.drop s.position).take taken).length = taken := by
      rw [List.length_take, List.length_drop, Nat.min_eq_left hle]
    show (delivered ++ (s.pending.drop s.position).take taken).length + (s.remaining - taken) = requested
    rw [List.length_append, htaken]
    omega
  unread_le := by
    have := h.unread_le
    show s.pending.length - (s.position + taken) ≤ s.remaining - taken
    omega

theorem take_unread (hunread : s.position ≠ s.pending.length) :
    s.take length body =
      (.ok ((s.pending.drop s.position).take (min length (s.pending.length - s.position))),
        { s with
          position := s.position + min length (s.pending.length - s.position)
          remaining := s.remaining - min length (s.pending.length - s.position) }, body) := by
  unfold take
  exact if_neg hunread

/-- What a read that succeeds has done. -/
structure Read (total : Body) (requested length : ℕ) (delivered bytes : Bytes) (s : HttpStream) (body : Body) :
    Prop where
  holds : s.Holds total requested (delivered ++ bytes) body
  length_le : bytes.length ≤ length
  ended : bytes = [] → total.Whole ∧ total.bytes.length = requested ∧ delivered = total.bytes

theorem Holds.read_unread (h : s.Holds total requested delivered body) (hlength : 0 < length)
    (hunread : s.position ≠ s.pending.length) (htake : s.take length body = (.ok bytes, s', body')) :
    s'.Read total requested length delivered bytes body' := by
  rw [take_unread hunread] at htake
  cases htake
  have hlt : s.position < s.pending.length := Nat.lt_of_le_of_ne h.position_le hunread
  refine ⟨h.hand_on (Nat.min_le_right _ _), ?_, fun hnil ↦ ?_⟩
  · rw [List.length_take]
    exact (Nat.min_le_left _ _).trans (Nat.min_le_left _ _)
  · have hnone := congrArg List.length hnil
    rw [List.length_take, List.length_drop, List.length_nil] at hnone
    omega

theorem Holds.read_ended (h : s.Holds total requested delivered .ended)
    (hread : s.position = s.pending.length) (hremaining : s.remaining = 0) :
    s.Read total requested length delivered [] .ended := by
  have hbytes : delivered = total.bytes := by
    have := h.bytes_eq
    rw [List.drop_eq_nil_of_le hread.ge, List.append_nil] at this
    exact (List.append_nil delivered).symm.trans this
  have hcount : delivered.length = requested := by rw [← h.count, hremaining, Nat.add_zero]
  refine ⟨by rwa [List.append_nil], Nat.zero_le _, fun _ ↦ ⟨h.whole_iff.1 trivial, ?_, hbytes⟩⟩
  rw [← hbytes, hcount]

/-- **One read** hands on the next bytes of the body, at most as many as the buffer holds, and none only
where the body ended with the last byte asked for. -/
theorem Holds.read_of_take (h : s.Holds total requested delivered body) (hlength : 0 < length)
    (htake : s.take length body = (.ok bytes, s', body')) :
    s'.Read total requested length delivered bytes body' := by
  induction body generalizing s with
  | late =>
    by_cases hread : s.position = s.pending.length
    · unfold take at htake
      rw [if_pos hread] at htake
      cases htake
    · exact h.read_unread hlength hread htake
  | broken error =>
    by_cases hread : s.position = s.pending.length
    · unfold take at htake
      rw [if_pos hread] at htake
      cases htake
    · exact h.read_unread hlength hread htake
  | ended =>
    by_cases hread : s.position = s.pending.length
    · unfold take at htake
      rw [if_pos hread] at htake
      dsimp only at htake
      split at htake
      next hremaining =>
        cases htake
        exact h.read_ended hread hremaining
      next => cases htake
    · exact h.read_unread hlength hread htake
  | chunk chunk rest ih =>
    by_cases hread : s.position = s.pending.length
    · unfold take at htake
      rw [if_pos hread] at htake
      dsimp only at htake
      split at htake
      next => cases htake
      next hfits => exact ih (h.next hread (Nat.le_of_not_lt hfits)) htake
    · exact h.read_unread hlength hread htake

theorem Holds.read_eq_ok (h : s.Holds total requested delivered body)
    (hread : s.read length body = (.ok bytes, s', body')) :
    s'.Read total requested length delivered bytes body' := by
  unfold read at hread
  split at hread
  next => cases hread
  next hlength => exact h.read_of_take (Nat.pos_of_ne_zero hlength) hread

theorem Holds.isPrefix (h : s.Holds total requested delivered body) : delivered <+: total.bytes := by
  rw [← h.bytes_eq, List.append_assoc]
  exact List.prefix_append _ _

/-! ### Runs of reads -/

/-- What a run of reads has handed on. -/
def handedOn (answers : List (Except TransportError Bytes)) : Bytes :=
  answers.flatMap fun answer ↦ answer.toOption.getD []

variable {lengths : List ℕ}

theorem handedOn_error (e : TransportError) : handedOn [.error e] = [] := rfl

theorem append_handedOn_ok (answers : List (Except TransportError Bytes)) :
    delivered ++ handedOn (.ok bytes :: answers) = delivered ++ bytes ++ handedOn answers :=
  (List.append_assoc _ _ _).symm

theorem reads_cons_error {e : TransportError} (hread : s.read length body = (.error e, s', body')) :
    reads (length :: lengths) s body = [.error e] := by
  rw [reads, hread]

theorem reads_cons_ok (hread : s.read length body = (.ok bytes, s', body')) :
    reads (length :: lengths) s body = .ok bytes :: reads lengths s' body' := by
  rw [reads, hread]

/-- A run of reads hands on the body in order, up to where it stands. -/
theorem Holds.after_reads (h : s.Holds total requested delivered body) (lengths : List ℕ) :
    ∃ (s' : HttpStream) (body' : Body),
      s'.Holds total requested (delivered ++ handedOn (reads lengths s body)) body' := by
  induction lengths generalizing s delivered body with
  | nil => exact ⟨s, body, by rwa [handedOn, reads, List.flatMap_nil, List.append_nil]⟩
  | cons length lengths ih =>
    rcases hread : s.read length body with ⟨e | bytes, s', body'⟩
    · rw [reads_cons_error hread]
      exact ⟨s, body, by rwa [handedOn_error, List.append_nil]⟩
    · rw [reads_cons_ok hread]
      obtain ⟨s'', body'', hrest⟩ := ih (h.read_eq_ok hread).holds
      exact ⟨s'', body'', by rwa [append_handedOn_ok]⟩

theorem Holds.reads_length_le (h : s.Holds total requested delivered body) {k : ℕ}
    (hk : (reads lengths s body)[k]? = some (.ok bytes)) :
    ∃ length ∈ lengths[k]?, bytes.length ≤ length := by
  induction lengths generalizing s delivered body k with
  | nil => cases hk
  | cons length lengths ih =>
    rcases hread : s.read length body with ⟨e | bytes', s', body'⟩
    · rw [reads_cons_error hread] at hk
      cases k with
      | zero => cases hk
      | succ k => cases hk
    · have hdone := h.read_eq_ok hread
      rw [reads_cons_ok hread] at hk
      cases k with
      | zero =>
        cases hk
        exact ⟨length, rfl, hdone.length_le⟩
      | succ k => exact ih hdone.holds hk

/-- **`Ok(0)` is the exact end.** -/
theorem Holds.reads_ended (h : s.Holds total requested delivered body)
    (hend : .ok [] ∈ reads lengths s body) :
    total.Whole ∧ total.bytes.length = requested ∧
      delivered ++ handedOn (reads lengths s body) = total.bytes := by
  induction lengths generalizing s delivered body with
  | nil => cases hend
  | cons length lengths ih =>
    rcases hread : s.read length body with ⟨e | bytes, s', body'⟩
    · rw [reads_cons_error hread] at hend
      cases List.mem_singleton.1 hend
    · have hdone := h.read_eq_ok hread
      rw [reads_cons_ok hread] at hend ⊢
      obtain ⟨s'', body'', hrest⟩ := hdone.holds.after_reads lengths
      rw [append_handedOn_ok]
      rcases List.mem_cons.1 hend with hnow | hlater
      · obtain ⟨hwhole, hcount, hall⟩ := hdone.ended (Except.ok.inj hnow).symm
        refine ⟨hwhole, hcount, hrest.isPrefix.eq_of_length_le ?_⟩
        rw [← hall, List.length_append, List.length_append]
        omega
      · exact ih hdone.holds hlater

/-- Enough reads come to an end. -/
theorem Holds.reads_stop (h : s.Holds total requested delivered body)
    (hmany : requested < delivered.length + lengths.length) :
    .ok [] ∈ reads lengths s body ∨ ∃ e, .error e ∈ reads lengths s body := by
  induction lengths generalizing s delivered body with
  | nil =>
    have hcount := h.count
    rw [List.length_nil] at hmany
    omega
  | cons length lengths ih =>
    rcases hread : s.read length body with ⟨e | bytes, s', body'⟩
    · rw [reads_cons_error hread]
      exact .inr ⟨e, List.mem_singleton.2 rfl⟩
    · rw [reads_cons_ok hread]
      by_cases hnil : bytes = []
      · exact .inl (by rw [hnil]; exact List.mem_cons_self)
      · have hpos : 0 < bytes.length := List.length_pos_iff.2 hnil
        have hlater := ih (h.read_eq_ok hread).holds (by
          rw [List.length_append]
          rw [List.length_cons] at hmany
          omega)
        rcases hlater with hend | ⟨e, he⟩
        · exact .inl (List.mem_cons_of_mem _ hend)
        · exact .inr ⟨e, List.mem_cons_of_mem _ he⟩

end HttpStream

end Fhd
