import FhdEngine.Runtime.Worker
import FhdEngine.Library.Table

/-!
# Buffers that are used again

`crates/runtime/src/buffers.rs`. A pool lends blocks of one length, each against a credit of a semaphore. A block that
comes back keeps what was written into it, and the next holder sees as much of it as it asked for, zeroed, and what it
later appends.

The semaphore is known by what it says of itself: it has a number of credits, gives one to somebody who waits when one is
available, and gives none once it is closed. It may give a credit to a waiting `acquire` that has not looked again yet,
and that may be cancelled before it does. `acquire` and `drop` therefore are two steps each, between which anybody else
may act.
-/

namespace Fhd

open Table

namespace Buffers

/-! ### A buffer -/

/-- A block, and how much of it is visible. -/
structure Buffer where
  bytes : Bytes
  len : ℕ
deriving DecidableEq, Repr

/-- Copies `data` into a slice from `start` on. -/
def overlay (start : ℕ) (data l : Bytes) : Bytes := l.take start ++ data ++ l.drop (start + data.length)

namespace Buffer

/-- `&self.bytes[..self.len]`, unless that is out of bounds. -/
def asSlice (buffer : Buffer) : Option Bytes :=
  if buffer.len ≤ buffer.bytes.length then some (buffer.bytes.take buffer.len) else none

/-- Copies into `as_mut_slice`, unless that is out of bounds. -/
def write (buffer : Buffer) (start : ℕ) (data : Bytes) : Option Buffer :=
  if buffer.len ≤ buffer.bytes.length ∧ start + data.length ≤ buffer.len then
    some { buffer with bytes := overlay start data buffer.bytes }
  else none

/-- The other buffer behind this one, if there is room; unless the copy is out of bounds or of another length. -/
def append (buffer other : Buffer) : Option (Buffer × Bool) :=
  match checkedAdd buffer.len other.len with
  | none => some (buffer, false)
  | some stop =>
    if stop > buffer.bytes.length then some (buffer, false)
    else
      match other.asSlice with
      | none => none
      | some data =>
        if buffer.len ≤ stop ∧ data.length = stop - buffer.len then
          some (⟨overlay buffer.len data buffer.bytes, stop⟩, true)
        else none

end Buffer

/-! ### The pool -/

/-- How far somebody is who asked for a buffer. -/
inductive Holder
  /-- `acquire` waits for a credit. -/
  | waiting (length : ℕ)
  /-- It has been given one, and has no block yet. -/
  | credited (length : ℕ)
  | holds (buffer : Buffer)
  /-- The buffer was dropped and its block is back, its credit is not. -/
  | returning
  | done
  | refused (error : BufferError)
deriving DecidableEq, Repr

/-- A credit is out for it. -/
def Holder.charged : Holder → Bool
  | credited _ | holds _ | returning => true
  | _ => false

/-- It is a buffer that can be used. -/
def Holder.live : Holder → Bool
  | holds _ => true
  | _ => false

/-- It has a credit and no buffer: `acquire` or `drop` is under way. -/
def Holder.underway : Holder → Bool
  | credited _ | returning => true
  | _ => false

/-- A pool, and everybody who asked for a buffer of it. -/
structure Pool where
  size : BufferPool
  /-- `permits.available_permits()`. -/
  available : ℕ
  closed : Bool
  /-- Blocks that came back, the last one first. -/
  free : List Bytes
  /-- Somebody has panicked with the lock of `free`. -/
  poisoned : Bool
  holders : List (ℕ × Holder)
deriving Repr

inductive Act
  | acquire (id length : ℕ)
  | grant (id : ℕ)
  | take (id : ℕ)
  | fail (id : ℕ) (error : BufferError)
  | write (id start : ℕ) (data : Bytes)
  | append (id other : ℕ)
  | drop (id : ℕ)
  | release (id : ℕ)
  | close
  | poison
deriving DecidableEq, Repr

namespace Pool

/-- A pool nobody has used. -/
def fresh (size : BufferPool) : Pool := ⟨size, size.blocks, false, [], false, []⟩

def inUse (pool : Pool) : ℕ := (pool.size.blocks - pool.available) * pool.size.block

def settle (id : ℕ) (holder : Holder) (pool : Pool) : Pool :=
  { pool with holders := adjust id (fun _ ↦ holder) pool.holders }

/-- Why an `acquire` may be given up: it is cancelled, or there is nothing to wait for. -/
def refuses (pool : Pool) (credited : Bool) : BufferError → Bool
  | .cancelled => true
  | .closed => pool.closed || credited && pool.poisoned
  | _ => false

/-- The block `acquire` takes, and what is left. -/
def takeBlock (pool : Pool) : Bytes × List Bytes :=
  match pool.free with
  | [] => (List.replicate pool.size.block 0, [])
  | bytes :: free => (bytes, free)

/-- One act of somebody, or nothing if it is not possible or panics. -/
def step (pool : Pool) : Act → Option Pool
  | .acquire id length =>
    if id ∈ keys pool.holders then none
    else if length = 0 ∨ length > pool.size.block then
      some { pool with holders := (id, .refused .invalidLength) :: pool.holders }
    else some { pool with holders := (id, .waiting length) :: pool.holders }
  | .grant id =>
    match pool.holders.lookup id with
    | some (.waiting length) =>
      if pool.available = 0 ∨ pool.closed then none
      else some ({ pool with available := pool.available - 1 }.settle id (.credited length))
    | _ => none
  | .take id =>
    match pool.holders.lookup id with
    | some (.credited length) =>
      let (bytes, free) := pool.takeBlock
      if pool.poisoned ∨ length > bytes.length then none
      else some ({ pool with free }.settle id (.holds ⟨overlay 0 (List.replicate length 0) bytes, length⟩))
    | _ => none
  | .fail id error =>
    match pool.holders.lookup id with
    | some (.waiting _) => if pool.refuses false error then some (pool.settle id (.refused error)) else none
    | some (.credited _) =>
      if pool.refuses true error then
        some ({ pool with available := pool.available + 1 }.settle id (.refused error))
      else none
    | _ => none
  | .write id start data =>
    match pool.holders.lookup id with
    | some (.holds buffer) => (buffer.write start data).map fun buffer ↦ pool.settle id (.holds buffer)
    | _ => none
  | .append id other =>
    if id = other then none
    else
      match pool.holders.lookup id, pool.holders.lookup other with
      | some (.holds buffer), some (.holds data) =>
        (buffer.append data).map fun result ↦ pool.settle id (.holds result.1)
      | _, _ => none
  | .drop id =>
    match pool.holders.lookup id with
    | some (.holds buffer) =>
      some ({ pool with
        free := if pool.poisoned then pool.free else buffer.bytes :: pool.free }.settle id .returning)
    | _ => none
  | .release id =>
    match pool.holders.lookup id with
    | some .returning => some ({ pool with available := pool.available + 1 }.settle id .done)
    | _ => none
  | .close => some { pool with closed := true }
  | .poison => some { pool with poisoned := true }

/-- Acts one after another. -/
def run (size : BufferPool) (acts : List Act) : Option Pool := acts.foldlM step (fresh size)

/-- The buffers that can be used. -/
def buffers (pool : Pool) : ℕ := pool.holders.countP fun e ↦ e.2.live

/-- The credits of those who have no buffer yet, or none any more. -/
def underway (pool : Pool) : ℕ := pool.holders.countP fun e ↦ e.2.underway

end Pool

/-! ### One buffer -/

@[simp] theorem length_overlay {start : ℕ} {data l : Bytes} (h : start + data.length ≤ l.length) :
    (overlay start data l).length = l.length := by
  simp only [overlay, List.length_append, List.length_take, List.length_drop]
  omega

theorem overlay_append {start : ℕ} {data l l' : Bytes} (h : start + data.length ≤ l.length) :
    overlay start data (l ++ l') = overlay start data l ++ l' := by
  rw [overlay, List.take_append_of_le_length (by omega), List.drop_append_of_le_length h, ← List.append_assoc]
  rfl

/-- What is copied inside the visible part changes the visible part only. -/
theorem take_overlay {start len : ℕ} {data l : Bytes} (h : start + data.length ≤ len) (hlen : len ≤ l.length) :
    (overlay start data l).take len = overlay start data (l.take len) := by
  have htake : (l.take len).length = len := by rw [List.length_take, Nat.min_eq_left hlen]
  have hinside : start + data.length ≤ (l.take len).length := h.trans htake.ge
  have hvisible : (overlay start data (l.take len)).length = len := by rw [length_overlay hinside, htake]
  conv_lhs => rw [← List.take_append_drop len l]
  rw [overlay_append hinside, List.take_append_of_le_length hvisible.ge, List.take_of_length_le hvisible.le]

theorem take_overlay_zero (data l : Bytes) : (overlay 0 data l).take data.length = data := by
  simp [overlay]

theorem take_overlay_end {len : ℕ} {data l : Bytes} (h : len + data.length ≤ l.length) :
    (overlay len data l).take (len + data.length) = l.take len ++ data := by
  have hlen : (l.take len ++ data).length = len + data.length := by
    rw [List.length_append, List.length_take]
    omega
  rw [overlay, List.take_append_of_le_length hlen.ge, List.take_of_length_le hlen.le]

/-- A buffer whose visible part is in its block, which has this length. -/
structure Buffer.Fits (block : ℕ) (buffer : Buffer) : Prop where
  bytes : buffer.bytes.length = block
  len : buffer.len ≤ block

namespace Buffer

variable {buffer buffer' other : Buffer} {block start : ℕ} {data : Bytes} {more : Bool}

theorem Fits.asSlice (h : buffer.Fits block) : buffer.asSlice = some (buffer.bytes.take buffer.len) :=
  if_pos (h.len.trans h.bytes.ge)

theorem asSlice_eq_some {l : Bytes} (h : buffer.asSlice = some l) : l = buffer.bytes.take buffer.len ∧ l.length = buffer.len := by
  unfold Buffer.asSlice at h
  split at h
  next hle =>
    obtain rfl := Option.some.inj h
    exact ⟨rfl, by rw [List.length_take, Nat.min_eq_left hle]⟩
  · cases h

theorem write_bounds (h : buffer.write start data = some buffer') : start + data.length ≤ buffer.len := by
  unfold Buffer.write at h
  split at h
  next hle => exact hle.2
  · cases h

/-- **Writing** changes what is visible and nothing else. -/
theorem Fits.write (h : buffer.Fits block) (hwrite : buffer.write start data = some buffer') :
    buffer'.Fits block ∧ buffer'.asSlice = some (overlay start data (buffer.bytes.take buffer.len)) := by
  unfold Buffer.write at hwrite
  split at hwrite
  next hle =>
    obtain rfl := Option.some.inj hwrite
    obtain ⟨hlen, hdata⟩ := hle
    have hfits : Fits block { buffer with bytes := overlay start data buffer.bytes } :=
      ⟨by rw [length_overlay (by omega), h.bytes], h.len⟩
    exact ⟨hfits, by rw [hfits.asSlice, take_overlay hdata hlen]⟩
  · cases hwrite

/-- **Appending** is in bounds, and reveals what was appended if there is room. -/
theorem Fits.append (h : buffer.Fits block) (hother : other.Fits block) (hblock : 2 * block ≤ u64Max) :
    ∃ buffer', buffer.append other = some (buffer', decide (buffer.len + other.len ≤ block)) ∧ buffer'.Fits block ∧
      buffer'.asSlice = some (if buffer.len + other.len ≤ block then
        buffer.bytes.take buffer.len ++ other.bytes.take other.len else buffer.bytes.take buffer.len) := by
  have hlen := h.len
  have hlen' := hother.len
  have hadd : checkedAdd buffer.len other.len = some (buffer.len + other.len) :=
    checkedAdd_eq_some.2 ⟨by omega, rfl⟩
  have hdata : (other.bytes.take other.len).length = other.len := by
    rw [List.length_take, hother.bytes, Nat.min_eq_left hlen']
  unfold Buffer.append
  rw [hadd]
  dsimp only
  rw [h.bytes, hother.asSlice]
  by_cases hroom : buffer.len + other.len ≤ block
  · have hcopy : buffer.len ≤ buffer.len + other.len ∧
        (other.bytes.take other.len).length = buffer.len + other.len - buffer.len := ⟨by omega, by omega⟩
    rw [if_neg (by omega), if_pos hroom, decide_eq_true hroom]
    dsimp only
    rw [if_pos hcopy]
    have hbytes : buffer.len + (other.bytes.take other.len).length ≤ buffer.bytes.length := by
      rw [hdata, h.bytes]
      exact hroom
    have hfits : Fits block ⟨overlay buffer.len (other.bytes.take other.len) buffer.bytes, buffer.len + other.len⟩ :=
      ⟨by rw [length_overlay hbytes, h.bytes], hroom⟩
    refine ⟨_, rfl, hfits, ?_⟩
    have hshown := take_overlay_end hbytes
    rw [hdata] at hshown
    rw [hfits.asSlice, hshown]
  · rw [if_pos (by omega), if_neg hroom, decide_eq_false hroom]
    exact ⟨_, rfl, h, h.asSlice⟩

end Buffer

/-! ### Credits and blocks -/

/-- What fits in the blocks of the pool. -/
def Holder.Fits (block : ℕ) : Holder → Prop
  | .waiting length | .credited length => length ≤ block
  | .holds buffer => buffer.Fits block
  | _ => True

namespace Pool

variable {size : BufferPool} {pool pool' : Pool} {id : ℕ} {holder holder' : Holder} {act : Act}

/-- **What every act keeps.** -/
structure Sound (size : BufferPool) (pool : Pool) : Prop where
  sized : pool.size = size
  nodup : (keys pool.holders).Nodup
  /-- Every credit is available or out. -/
  credits : pool.available + pool.holders.countP (fun e ↦ e.2.charged) = size.blocks
  blocks : pool.free.length + pool.buffers ≤ size.blocks
  free : ∀ bytes ∈ pool.free, bytes.length = size.block
  holders : ∀ id holder, (id, holder) ∈ pool.holders → holder.Fits size.block

theorem sound_fresh (size : BufferPool) : Sound size (fresh size) :=
  ⟨rfl, List.nodup_nil, rfl, Nat.zero_le _, nofun, nofun⟩

@[simp] theorem holders_settle (id : ℕ) (holder : Holder) (pool : Pool) :
    (pool.settle id holder).holders = adjust id (fun _ ↦ holder) pool.holders := rfl

/-- **One holder changes**, with the credit and the block it gives or takes. -/
theorem Sound.settle (h : Sound size pool) (hholder : pool.holders.lookup id = some holder) {available : ℕ}
    {free : List Bytes} (hcredits : available + holder'.charged.toNat = pool.available + holder.charged.toNat)
    (hblocks : free.length + pool.buffers + holder'.live.toNat ≤ size.blocks + holder.live.toNat)
    (hfree : ∀ bytes ∈ free, bytes.length = size.block) (hfits : holder'.Fits size.block) :
    Sound size ({ pool with available, free }.settle id holder') := by
  have hcount : ∀ p : Holder → Bool, (adjust id (fun _ ↦ holder') pool.holders).countP (fun e ↦ p e.2) +
      (p holder).toNat = pool.holders.countP (fun e ↦ p e.2) + (p holder').toNat := fun p ↦ countP_adjust hholder
  refine ⟨h.sized, ?_, ?_, ?_, hfree, fun id' other hother ↦ ?_⟩
  · rw [holders_settle, keys_adjust]
    exact h.nodup
  · show available + (adjust id (fun _ ↦ holder') pool.holders).countP (fun e ↦ e.2.charged) = size.blocks
    have := hcount Holder.charged
    have := h.credits
    omega
  · show free.length + (adjust id (fun _ ↦ holder') pool.holders).countP (fun e ↦ e.2.live) ≤ size.blocks
    have := hcount Holder.live
    rw [buffers] at hblocks
    omega
  · rw [holders_settle] at hother
    rcases (mem_adjust h.nodup).1 hother with ⟨-, hold⟩ | ⟨v, -, heq⟩
    · exact h.holders id' other hold
    · rw [(Prod.mk.inj heq).2]
      exact hfits

/-- Every buffer has a credit. -/
theorem live_le_charged (holders : List (ℕ × Holder)) :
    holders.countP (fun e ↦ e.2.live) ≤ holders.countP fun e ↦ e.2.charged := by
  refine List.countP_mono_left fun e _ hlive ↦ ?_
  revert hlive
  cases e.2 <;> simp [Holder.live, Holder.charged]

/-- Who has a credit and no buffer leaves room for one. -/
theorem Sound.room (h : Sound size pool) {length : ℕ} (hholder : pool.holders.lookup id = some (.credited length)) :
    pool.buffers + 1 ≤ size.blocks := by
  obtain ⟨l, hl⟩ : ∃ l, l = adjust id (fun _ ↦ .holds ⟨[], 0⟩) pool.holders := ⟨_, rfl⟩
  have hcount : ∀ p : Holder → Bool, l.countP (fun e ↦ p e.2) + (p (.credited length)).toNat =
      pool.holders.countP (fun e ↦ p e.2) + (p (.holds ⟨[], 0⟩)).toNat := fun p ↦ hl ▸ countP_adjust hholder
  have hlive : l.countP (fun e ↦ e.2.live) = pool.buffers + 1 := hcount Holder.live
  have hcharged : l.countP (fun e ↦ e.2.charged) + 1 = pool.holders.countP (fun e ↦ e.2.charged) + 1 :=
    hcount Holder.charged
  have := live_le_charged l
  have := h.credits
  omega

/-! ### What an act does -/

/-- **The acts that are possible**, and what they make of the pool. -/
inductive Stepped (pool : Pool) : Act → Pool → Prop
  | refused {id length : ℕ} (hnew : id ∉ keys pool.holders) :
    Stepped pool (.acquire id length) { pool with holders := (id, .refused .invalidLength) :: pool.holders }
  | waits {id length : ℕ} (hnew : id ∉ keys pool.holders) (hlength : length ≤ pool.size.block) :
    Stepped pool (.acquire id length) { pool with holders := (id, .waiting length) :: pool.holders }
  | granted {id length : ℕ} (hholder : pool.holders.lookup id = some (.waiting length)) (hpos : 0 < pool.available) :
    Stepped pool (.grant id) ({ pool with available := pool.available - 1 }.settle id (.credited length))
  | taken {id length : ℕ} (hholder : pool.holders.lookup id = some (.credited length))
      (hlength : length ≤ pool.takeBlock.1.length) :
    Stepped pool (.take id) ({ pool with free := pool.takeBlock.2 }.settle id
      (.holds ⟨overlay 0 (List.replicate length 0) pool.takeBlock.1, length⟩))
  | left {id length : ℕ} {error : BufferError} (hholder : pool.holders.lookup id = some (.waiting length)) :
    Stepped pool (.fail id error) (pool.settle id (.refused error))
  | gaveBack {id length : ℕ} {error : BufferError} (hholder : pool.holders.lookup id = some (.credited length)) :
    Stepped pool (.fail id error) ({ pool with available := pool.available + 1 }.settle id (.refused error))
  | wrote {id start : ℕ} {data : Bytes} {buffer buffer' : Buffer}
      (hholder : pool.holders.lookup id = some (.holds buffer)) (hwrite : buffer.write start data = some buffer') :
    Stepped pool (.write id start data) (pool.settle id (.holds buffer'))
  | appended {id other : ℕ} {buffer data : Buffer} {result : Buffer × Bool} (hne : id ≠ other)
      (hholder : pool.holders.lookup id = some (.holds buffer)) (hother : pool.holders.lookup other = some (.holds data))
      (happend : buffer.append data = some result) :
    Stepped pool (.append id other) (pool.settle id (.holds result.1))
  | dropped {id : ℕ} {buffer : Buffer} (hholder : pool.holders.lookup id = some (.holds buffer)) :
    Stepped pool (.drop id) ({ pool with
      free := if pool.poisoned then pool.free else buffer.bytes :: pool.free }.settle id .returning)
  | released {id : ℕ} (hholder : pool.holders.lookup id = some .returning) :
    Stepped pool (.release id) ({ pool with available := pool.available + 1 }.settle id .done)
  | closed : Stepped pool .close { pool with closed := true }
  | poisoned : Stepped pool .poison { pool with poisoned := true }

theorem stepped_of_step (h : pool.step act = some pool') : Stepped pool act pool' := by
  cases act with
  | acquire id length =>
    rw [step] at h
    split_ifs at h with hold hlength
    · obtain rfl := Option.some.inj h
      exact .refused hold
    · obtain rfl := Option.some.inj h
      exact .waits hold (not_lt.1 (not_or.1 hlength).2)
  | grant id =>
    rw [step] at h
    split at h
    next length hholder =>
      split_ifs at h with hno
      obtain rfl := Option.some.inj h
      exact .granted hholder (Nat.pos_of_ne_zero (not_or.1 hno).1)
    · cases h
  | take id =>
    rw [step] at h
    split at h
    next length hholder =>
      dsimp only at h
      split_ifs at h with hno
      obtain rfl := Option.some.inj h
      exact .taken hholder (not_lt.1 (not_or.1 hno).2)
    · cases h
  | fail id error =>
    rw [step] at h
    split at h
    next length hholder =>
      split_ifs at h
      obtain rfl := Option.some.inj h
      exact .left hholder
    next length hholder =>
      split_ifs at h
      obtain rfl := Option.some.inj h
      exact .gaveBack hholder
    · cases h
  | write id start data =>
    rw [step] at h
    split at h
    next buffer hholder =>
      obtain ⟨buffer', hwrite, rfl⟩ := Option.map_eq_some_iff.1 h
      exact .wrote hholder hwrite
    · cases h
  | append id other =>
    rw [step] at h
    split_ifs at h with hne
    split at h
    next buffer data hholder hother =>
      obtain ⟨result, happend, rfl⟩ := Option.map_eq_some_iff.1 h
      exact .appended hne hholder hother happend
    · cases h
  | drop id =>
    rw [step] at h
    split at h
    next buffer hholder =>
      obtain rfl := Option.some.inj h
      exact .dropped hholder
    · cases h
  | release id =>
    rw [step] at h
    split at h
    next hholder =>
      obtain rfl := Option.some.inj h
      exact .released hholder
    · cases h
  | close =>
    obtain rfl := Option.some.inj h
    exact .closed
  | poison =>
    obtain rfl := Option.some.inj h
    exact .poisoned

/-- Somebody who asks has neither a credit nor a block. -/
theorem Sound.enter (h : Sound size pool) {id : ℕ} (hnew : id ∉ keys pool.holders) (hcharged : holder.charged = false)
    (hlive : holder.live = false) (hfits : holder.Fits size.block) :
    Sound size { pool with holders := (id, holder) :: pool.holders } := by
  refine ⟨h.sized, List.nodup_cons.2 ⟨hnew, h.nodup⟩, ?_, ?_, h.free, fun id' other hother ↦ ?_⟩
  · rw [List.countP_cons_of_neg (by simp [hcharged])]
    exact h.credits
  · have hsame : buffers { pool with holders := (id, holder) :: pool.holders } = pool.buffers :=
      List.countP_cons_of_neg (by simp [hlive])
    rw [hsame]
    exact h.blocks
  · rcases List.mem_cons.1 hother with heq | hold
    · rw [(Prod.mk.inj heq).2]
      exact hfits
    · exact h.holders id' other hold

theorem Sound.fits (h : Sound size pool) (hholder : pool.holders.lookup id = some holder) : holder.Fits size.block :=
  h.holders _ _ (mem_of_lookup hholder)

/-- A block of the free list, or a new one, has the length of the pool's blocks. -/
theorem Sound.length_takeBlock (h : Sound size pool) : pool.takeBlock.1.length = size.block := by
  unfold takeBlock
  split
  · rw [List.length_replicate, h.sized]
  next bytes free hfree => exact h.free bytes (hfree ▸ List.mem_cons_self)

theorem two_mul_block_le (size : BufferPool) : 2 * size.block ≤ u64Max := by
  have hmax : size.block ≤ maxBuffer := by rcases size.block_eq with h | ⟨h, -⟩ <;> omega
  have : 2 * maxBuffer ≤ u64Max := by decide
  omega

/-- **Every act** keeps the credits, the blocks and the lengths. -/
theorem Sound.step (h : Sound size pool) (hstep : Stepped pool act pool') : Sound size pool' := by
  have hblocks := h.blocks
  cases hstep with
  | refused hnew => exact h.enter hnew rfl rfl trivial
  | waits hnew hlength => exact h.enter hnew rfl rfl (h.sized ▸ hlength)
  | @granted id length hholder hpos =>
    have hfits : length ≤ size.block := h.fits hholder
    exact h.settle hholder (Nat.sub_add_cancel hpos) hblocks h.free hfits
  | @taken id length hholder hlength =>
    have hbytes := h.length_takeBlock
    have hfits : Buffer.Fits size.block ⟨overlay 0 (List.replicate length 0) pool.takeBlock.1, length⟩ :=
      ⟨by rw [length_overlay (by simpa using hlength), hbytes], h.fits hholder⟩
    refine h.settle hholder rfl ?_ ?_ hfits
    · unfold takeBlock
      split
      · -- a new block is made for a credit that has none
        have hroom := h.room hholder
        simp only [List.length_nil, Holder.live, Bool.toNat_true, Bool.toNat_false]
        omega
      next bytes free hfree =>
        rw [hfree] at hblocks
        simp only [List.length_cons, Holder.live, Bool.toNat_true, Bool.toNat_false] at hblocks ⊢
        omega
    · unfold takeBlock
      split
      · nofun
      next bytes free hfree => exact fun l hl ↦ h.free l (hfree ▸ List.mem_cons_of_mem _ hl)
  | left hholder => exact h.settle hholder rfl hblocks h.free trivial
  | gaveBack hholder => exact h.settle hholder rfl hblocks h.free trivial
  | wrote hholder hwrite =>
    have hfits : Buffer.Fits size.block _ := h.fits hholder
    exact h.settle hholder rfl (Nat.add_le_add_right hblocks 1) h.free (hfits.write hwrite).1
  | appended hne hholder hother happend =>
    have hfits : Buffer.Fits size.block _ := h.fits hholder
    have hfits' : Buffer.Fits size.block _ := h.fits hother
    obtain ⟨buffer', hresult, hkept, -⟩ := hfits.append hfits' (two_mul_block_le size)
    obtain rfl := Option.some.inj (happend.symm.trans hresult)
    exact h.settle hholder rfl (Nat.add_le_add_right hblocks 1) h.free hkept
  | @dropped id buffer hholder =>
    have hfits : Buffer.Fits size.block buffer := h.fits hholder
    refine h.settle hholder rfl ?_ ?_ trivial
    · split <;> simp only [List.length_cons, Holder.live, Bool.toNat_true, Bool.toNat_false] <;> omega
    · split
      · exact h.free
      · exact List.forall_mem_cons.2 ⟨hfits.bytes, h.free⟩
  | released hholder => exact h.settle hholder rfl hblocks h.free trivial
  | closed => exact ⟨h.sized, h.nodup, h.credits, h.blocks, h.free, h.holders⟩
  | poisoned => exact ⟨h.sized, h.nodup, h.credits, h.blocks, h.free, h.holders⟩

end Pool

/-! ### What a holder sees -/

/-- What everybody would see if nobody had anything of anybody else: a buffer begins with zeros, and only its holder
writes to it and appends to it. -/
def look (block : ℕ) (view : ℕ → Bytes) : Act → ℕ → Bytes
  | .acquire id length => Function.update view id (List.replicate length 0)
  | .write id start data => Function.update view id (overlay start data (view id))
  | .append id other =>
    if (view id).length + (view other).length ≤ block then Function.update view id (view id ++ view other) else view
  | _ => view

def shown (block : ℕ) (acts : List Act) : ℕ → Bytes := acts.foldl (look block) fun _ ↦ []

@[simp] theorem shown_concat (block : ℕ) (acts : List Act) (act : Act) :
    shown block (acts ++ [act]) = look block (shown block acts) act := by
  simp [shown]

/-- Whose buffer an act is about. -/
def Act.subject : Act → Option ℕ
  | acquire id _ | grant id | take id | fail id _ | write id _ _ | append id _ | drop id | release id => some id
  | close | poison => none

/-- The acts of the holders of a group. -/
def actsOf (group : ℕ → Bool) (acts : List Act) : List Act := acts.filter fun act ↦ act.subject.any group

variable {group : ℕ → Bool} {block : ℕ} {acts : List Act}

/-- What others do is not seen. -/
theorem look_other {view : ℕ → Bytes} {act : Act} (h : act.subject.any group = false) {id : ℕ} (hid : group id = true) :
    look block view act id = view id := by
  have hne : ∀ {other}, group other = false → id ≠ other := by
    rintro _ hother rfl
    rw [hid] at hother
    cases hother
  cases act with
  | acquire => exact Function.update_of_ne (hne h) _ _
  | write => exact Function.update_of_ne (hne h) _ _
  | append =>
    rw [look]
    split
    · exact Function.update_of_ne (hne h) _ _
    · rfl
  | grant | take | fail | drop | release | close | poison => rfl

/-- **What a group is shown** depends on nothing but its own acts, if it appends no buffers of others. -/
theorem shown_actsOf (hclosed : ∀ id other, .append id other ∈ acts → group id = true → group other = true) :
    ∀ id, group id = true → shown block acts id = shown block (actsOf group acts) id := by
  induction acts using List.reverseRecOn with
  | nil => exact fun _ _ ↦ rfl
  | append_singleton acts act ih =>
    have ih := ih fun id other hmem ↦ hclosed id other (List.mem_append_left _ hmem)
    intro id hid
    have hfilter : actsOf group (acts ++ [act]) = actsOf group acts ++ if act.subject.any group then [act] else [] := by
      rw [actsOf, List.filter_append, List.filter_singleton, Bool.cond_eq_ite]
      rfl
    rw [hfilter, shown_concat]
    by_cases hact : act.subject.any group = true
    · rw [if_pos hact, shown_concat]
      cases act with
      | acquire id' length =>
        simp only [look, Function.update_apply]
        rw [ih id hid]
      | write id' start data =>
        simp only [look, Function.update_apply]
        rw [ih id hid, ih id' hact]
      | append id' other =>
        have hother : group other = true := hclosed id' other (by simp) hact
        simp only [look, ih id' hact, ih other hother]
        split
        · simp only [Function.update_apply]
          rw [ih id hid]
        · exact ih id hid
      | grant | take | fail | drop | release | close | poison => exact ih id hid
    · rw [if_neg hact, List.append_nil, look_other (Bool.not_eq_true _ ▸ hact) hid]
      exact ih id hid

/-- A buffer shows these bytes, and who waits for one will be shown them. -/
def Holder.Shows (visible : Bytes) : Holder → Prop
  | .waiting length | .credited length => visible = List.replicate length 0
  | .holds buffer => buffer.asSlice = some visible
  | _ => True

namespace Pool

/-- Everybody sees what they would see alone. -/
def Shows (view : ℕ → Bytes) (pool : Pool) : Prop :=
  ∀ id holder, pool.holders.lookup id = some holder → holder.Shows (view id)

variable {size : BufferPool} {pool pool' : Pool} {view view' : ℕ → Bytes} {id : ℕ} {holder holder' : Holder} {act : Act}

theorem Shows.settle (h : pool.Shows view) (hholders : pool'.holders = adjust id (fun _ ↦ holder') pool.holders)
    (hothers : ∀ other ≠ id, view' other = view other) (hshows : holder'.Shows (view' id)) : pool'.Shows view' := by
  intro other holder hother
  rw [hholders, lookup_adjust] at hother
  by_cases hid : other = id
  · subst hid
    rw [if_pos rfl, Option.map_eq_some_iff] at hother
    obtain ⟨_, -, rfl⟩ := hother
    exact hshows
  · rw [if_neg hid] at hother
    rw [hothers other hid]
    exact h other holder hother

theorem Shows.enter (h : pool.Shows view) (hothers : ∀ other ≠ id, view' other = view other)
    (hshows : holder.Shows (view' id)) : Shows view' { pool with holders := (id, holder) :: pool.holders } := by
  intro other holder' hother
  by_cases hid : other = id
  · subst hid
    rw [List.lookup_cons_self] at hother
    exact Option.some.inj hother ▸ hshows
  · rw [List.lookup_cons, beq_false_of_ne hid] at hother
    rw [hothers other hid]
    exact h other holder' hother

/-- **Every act** shows everybody what it would show them alone. -/
theorem Shows.step (h : pool.Shows view) (hsound : Sound size pool) (hstep : Stepped pool act pool') :
    pool'.Shows (look size.block view act) := by
  cases hstep with
  | refused hnew => exact h.enter (fun other hne ↦ Function.update_of_ne hne _ _) trivial
  | waits hnew hlength => exact h.enter (fun other hne ↦ Function.update_of_ne hne _ _) (Function.update_self _ _ _)
  | @granted id length hholder hpos =>
    have hzeros : view id = List.replicate length 0 := h _ _ hholder
    exact h.settle rfl (fun _ _ ↦ rfl) hzeros
  | @taken id length hholder hlength =>
    have hbytes := hsound.length_takeBlock
    have hlen : length ≤ size.block := hsound.fits hholder
    have hfits : Buffer.Fits size.block ⟨overlay 0 (List.replicate length 0) pool.takeBlock.1, length⟩ :=
      ⟨by rw [length_overlay (by simpa using hlength), hbytes], hlen⟩
    refine h.settle rfl (fun _ _ ↦ rfl) ?_
    have hzeros : view id = List.replicate length 0 := h _ _ hholder
    have htake := take_overlay_zero (List.replicate length 0) pool.takeBlock.1
    rw [List.length_replicate] at htake
    show Buffer.asSlice _ = some (view id)
    rw [hfits.asSlice, htake, hzeros]
  | left hholder => exact h.settle rfl (fun _ _ ↦ rfl) trivial
  | gaveBack hholder => exact h.settle rfl (fun _ _ ↦ rfl) trivial
  | @wrote id start data buffer buffer' hholder hwrite =>
    have hfits : Buffer.Fits size.block buffer := hsound.fits hholder
    refine h.settle rfl (fun other hne ↦ Function.update_of_ne hne _ _) ?_
    have hview : buffer.asSlice = some (view id) := h _ _ hholder
    have hsame : view id = buffer.bytes.take buffer.len := (Buffer.asSlice_eq_some hview).1
    show buffer'.asSlice = some (Function.update view id (overlay start data (view id)) id)
    rw [(hfits.write hwrite).2, Function.update_self, hsame]
  | @appended id other buffer data result hne hholder hother happend =>
    have hfits : Buffer.Fits size.block buffer := hsound.fits hholder
    have hfits' : Buffer.Fits size.block data := hsound.fits hother
    obtain ⟨hsame, hlen⟩ := Buffer.asSlice_eq_some (h _ _ hholder)
    obtain ⟨hsame', hlen'⟩ := Buffer.asSlice_eq_some (h _ _ hother)
    obtain ⟨buffer', hresult, -, hslice⟩ := hfits.append hfits' (two_mul_block_le size)
    obtain rfl := Option.some.inj (happend.symm.trans hresult)
    rw [← hsame, ← hsame', ← hlen, ← hlen'] at hslice
    refine h.settle rfl (fun other' hne' ↦ ?_) ?_
    · rw [look]
      split
      · exact Function.update_of_ne hne' _ _
      · rfl
    · show buffer'.asSlice = some _
      rw [hslice, look]
      split
      · rw [Function.update_self]
      · rfl
  | dropped hholder => exact h.settle rfl (fun _ _ ↦ rfl) trivial
  | released hholder => exact h.settle rfl (fun _ _ ↦ rfl) trivial
  | closed => exact h
  | poisoned => exact h

/-! ### Runs -/

variable {acts : List Act}

theorem run_concat (size : BufferPool) (acts : List Act) (act : Act) :
    run size (acts ++ [act]) = (run size acts).bind fun pool ↦ pool.step act := by
  rw [run, List.foldlM_append]
  simp [run]

theorem run_concat_eq_some (h : run size (acts ++ [act]) = some pool') :
    ∃ pool, run size acts = some pool ∧ Stepped pool act pool' := by
  rw [run_concat, Option.bind_eq_some_iff] at h
  obtain ⟨pool, hrun, hstep⟩ := h
  exact ⟨pool, hrun, stepped_of_step hstep⟩

/-- **Every pool that is reached** is sound, and shows everybody what they would see alone. -/
theorem run_sound (h : run size acts = some pool) : Sound size pool ∧ pool.Shows (shown size.block acts) := by
  induction acts using List.reverseRecOn generalizing pool with
  | nil =>
    obtain rfl := Option.some.inj h
    exact ⟨sound_fresh size, nofun⟩
  | append_singleton acts act ih =>
    obtain ⟨before, hrun, hstep⟩ := run_concat_eq_some h
    obtain ⟨hsound, hshows⟩ := ih hrun
    rw [shown_concat]
    exact ⟨hsound.step hstep, hshows.step hsound hstep⟩

/-- What is shown of a buffer is what its slice shows. -/
theorem shown_eq (h : run size acts = some pool) {buffer : Buffer}
    (hholder : pool.holders.lookup id = some (.holds buffer)) : buffer.asSlice = some (shown size.block acts id) :=
  (run_sound h).2 id _ hholder

/-! ### Where a visible byte comes from -/

/-- **Where a byte of a buffer comes from**, which has been at the place `p` since. -/
inductive Source (size : BufferPool) (acts : List Act) (id p : ℕ) (b : UInt8) : Prop
  | zero (h : b = 0)
  | written {before after : List Act} {start : ℕ} {data : Bytes}
      (hacts : acts = before ++ .write id start data :: after) (hstart : start ≤ p) (hdata : data[p - start]? = some b)
  | appended {before after : List Act} {other q : ℕ} {pool : Pool} {buffer : Buffer} {visible : Bytes}
      (hacts : acts = before ++ .append id other :: after) (hrun : run size before = some pool)
      (hother : pool.holders.lookup other = some (.holds buffer)) (hslice : buffer.asSlice = some visible)
      (hq : q ≤ p) (hdata : visible[p - q]? = some b)

theorem Source.concat {p : ℕ} {b : UInt8} (h : Source size acts id p b) (act : Act) :
    Source size (acts ++ [act]) id p b := by
  cases h with
  | zero h => exact .zero h
  | written hacts hstart hdata => exact .written (by rw [hacts, List.append_assoc]; rfl) hstart hdata
  | appended hacts hrun hother hslice hq hdata =>
    exact .appended (by rw [hacts, List.append_assoc]; rfl) hrun hother hslice hq hdata

theorem getElem?_overlay {start p : ℕ} {data l : Bytes} {b : UInt8} (h : start + data.length ≤ l.length)
    (hp : (overlay start data l)[p]? = some b) : l[p]? = some b ∨ start ≤ p ∧ data[p - start]? = some b := by
  have htake : (l.take start).length = start := by rw [List.length_take, Nat.min_eq_left (by omega)]
  rw [overlay, List.append_assoc, List.getElem?_append, htake] at hp
  split at hp
  next hlt => exact .inl (by rwa [List.getElem?_take_of_lt hlt] at hp)
  next hge =>
    rw [List.getElem?_append] at hp
    split at hp
    next hlt => exact .inr ⟨not_lt.1 hge, hp⟩
    next hge' =>
      rw [List.getElem?_drop] at hp
      exact .inl (by rwa [show start + data.length + (p - start - data.length) = p by omega] at hp)

/-- **Every visible byte** is zero, was written by the holder of the buffer, or was visible in a buffer it appended. -/
theorem source_of_shown {p : ℕ} {b : UInt8} (h : run size acts = some pool)
    (hp : (shown size.block acts id)[p]? = some b) : Source size acts id p b := by
  induction acts using List.reverseRecOn generalizing pool p b with
  | nil => simp [shown] at hp
  | append_singleton acts act ih =>
    obtain ⟨before, hrun, hstep⟩ := run_concat_eq_some h
    obtain ⟨hsound, hshows⟩ := run_sound hrun
    rw [shown_concat] at hp
    have hold : (shown size.block acts id)[p]? = some b → Source size (acts ++ [act]) id p b :=
      fun hp ↦ (ih hrun hp).concat act
    -- Only the acts of the holder itself change what it is shown.
    cases act with
    | acquire id' length =>
      by_cases hid : id = id'
      · subst hid
        rw [look, Function.update_self] at hp
        exact .zero (List.eq_of_mem_replicate (List.mem_of_getElem? hp))
      · rw [look, Function.update_of_ne hid] at hp
        exact hold hp
    | write id' start data =>
      by_cases hid : id = id'
      · subst hid
        rw [look, Function.update_self] at hp
        have hbounds : start + data.length ≤ (shown size.block acts id).length := by
          cases hstep with
          | wrote hholder hwrite =>
            rw [(Buffer.asSlice_eq_some (hshows _ _ hholder)).2]
            exact Buffer.write_bounds hwrite
        rcases getElem?_overlay hbounds hp with hp | ⟨hstart, hdata⟩
        · exact hold hp
        · exact .written rfl hstart hdata
      · rw [look, Function.update_of_ne hid] at hp
        exact hold hp
    | append id' other =>
      rw [look] at hp
      split at hp
      next hroom =>
        by_cases hid : id = id'
        · subst hid
          rw [Function.update_self, List.getElem?_append] at hp
          split at hp
          · exact hold hp
          next hge =>
            cases hstep with
            | appended hne hholder hother happend =>
              exact .appended rfl hrun hother (hshows _ _ hother) (not_lt.1 hge) hp
        · rw [Function.update_of_ne hid] at hp
          exact hold hp
      · exact hold hp
    | grant | take | fail | drop | release | close | poison => exact hold hp

/-! ### What is in use -/

/-- A credit that is out is that of a buffer, or of somebody who has none yet or none any more. -/
theorem charged_eq (holders : List (ℕ × Holder)) : holders.countP (fun e ↦ e.2.charged) =
    holders.countP (fun e ↦ e.2.live) + holders.countP fun e ↦ e.2.underway := by
  induction holders with
  | nil => rfl
  | cons e holders ih =>
    have hone : e.2.charged.toNat = e.2.live.toNat + e.2.underway.toNat := by cases e.2 <;> rfl
    rw [List.countP_cons, List.countP_cons, List.countP_cons, ih]
    revert hone
    cases e.2.charged <;> cases e.2.live <;> cases e.2.underway <;> simp <;> omega

theorem Sound.inUse (h : Sound size pool) : pool.inUse = (pool.buffers + pool.underway) * size.block := by
  have hcredits := h.credits
  rw [charged_eq] at hcredits
  have hout : size.blocks - pool.available = pool.buffers + pool.underway := by
    rw [buffers, underway]
    omega
  rw [Pool.inUse, h.sized, hout]

/-- **Buffers of a pool leak nothing.** After any acts of anybody, the slice of a buffer is in bounds and shows what it
would show if there were no other buffer, so every byte of it is zero, was written by its holder or was visible in a
buffer that it appended; buffers and free blocks are no more than the blocks of the budget; what is in use are the blocks
of the buffers and of those who have been given a credit and have no buffer yet, or have given back the block and not yet
the credit; and appending is in bounds. -/
theorem pooled_buffers_leak_nothing (h : run size acts = some pool) :
    (∀ id buffer, pool.holders.lookup id = some (.holds buffer) →
      ∃ visible, buffer.asSlice = some visible ∧ visible = shown size.block acts id ∧
        ∀ p b, visible[p]? = some b → Source size acts id p b) ∧
    pool.buffers + pool.free.length ≤ size.blocks ∧
    pool.inUse = (pool.buffers + pool.underway) * size.block ∧
    ∀ id other buffer data, pool.holders.lookup id = some (.holds buffer) →
      pool.holders.lookup other = some (.holds data) → (buffer.append data).isSome := by
  have hsound := (run_sound h).1
  refine ⟨fun id buffer hholder ↦ ⟨_, shown_eq h hholder, rfl, fun p b hp ↦ source_of_shown h hp⟩, ?_, hsound.inUse,
    fun id other buffer data hholder hother ↦ ?_⟩
  · have := hsound.blocks
    omega
  · have hfits : Buffer.Fits size.block buffer := hsound.fits hholder
    have hfits' : Buffer.Fits size.block data := hsound.fits hother
    obtain ⟨buffer', hresult, -⟩ := hfits.append hfits' (two_mul_block_le size)
    rw [hresult]
    rfl

/-- **Two runs that a group cannot tell apart**: whatever others did, and whatever blocks they used, the same acts of the
group show it the same bytes. -/
theorem same_acts_same_bytes {group : ℕ → Bool} {size' : BufferPool} {acts' : List Act} (h : run size acts = some pool)
    (h' : run size' acts' = some pool') (hblock : size.block = size'.block) (hsame : actsOf group acts = actsOf group acts')
    (hclosed : ∀ id other, .append id other ∈ acts ++ acts' → group id = true → group other = true)
    (hid : group id = true) {buffer buffer' : Buffer} (hholder : pool.holders.lookup id = some (.holds buffer))
    (hholder' : pool'.holders.lookup id = some (.holds buffer')) : buffer.asSlice = buffer'.asSlice := by
  rw [shown_eq h hholder, shown_eq h' hholder', ← hblock,
    shown_actsOf (fun i j hmem ↦ hclosed i j (List.mem_append_left _ hmem)) id hid,
    shown_actsOf (fun i j hmem ↦ hclosed i j (List.mem_append_right _ hmem)) id hid, hsame]

/-- One block of sixteen bytes. -/
def sixteen : BufferPool := ⟨16, 1, by decide, Nat.zero_lt_one, .inr ⟨by decide, rfl⟩⟩

/-- A buffer is dropped while somebody waits for one, who is given its credit. -/
def handOver : List Act :=
  [.acquire 0 16, .grant 0, .take 0, .write 0 0 (List.replicate 16 42), .acquire 1 8, .drop 0, .release 0, .grant 1]

/-- Nobody has a buffer, and one block is in use. -/
theorem in_use_without_buffers : BufferPool.new 16 = .ok sixteen ∧
    ¬∀ pool, run sixteen handOver = some pool → pool.inUse = pool.buffers * sixteen.block := by
  have hrun : (run sixteen handOver).map (fun pool ↦ (pool.inUse, pool.buffers)) = some (16, 0) := by decide
  refine ⟨rfl, fun hall ↦ ?_⟩
  obtain ⟨pool, hpool, heq⟩ := Option.map_eq_some_iff.1 hrun
  have huse := hall pool hpool
  rw [(Prod.mk.inj heq).1, (Prod.mk.inj heq).2] at huse
  cases huse

/-- Who waited gets the block, and sees none of what was in it. -/
theorem pooled_buffers_leak_nothing_again : ∃ pool buffer, run sixteen (handOver ++ [.take 1]) = some pool ∧
    pool.holders.lookup 1 = some (.holds buffer) ∧ buffer.bytes = List.replicate 8 0 ++ List.replicate 8 42 ∧
      buffer.asSlice = some (List.replicate 8 0) ∧ pool.buffers + pool.free.length ≤ 1 := by
  have hrun : (run sixteen (handOver ++ [.take 1])).map (fun pool ↦ pool.holders.lookup 1) =
      some (some (.holds ⟨List.replicate 8 0 ++ List.replicate 8 42, 8⟩)) := by decide
  obtain ⟨pool, hpool, hholder⟩ := Option.map_eq_some_iff.1 hrun
  exact ⟨pool, _, hpool, hholder, rfl, rfl, (pooled_buffers_leak_nothing hpool).2.1⟩

end Pool

end Buffers

end Fhd
