import FhdEngine.Runtime.WriterLane
import FhdEngine.Storage.Neighbours

/-!
# The lane of a part

Batching is invisible for a part file (`joins_partFile`), so with `Owes` everything is said that a worker may expect of
the lane: one answer for each command, in order, the one it would have had alone; and once something has failed nothing
but that failure.
-/

namespace Fhd

open Process (Environment)
open Buffers (Buffer)

namespace Writer

/-- A part, on a disk on which no call fails. -/
def partFile (sha256 : List UInt8 → Digest) : FileServer (FilePart × Disk) := fun (h, d) call ↦
  let play {α : Type} (method : PartM α) : Except StorageError α × (FilePart × Disk) :=
    let ((r, h'), d') := (method.run.run h).play Disk.answer d
    (r, (h', d'))
  match call with
  | .writeAt offset bytes => play (FilePart.writeAt offset bytes)
  | .sync => play FilePart.sync
  | .hashRange range => play (FilePart.hashRange sha256 range)
  | .verify expected record => play (FilePart.verify sha256 expected record)
  | .publish destination => play (FilePart.publish sha256 destination)
  | .discard abandon => play (do
    if abandon then FilePart.abandon
    FilePart.discard)

/-- **A part file** does not care how it is written. -/
theorem joins_partFile (sha256 : List UInt8 → Digest) : Joins (partFile sha256) := by
  rintro ⟨h, d⟩ ⟨h₁, d₁⟩ ⟨h₂, d₂⟩ offset bytes more hfirst hsecond
  have hplay : ∀ {h h' : FilePart} {d d' : Disk} {offset : ℕ} {bytes : Bytes},
      partFile sha256 (h, d) (.writeAt offset bytes) = (.ok (), (h', d')) ↔
        ((FilePart.writeAt offset bytes).run.run h).play Disk.answer d = ((.ok (), h'), d') := by
    intro h h' d d' offset bytes
    show (((_, _, _) : Except StorageError Unit × FilePart × Disk) = (.ok (), h', d')) ↔ _
    simp only [Prod.ext_iff]
    exact and_assoc.symm
  rw [hplay] at hfirst hsecond ⊢
  exact FilePart.writeAt_neighbours hfirst hsecond

section Owing

variable {φ : Type} {E : Environment φ FileCall FileReply} {pool : BufferPool} {file : φ} {spec : PartSpec} {capacity : ℕ}
  {L L₀ : Lane φ}

/-- **What the lane owes** to those who sent these commands, of which the first ones are served. -/
structure Owes (E : Environment φ FileCall FileReply) (file : φ) (L : Lane φ) (done rest : List Command) : Prop where
  accepted : L.accepted = done ++ rest
  numbered : L.accepted.map Command.reply = List.range L.accepted.length
  /-- Everybody is answered once, in order. -/
  answered : L.history.reverse.filterMap Event.reply? = done.map Command.reply
  /-- Nobody waits for ever: the thread goes on, and has less and less to do. -/
  goes_on : (∀ f call, ∃ x f', E f call x f') → rest ≠ [] → ∃ L', L.Turn E L'
  less : ∀ L', L.Turn E L' → L'.toDo < L.toDo
  /-- If no write fails one at a time, then nobody can tell how writes were batched: the file is the same now and at
  every barrier, and so are all answers, and what came before what. -/
  invisible : ∀ serve : FileServer φ, Joins serve → (∀ f call x f', E f call x f' → serve f call = (x, f')) →
    Calm (Work.oneByOne serve ⟨file, none, []⟩ L.accepted).history →
      L.toWork.visible = (Work.oneByOne serve ⟨file, none, []⟩ done).visible
  /-- Whatever the file does, a write that is told to have succeeded was made. -/
  written : ∀ c ∈ L.accepted, ∀ a, .replied c.reply (.ok a) ∈ L.history → Written L.history c
  /-- Whatever the file does, it is not called again once a call has poisoned the lane. -/
  spent : L.failure = none ∧ Sane L.history ∨ ∃ e, L.failure = some e ∧ Spent e L.history

/-- **The lane keeps what it owes** in every run. -/
theorem lane_owes (sha256 : List UInt8 → Digest) (hstart : start file spec capacity = .ok L₀) (hrun : L₀.Run E pool L) :
    Joins (partFile sha256) ∧ ∃ done rest, Owes E file L done rest := by
  obtain ⟨hbooks₀, hwork⟩ : L₀.Books pool [] [] ∧ L₀.toWork = ⟨file, none, []⟩ := books_of_start hstart
  obtain ⟨done, held, hbooks, hserved⟩ := hrun.served hbooks₀
  rw [hwork] at hserved
  refine ⟨joins_partFile sha256, done, held ++ L.pending.toList ++ L.channel, ?_⟩
  have haccepted : L.accepted = done ++ (held ++ L.pending.toList ++ L.channel) := by
    rw [hbooks.accepted]
    simp only [List.append_assoc]
  refine ⟨haccepted, hbooks.numbered, hserved.told rfl, fun htotal hrest ↦ ?_, fun L' hturn ↦ hturn.toDo hbooks,
    fun serve hjoins hE hcalm ↦ ?_, fun c hc a hreplied ↦ ?_, hserved.spent rfl rfl⟩
  · refine L.exists_turn htotal hbooks fun hall ↦ hrest ?_
    rw [haccepted] at hall
    exact List.append_right_eq_self.1 hall
  · rw [haccepted] at hcalm
    exact hserved.visible hE hjoins (Work.calm_of_append hcalm)
  · obtain ⟨c', hc', hreply, hwritten⟩ := hserved.written rfl hreplied
    have hnodup : (L.accepted.map Command.reply).Nodup := hbooks.numbered ▸ List.nodup_range
    have hmem : c' ∈ L.accepted := haccepted ▸ List.mem_append_left _ hc'
    obtain rfl := List.inj_on_of_nodup_map hnodup hmem hc hreply
    exact hwritten

end Owing

namespace Sample

def digest (bytes : Bytes) : Digest := Vector.ofFn fun k ↦ bytes.getD k.val 0

/-- A file that is its bytes. -/
def memory : FileServer Bytes
  | f, .writeAt offset bytes => (.ok (), overwrite f offset bytes)
  | f, .sync => (.ok (), f)
  | f, .hashRange range => (.ok (digest ((f.drop range.start).take range.len)), f)
  | f, .verify _ _ => (.ok (digest f), f)
  | f, .publish destination => (.ok destination, f)
  | f, .discard _ => (.ok (), f)

def pool : BufferPool := ⟨4, 1, Nat.succ_pos 3, Nat.zero_lt_one, by decide⟩

def spec : PartSpec := ⟨⟨1, Nat.one_ne_zero⟩, ⟨1, Nat.one_ne_zero⟩, 8, eight_le_i64Max⟩

def first : Command := .write 0 ⟨[1, 2, 0, 0], 2⟩ 0

def second : Command := .write 2 ⟨[3, 0, 0, 0], 1⟩ 1

/-- A lane that was just started. -/
def fresh : Lane Bytes := ⟨⟨[], none, []⟩, spec, 8, true, [], none, .waiting, []⟩

end Sample

/-- Two neighbours and a barrier: one call writes both. -/
theorem lane_owes_neighbours : ∃ L : Lane Bytes, start [] Sample.spec 8 = .ok Sample.fresh ∧
    Sample.fresh.Run (fun f call x f' ↦ Sample.memory f call = (x, f')) Sample.pool L ∧
    L.file = [1, 2, 3] ∧ L.history = [.replied 2 (.ok .done), .called [1, 2, 3] .sync (.ok ()), .replied 1 (.ok .done),
      .replied 0 (.ok .done), .called [] (.writeAt 0 [1, 2, 3]) (.ok ())] ∧
    (Joins (partFile Sample.digest) ∧
      ∃ done rest, Owes (fun f call x f' ↦ Sample.memory f call = (x, f')) [] L done rest) := by
  have hstart : start [] Sample.spec 8 = .ok Sample.fresh := rfl
  have hfits : Sample.first.Pooled Sample.pool := ⟨rfl, by decide⟩
  have hfits' : Sample.second.Pooled Sample.pool := ⟨rfl, by decide⟩
  have hpooled : (Command.sync 2).Pooled Sample.pool := trivial
  have hcheck : Sample.first.check Sample.spec Sample.spec = .ok () := by decide
  have hcheck' : Sample.second.check Sample.spec Sample.spec = .ok () := by decide
  have hcheck'' : (Command.sync 2).check Sample.spec Sample.spec = .ok () := rfl
  have hrun : Sample.fresh.Run (fun f call x f' ↦ Sample.memory f call = (x, f')) Sample.pool Sample.fresh := .start
  have hsent := hrun.offer (.send rfl (by decide) rfl hfits hcheck)
  have hsent' := hsent.offer (.send rfl (show 1 < 8 by decide) rfl hfits' hcheck')
  have hsent'' := hsent'.offer (.send rfl (show 2 < 8 by decide) rfl hpooled hcheck'')
  have htaken := hsent''.turn (.take rfl rfl)
  have habsorbed := htaken.turn (.absorb rfl rfl rfl)
  have hheld := habsorbed.turn (.hold rfl rfl rfl)
  have hwritten := hheld.turn (.write rfl rfl (.called rfl rfl))
  have hsynced := hwritten.turn (.serve rfl rfl rfl (.called rfl rfl))
  exact ⟨_, hstart, hsynced, rfl, rfl, lane_owes Sample.digest hstart hsynced⟩

end Writer

end Fhd
