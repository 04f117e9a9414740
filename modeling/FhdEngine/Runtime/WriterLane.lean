import FhdEngine.Runtime.Writer

/-!
# What the lane does is what was sent

However the thread finds the channel, it serves the commands in the order in which they were accepted, some of them
together (`Served`). A batch is a barrier, or writes that follow each other in the file (`Batch`). Where writing twice
is the same as writing both at once (`Joins`), what the file was at every barrier, and what everybody is answered, is
what it would be if one command were served after the other.
-/

namespace Fhd

open Process (Environment)
open Buffers (Buffer)

namespace Writer

section Batches

variable {φ : Type} {E : Environment φ FileCall FileReply} {pool : BufferPool} {offset : ℕ} {bytes : Bytes}
  {call : FileCall} {c : Command} {cs done : List Command} {w w' w₀ : Work φ} {L L' L₀ : Lane φ} {replies : List ℕ}

/-- Writes that follow each other, and their bytes. -/
inductive Gathered (offset : ℕ) : List Command → Bytes → Prop
  | one (buffer : Buffer) (reply : ℕ) :
    Gathered offset [.write offset buffer reply] (buffer.bytes.take buffer.len)
  | more {cs : List Command} {bytes : Bytes} (h : Gathered offset cs bytes) (buffer : Buffer) (reply : ℕ) :
    Gathered offset (cs ++ [.write (offset + bytes.length) buffer reply]) (bytes ++ buffer.bytes.take buffer.len)

/-- Commands for which the file is called once. -/
inductive Batch : FileCall → List Command → Prop
  | writes {offset : ℕ} {cs : List Command} {bytes : Bytes} (h : Gathered offset cs bytes) :
    Batch (.writeAt offset bytes) cs
  | barrier {c : Command} (h : c.isWrite = false) : Batch c.call [c]

/-- Commands, served in this order. -/
inductive Served (E : Environment φ FileCall FileReply) (w₀ : Work φ) : List Command → Work φ → Prop
  | nil : Served E w₀ [] w₀
  | batch {done cs : List Command} {call : FileCall} {w w' : Work φ} (h : Served E w₀ done w) (hbatch : Batch call cs)
    (hserves : w.Serves E call (cs.map Command.reply) w') : Served E w₀ (done ++ cs) w'

/-! ### What the lane has in hand -/

/-- The commands of the batch that is being gathered. -/
def Phase.Holds (pool : BufferPool) (pending : Option Command) (held : List Command) : Phase → Prop
  | .waiting => held = []
  | .ended => held = [] ∧ pending = none
  | .gathering rounds offset buffer replies =>
    (∃ bytes, Gathered offset held bytes ∧ buffer.asSlice = some bytes) ∧ buffer.Fits pool.block ∧
      replies = held.map Command.reply ∧ (0 < rounds → pending = none)

/-- **Where every accepted command is.** -/
structure Lane.Books (pool : BufferPool) (L : Lane φ) (done held : List Command) : Prop where
  holds : L.phase.Holds pool L.pending held
  accepted : L.accepted = done ++ held ++ L.pending.toList ++ L.channel
  pooled : ∀ c ∈ L.accepted, c.Pooled pool
  numbered : L.accepted.map Command.reply = List.range L.accepted.length
  ended : L.phase = .ended → L.channel = [] ∧ L.admitting = false

theorem books_of_start {file : φ} {spec : PartSpec} {capacity : ℕ} (h : start file spec capacity = .ok L) :
    L.Books pool [] [] ∧ L.toWork = ⟨file, none, []⟩ := by
  unfold start at h
  split at h
  · cases h
    exact ⟨⟨rfl, rfl, nofun, rfl, nofun⟩, rfl⟩
  · cases h

theorem Lane.next_eq_some {c : Command} (h : L.next = some (c, L')) :
    L'.toWork = L.toWork ∧ L'.spec = L.spec ∧ L'.capacity = L.capacity ∧ L'.admitting = L.admitting ∧
      L'.phase = L.phase ∧ L'.accepted = L.accepted ∧ L'.pending = none ∧
      L.pending.toList ++ L.channel = c :: L'.channel := by
  unfold Lane.next at h
  split at h
  next c' hpending =>
    cases h
    exact ⟨rfl, rfl, rfl, rfl, rfl, rfl, rfl, by rw [hpending]; rfl⟩
  next c' channel hpending hchannel =>
    cases h
    exact ⟨rfl, rfl, rfl, rfl, rfl, rfl, hpending, by rw [hpending, hchannel]; rfl⟩
  · cases h

/-- A neighbour, and what the buffer is then. -/
theorem coalesce_eq_some {buffer joined : Buffer} {pool : BufferPool} (hfits : buffer.Fits pool.block)
    (hslice : buffer.asSlice = some bytes) (hpooled : c.Pooled pool) (h : coalesce offset buffer c = some (some joined)) :
    ∃ other reply, c = .write (offset + bytes.length) other reply ∧ joined.Fits pool.block ∧
      joined.asSlice = some (bytes ++ other.bytes.take other.len) := by
  obtain ⟨hbytes, hlength⟩ := Buffer.asSlice_eq_some hslice
  cases c with
  | write next other reply =>
    simp only [coalesce] at h
    split at h
    next hnext =>
      obtain ⟨-, rfl⟩ := checkedAdd_eq_some.1 hnext
      obtain ⟨buffer', happend, hfits', hslice'⟩ := hfits.append hpooled (Buffers.Pool.two_mul_block_le pool)
      rw [happend, Option.map_some] at h
      simp only [decide_eq_true_eq, Option.some.injEq] at h
      split at h
      next hroom =>
        cases h
        rw [if_pos hroom, ← hbytes] at hslice'
        exact ⟨other, reply, by rw [hlength], hfits', hslice'⟩
      · cases h
    · cases h
  | _ => cases h

/-- **The lane is never stuck with a write**: no copy is out of bounds. -/
theorem exists_coalesce {buffer : Buffer} (hfits : buffer.Fits pool.block) (hpooled : c.Pooled pool) :
    ∃ joined, coalesce offset buffer c = some joined := by
  cases c with
  | write next other reply =>
    simp only [coalesce]
    split
    · obtain ⟨buffer', happend, -⟩ := hfits.append hpooled (Buffers.Pool.two_mul_block_le pool)
      rw [happend]
      exact ⟨_, rfl⟩
    · exact ⟨_, rfl⟩
  | _ => exact ⟨_, rfl⟩

/-- **One step of the thread** moves commands along, or serves a batch. -/
theorem Lane.Turn.books {held : List Command} (h : L.Books pool done held) (hturn : L.Turn E L') :
    L'.accepted = L.accepted ∧
      ((L'.toWork = L.toWork ∧ ∃ held', L'.Books pool done held') ∨
        ∃ call cs, Batch call cs ∧ L.toWork.Serves E call (cs.map Command.reply) L'.toWork ∧ L'.Books pool (done ++ cs) []) := by
  obtain ⟨hholds, haccepted, hpooled, hnumbered, hended⟩ := id h
  have hmem : ∀ {c}, c ∈ L.channel → c.Pooled pool := fun hc ↦ hpooled _ (by
    rw [haccepted]
    exact List.mem_append_right _ hc)
  cases hturn with
  | @take offset reply buffer L₁ hphase hnext =>
    rw [hphase] at hholds
    obtain rfl : held = [] := hholds
    obtain ⟨hwork, -, -, -, -, haccepted', hpending, hsplit⟩ := L.next_eq_some hnext
    rw [List.append_nil, List.append_assoc, hsplit] at haccepted
    have hfits : buffer.Fits pool.block := hpooled (.write offset buffer reply) (by
      rw [haccepted]
      exact List.mem_append_right _ List.mem_cons_self)
    refine ⟨haccepted', Or.inl ⟨hwork, [.write offset buffer reply], ?_⟩⟩
    refine ⟨⟨⟨_, .one buffer reply, hfits.asSlice⟩, hfits, rfl, fun _ ↦ hpending⟩, ?_, ?_, ?_, nofun⟩
    · show L₁.accepted = _
      rw [haccepted', haccepted]
      show _ = done ++ _ ++ L₁.pending.toList ++ L₁.channel
      rw [hpending]
      simp
    · exact haccepted' ▸ hpooled
    · exact haccepted' ▸ hnumbered
  | @serve c L₁ w hphase hnext hbarrier hserves =>
    rw [hphase] at hholds
    obtain rfl : held = [] := hholds
    obtain ⟨-, -, -, -, hphase', haccepted', hpending, hsplit⟩ := L.next_eq_some hnext
    rw [List.append_nil, List.append_assoc, hsplit] at haccepted
    refine ⟨haccepted', Or.inr ⟨c.call, [c], .barrier hbarrier, hserves, ?_⟩⟩
    refine ⟨?_, ?_, haccepted' ▸ hpooled, haccepted' ▸ hnumbered, fun hend ↦ ?_⟩
    · show L₁.phase.Holds pool _ _
      rw [hphase', hphase]
      rfl
    · show L₁.accepted = _ ++ L₁.pending.toList ++ L₁.channel
      rw [haccepted', haccepted, hpending]
      simp
    · rw [show L₁.phase = .ended from hend, hphase] at hphase'
      cases hphase'
  | @absorb rounds offset buffer joined replies c channel hphase hchannel hjoined =>
    rw [hphase] at hholds
    obtain ⟨⟨bytes, hgathered, hslice⟩, hfits, rfl, hpending⟩ := hholds
    have hpending := hpending (Nat.succ_pos _)
    obtain ⟨other, reply, rfl, hfits', hslice'⟩ := coalesce_eq_some hfits hslice
      (hmem (hchannel ▸ List.mem_cons_self)) hjoined
    refine ⟨rfl, Or.inl ⟨rfl, held ++ [.write (offset + bytes.length) other reply], ?_⟩⟩
    refine ⟨⟨⟨_, .more hgathered other reply, hslice'⟩, hfits', ?_, fun _ ↦ hpending⟩, ?_, hpooled, hnumbered, nofun⟩
    · rw [List.map_append]
      rfl
    · show L.accepted = _ ++ L.pending.toList ++ channel
      rw [haccepted, hpending, hchannel]
      simp
  | @hold rounds offset buffer replies c channel hphase hchannel happart =>
    rw [hphase] at hholds
    obtain ⟨hgathered, hfits, hreplies, hpending⟩ := hholds
    have hpending := hpending (Nat.succ_pos _)
    refine ⟨rfl, Or.inl ⟨rfl, held, ⟨hgathered, hfits, hreplies, nofun⟩, ?_, hpooled, hnumbered, nofun⟩⟩
    show L.accepted = done ++ held ++ [c] ++ channel
    rw [haccepted, hpending, hchannel]
    simp
  | @dry rounds offset buffer replies hphase =>
    rw [hphase] at hholds
    obtain ⟨hgathered, hfits, hreplies, -⟩ := hholds
    exact ⟨rfl, Or.inl ⟨rfl, held, ⟨hgathered, hfits, hreplies, nofun⟩, haccepted, hpooled, hnumbered, nofun⟩⟩
  | @write offset buffer replies bytes w hphase hslice hserves =>
    rw [hphase] at hholds
    obtain ⟨⟨bytes', hgathered, hslice'⟩, -, rfl, -⟩ := hholds
    obtain rfl : bytes = bytes' := Option.some.inj (hslice.symm.trans hslice')
    refine ⟨rfl, Or.inr ⟨_, held, .writes hgathered, hserves, rfl, ?_, hpooled, hnumbered, nofun⟩⟩
    show L.accepted = _ ++ L.pending.toList ++ L.channel
    rw [haccepted]
    simp
  | stop hphase hnext hclosed =>
    rw [hphase] at hholds
    obtain rfl : held = [] := hholds
    have hempty : L.pending = none ∧ L.channel = [] := by
      unfold Lane.next at hnext
      split at hnext
      · cases hnext
      · cases hnext
      next hpending hchannel => exact ⟨hpending, hchannel⟩
    exact ⟨rfl, Or.inl ⟨rfl, [], ⟨rfl, hempty.1⟩, haccepted, hpooled, hnumbered, fun _ ↦ ⟨hempty.2, hclosed⟩⟩⟩

theorem Lane.Offer.books {held : List Command} (h : L.Books pool done held) (hoffer : L.Offer pool L') :
    L'.toWork = L.toWork ∧ L'.Books pool done held := by
  obtain ⟨hholds, haccepted, hpooled, hnumbered, hended⟩ := h
  cases hoffer with
  | @send given c hopen hroom hreply hc hcheck =>
    refine ⟨rfl, hholds, ?_, fun c' hmem ↦ ?_, ?_, fun hend ↦ ?_⟩
    · show L.accepted ++ [c] = done ++ held ++ L.pending.toList ++ (L.channel ++ [c])
      rw [haccepted, List.append_assoc _ L.channel]
    · rcases List.mem_append.1 hmem with hmem | hmem
      · exact hpooled c' hmem
      · rw [List.mem_singleton.1 hmem]
        exact hc
    · show (L.accepted ++ [c]).map Command.reply = List.range (L.accepted ++ [c]).length
      rw [List.map_append, hnumbered, List.map_singleton, hreply, List.length_append, List.length_singleton,
        List.range_succ]
    · rw [(hended hend).2] at hopen
      cases hopen
  | close => exact ⟨rfl, hholds, haccepted, hpooled, hnumbered, fun hend ↦ ⟨(hended hend).1, rfl⟩⟩

/-- **Every run** serves what was accepted, in order. -/
theorem Lane.Run.served (hbooks : L₀.Books pool [] []) (hrun : L₀.Run E pool L) :
    ∃ done held, L.Books pool done held ∧ Served E L₀.toWork done L.toWork := by
  induction hrun with
  | start => exact ⟨[], [], hbooks, .nil⟩
  | turn _ hturn ih =>
    obtain ⟨done, held, hbooks, hserved⟩ := ih
    obtain ⟨-, ⟨hwork, held', hbooks'⟩ | ⟨call, cs, hbatch, hserves, hbooks'⟩⟩ := hturn.books hbooks
    · exact ⟨done, held', hbooks', hwork ▸ hserved⟩
    · exact ⟨done ++ cs, [], hbooks', hserved.batch hbatch hserves⟩
  | offer _ hoffer ih =>
    obtain ⟨done, held, hbooks, hserved⟩ := ih
    obtain ⟨hwork, hbooks'⟩ := hoffer.books hbooks
    exact ⟨done, held, hbooks', hwork ▸ hserved⟩

end Batches

/-! ### One command after the other -/

/-- The file was called to write. -/
def Event.isWriting {φ : Type} : Event φ → Bool
  | .called _ (.writeAt _ _) _ => true
  | _ => false

def Event.reply? {φ : Type} : Event φ → Option ℕ
  | .replied reply _ => some reply
  | _ => none

/-- A file that answers in one way. -/
abbrev FileServer (φ : Type) := φ → (call : FileCall) → FileReply call × φ

/-- **Writing twice is writing both at once**, where the one follows the other. -/
def Joins {φ : Type} (serve : FileServer φ) : Prop :=
  ∀ f f₁ f₂ offset bytes more, serve f (.writeAt offset bytes) = (.ok (), f₁) →
    serve f₁ (.writeAt (offset + bytes.length) more) = (.ok (), f₂) →
      serve f (.writeAt offset (bytes ++ more)) = (.ok (), f₂)

/-- No write failed. -/
def Calm {φ : Type} (history : List (Event φ)) : Prop :=
  ∀ seen offset bytes e, .called seen (.writeAt offset bytes) (.error e) ∉ history

namespace Work

section Sequential

variable {φ : Type} (serve : FileServer φ)

/-- What a file that answers in one way makes of a call. -/
def ask (w : Work φ) (call : FileCall) (replies : List ℕ) : Work φ :=
  match w.failure with
  | some e => w.answer replies (.error e)
  | none => w.settle call (serve w.file call).1 (serve w.file call).2 replies

/-- **One command after the other.** -/
def oneByOne (w : Work φ) (cs : List Command) : Work φ := cs.foldl (fun w c ↦ w.ask serve c.call [c.reply]) w

/-- All but the calls that write. -/
def visible (w : Work φ) : Work φ := { w with history := w.history.filter (!·.isWriting) }

end Sequential

section Visible

variable {φ : Type} {serve : FileServer φ} {E : Environment φ FileCall FileReply} {w w' w₀ : Work φ} {call : FileCall}
  {cs done rest : List Command} {c : Command} {replies replies' : List ℕ} {offset : ℕ} {bytes : Bytes} {e : WriterError}

theorem Serves.eq_ask (hE : ∀ f call x f', E f call x f' → serve f call = (x, f')) (h : w.Serves E call replies w') :
    w' = w.ask serve call replies := by
  cases h with
  | refused hfailure => simp only [ask, hfailure]
  | called hfailure hcall =>
    have hserve := hE _ _ _ _ hcall
    simp only [ask, hfailure, hserve]

@[simp] theorem oneByOne_nil : w.oneByOne serve [] = w := rfl

theorem oneByOne_append : w.oneByOne serve (cs ++ rest) = (w.oneByOne serve cs).oneByOne serve rest :=
  List.foldl_append

theorem oneByOne_concat : w.oneByOne serve (cs ++ [c]) = (w.oneByOne serve cs).ask serve c.call [c.reply] :=
  oneByOne_append

theorem answer_answer (result : Except WriterError Answer) :
    (w.answer replies result).answer replies' result = w.answer (replies ++ replies') result := by
  simp [answer]

/-- What has happened stays. -/
theorem ask_history : ∃ more, (w.ask serve call replies).history = more ++ w.history := by
  unfold ask
  split
  · exact ⟨_, rfl⟩
  · exact ⟨_ ++ [_], by simp [settle, answer]; rfl⟩

theorem oneByOne_history : ∃ more, (w.oneByOne serve cs).history = more ++ w.history := by
  induction cs using List.reverseRecOn with
  | nil => exact ⟨[], rfl⟩
  | append_singleton cs c ih =>
    obtain ⟨more, hmore⟩ := ih
    obtain ⟨more', hmore'⟩ : ∃ more', ((w.oneByOne serve cs).ask serve c.call [c.reply]).history = more' ++ _ := ask_history
    exact ⟨more' ++ more, by rw [oneByOne_concat, hmore', hmore, List.append_assoc]⟩

theorem visible_answer (result : Except WriterError Answer) :
    (w.answer replies result).visible = w.visible.answer replies result := by
  have hkept : ∀ event ∈ (replies.map fun reply ↦ (.replied reply result : Event φ)).reverse, (!event.isWriting) = true := by
    intro event hevent
    obtain ⟨reply, -, rfl⟩ := List.mem_map.1 (List.mem_reverse.1 hevent)
    rfl
  simp only [visible, answer, List.filter_append, List.filter_eq_self.2 hkept]

/-- A call for which a write is not seen. -/
theorem visible_settle_write {f : φ} :
    (w.settle (.writeAt offset bytes) (.ok ()) f replies).visible = (answer ⟨f, none, w.history⟩ replies (.ok .done)).visible := by
  rw [settle, visible_answer, visible_answer]
  rfl

theorem ask_visible (h : w.visible = w'.visible) :
    (w.ask serve call replies).visible = (w'.ask serve call replies).visible := by
  obtain ⟨hfile, hfailure, hhistory⟩ := mk.inj h
  unfold ask
  rw [← hfailure, ← hfile]
  cases w.failure with
  | some e => rw [visible_answer, visible_answer, h]
  | none =>
    rw [settle, settle, visible_answer, visible_answer]
    simp only [visible, List.filter_cons, hhistory, ← hfile]

theorem oneByOne_visible (h : w.visible = w'.visible) :
    (w.oneByOne serve cs).visible = (w'.oneByOne serve cs).visible := by
  induction cs generalizing w w' with
  | nil => exact h
  | cons c cs ih => exact ih (ask_visible h)

/-- After a failure nothing is called any more. -/
theorem oneByOne_refused (hfailure : w.failure = some e) :
    w.oneByOne serve cs = w.answer (cs.map Command.reply) (.error e) := by
  induction cs using List.reverseRecOn with
  | nil => rfl
  | append_singleton cs c ih =>
    rw [oneByOne_concat, ih, ask]
    simp only [show (w.answer (cs.map Command.reply) (.error e)).failure = some e from hfailure]
    rw [answer_answer, List.map_append]
    rfl

theorem calm_of_append (h : Calm (w.oneByOne serve (cs ++ rest)).history) : Calm (w.oneByOne serve cs).history := by
  rw [oneByOne_append] at h
  obtain ⟨more, hmore⟩ : ∃ more, ((w.oneByOne serve cs).oneByOne serve rest).history = more ++ _ := oneByOne_history
  intro seen offset bytes e hmem
  refine h seen offset bytes e ?_
  rw [hmore]
  exact List.mem_append_right _ hmem

/-- A write that is served alone, and does not fail. -/
theorem ask_write (hfailure : w.failure = none) (hcalm : Calm (w.ask serve (.writeAt offset bytes) replies).history) :
    ∃ f, serve w.file (.writeAt offset bytes) = (.ok (), f) ∧
      w.ask serve (.writeAt offset bytes) replies = w.settle (.writeAt offset bytes) (.ok ()) f replies := by
  simp only [ask, hfailure] at hcalm ⊢
  rcases hserve : serve w.file (.writeAt offset bytes) with ⟨x, f⟩
  rw [hserve] at hcalm
  cases x with
  | ok x => exact ⟨f, rfl, rfl⟩
  | error e => exact absurd (List.mem_append_right _ List.mem_cons_self) (hcalm w.file offset bytes e)

/-- **Neighbours, one after the other**, are written as they are at once. -/
theorem oneByOne_gathered (hjoins : Joins serve) (hfailure : w.failure = none) (h : Gathered offset cs bytes)
    (hcalm : Calm (w.oneByOne serve cs).history) : ∃ f, serve w.file (.writeAt offset bytes) = (.ok (), f) ∧
      (w.oneByOne serve cs).visible = (answer ⟨f, none, w.history⟩ (cs.map Command.reply) (.ok .done)).visible := by
  induction h with
  | one buffer reply =>
    obtain ⟨f, hserve, hask⟩ := ask_write hfailure hcalm
    exact ⟨f, hserve, (congrArg visible hask).trans visible_settle_write⟩
  | @more cs bytes _ buffer reply ih =>
    obtain ⟨f₁, hserve₁, hvisible⟩ := ih (calm_of_append hcalm)
    have hfile : (w.oneByOne serve cs).file = f₁ := (mk.inj hvisible).1
    have hfailure' : (w.oneByOne serve cs).failure = none := (mk.inj hvisible).2.1
    rw [oneByOne_concat] at hcalm ⊢
    obtain ⟨f₂, hserve₂, hask⟩ := ask_write hfailure' hcalm
    rw [hfile] at hserve₂
    refine ⟨f₂, hjoins _ _ _ _ _ _ hserve₁ hserve₂, (congrArg visible hask).trans ?_⟩
    -- what has happened is the same but for calls that write
    obtain ⟨-, -, hhistory⟩ := mk.inj hvisible
    have hsame : visible ⟨f₂, none, (w.oneByOne serve cs).history⟩ =
        (visible ⟨f₂, none, w.history⟩).answer (cs.map Command.reply) (.ok .done) := by
      rw [← visible_answer, visible, hhistory]
      rfl
    rw [visible_settle_write, visible_answer, hsame, answer_answer, visible_answer, List.map_append]
    rfl

/-- **A batch** is served as its commands are. -/
theorem ask_batch (hjoins : Joins serve) (hbatch : Batch call cs) (hcalm : Calm (w.oneByOne serve cs).history) :
    (w.ask serve call (cs.map Command.reply)).visible = (w.oneByOne serve cs).visible := by
  cases hbatch with
  | barrier h => rfl
  | writes h =>
    cases hfailure : w.failure with
    | some e =>
      rw [oneByOne_refused hfailure]
      simp only [ask, hfailure]
    | none =>
      obtain ⟨f, hserve, hvisible⟩ := oneByOne_gathered hjoins hfailure h hcalm
      simp only [ask, hfailure, hserve]
      rw [visible_settle_write, hvisible]

end Visible

end Work

/-- **What is served looks like one command after the other.** -/
theorem Served.visible {φ : Type} {serve : FileServer φ} {E : Environment φ FileCall FileReply} {w₀ w : Work φ}
    {done : List Command} (hE : ∀ f call x f', E f call x f' → serve f call = (x, f')) (hjoins : Joins serve)
    (h : Served E w₀ done w) (hcalm : Calm (w₀.oneByOne serve done).history) :
    w.visible = (w₀.oneByOne serve done).visible := by
  induction h with
  | nil => rfl
  | @batch done cs call w w' _ hbatch hserves ih =>
    have hbefore := ih (Work.calm_of_append hcalm)
    rw [Work.oneByOne_append] at hcalm ⊢
    rw [hserves.eq_ask hE, Work.ask_visible hbefore]
    exact Work.ask_batch hjoins hbatch hcalm

/-! ### What everybody is told -/

section Told

variable {φ : Type} {E : Environment φ FileCall FileReply} {pool : BufferPool} {w w' w₀ : Work φ} {call : FileCall}
  {cs done held : List Command} {c : Command} {replies : List ℕ} {offset : ℕ} {bytes : Bytes} {L L' : Lane φ}
  {history : List (Event φ)}

theorem Work.Serves.told (h : w.Serves E call replies w') :
    w'.history.reverse.filterMap Event.reply? = w.history.reverse.filterMap Event.reply? ++ replies := by
  have hreplied : ∀ result : Except WriterError Answer,
      (replies.map fun reply ↦ (.replied reply result : Event φ)).filterMap Event.reply? = replies := by
    intro result
    rw [List.filterMap_map]
    exact List.filterMap_some
  cases h with
  | refused hfailure =>
    simp only [Work.answer, List.reverse_append, List.reverse_reverse, List.filterMap_append, hreplied]
  | called hfailure hcall =>
    simp only [Work.settle, Work.answer, List.reverse_append, List.reverse_reverse, List.reverse_cons,
      List.filterMap_append, hreplied]
    simp [Event.reply?]

/-- **Every command that is served is answered once**, in order. -/
theorem Served.told (h : Served E w₀ done w) (hnothing : w₀.history = []) :
    w.history.reverse.filterMap Event.reply? = done.map Command.reply := by
  induction h with
  | nil => rw [hnothing]; rfl
  | batch _ _ hserves ih => rw [hserves.told, ih, List.map_append]

/-- Whatever a write was to put into the file was put there by a call that succeeded. -/
def Written (history : List (Event φ)) : Command → Prop
  | .write offset buffer _ => ∃ seen start before after,
    .called seen (.writeAt start (before ++ buffer.bytes.take buffer.len ++ after)) (.ok ()) ∈ history ∧
      offset = start + before.length
  | _ => True

theorem Written.mono {more : List (Event φ)} (h : Written history c) : Written (more ++ history) c := by
  cases c with
  | write offset buffer reply =>
    obtain ⟨seen, start, before, after, hmem, hoffset⟩ := h
    exact ⟨seen, start, before, after, List.mem_append_right _ hmem, hoffset⟩
  | _ => trivial

/-- Every one of the neighbours is in the bytes. -/
theorem Gathered.mem (h : Gathered offset cs bytes) (hc : c ∈ cs) : ∃ before buffer reply after,
    c = .write (offset + before.length) buffer reply ∧ bytes = before ++ buffer.bytes.take buffer.len ++ after := by
  induction h with
  | one buffer reply =>
    obtain rfl := List.mem_singleton.1 hc
    exact ⟨[], buffer, reply, [], rfl, by simp⟩
  | @more cs bytes _ buffer reply ih =>
    rcases List.mem_append.1 hc with hc | hc
    · obtain ⟨before, buffer', reply', after, rfl, rfl⟩ := ih hc
      exact ⟨before, buffer', reply', after ++ buffer.bytes.take buffer.len, rfl, by simp only [List.append_assoc]⟩
    · obtain rfl := List.mem_singleton.1 hc
      exact ⟨bytes, buffer, reply, [], rfl, by simp⟩

theorem Batch.written (h : Batch call cs) (hc : c ∈ cs) {seen : φ} {x : call.Output}
    (hcalled : .called seen call (.ok x) ∈ history) : Written history c := by
  cases h with
  | writes hgathered =>
    obtain ⟨before, buffer, reply, after, rfl, rfl⟩ := hgathered.mem hc
    exact ⟨seen, _, before, after, hcalled, rfl⟩
  | barrier hbarrier =>
    obtain rfl := List.mem_singleton.1 hc
    cases c with
    | write offset buffer reply => cases hbarrier
    | _ => trivial

/-- **Nobody is told of a write that was not made.** -/
theorem Served.written (h : Served E w₀ done w) (hnothing : w₀.history = []) {reply : ℕ} {a : Answer}
    (hreplied : .replied reply (.ok a) ∈ w.history) : ∃ c ∈ done, c.reply = reply ∧ Written w.history c := by
  induction h with
  | nil => rw [hnothing] at hreplied; cases hreplied
  | @batch done cs call w w' hserved hbatch hserves ih =>
    have hold : .replied reply (.ok a) ∈ w.history → ∀ {more}, w'.history = more ++ w.history →
        ∃ c ∈ done ++ cs, c.reply = reply ∧ Written w'.history c := by
      intro hmem more hmore
      obtain ⟨c, hc, hreply, hwritten⟩ := ih hmem
      exact ⟨c, List.mem_append_left _ hc, hreply, hmore ▸ hwritten.mono⟩
    cases hserves with
    | refused hfailure =>
      rcases List.mem_append.1 hreplied with hnew | hmem
      · obtain ⟨reply', -, heq⟩ := List.mem_map.1 (List.mem_reverse.1 hnew)
        cases heq
      · exact hold hmem rfl
    | @called x file hfailure hcall =>
      rcases List.mem_append.1 hreplied with hnew | hmem
      · obtain ⟨reply', hreply', heq⟩ := List.mem_map.1 (List.mem_reverse.1 hnew)
        obtain ⟨rfl, hverdict⟩ := Event.replied.inj heq
        obtain ⟨c, hc, rfl⟩ := List.mem_map.1 hreply'
        cases x with
        | error e => cases hverdict
        | ok x =>
          exact ⟨c, List.mem_append_right _ hc, rfl,
            hbatch.written hc (List.mem_append_right _ List.mem_cons_self)⟩
      · rcases List.mem_cons.1 hmem with heq | hmem
        · cases heq
        · exact hold hmem (List.append_cons _ _ _)

/-- **A lane that has failed**: after the call that poisoned it, those who waited for that call were told what it gave,
and everybody later what stays of it. -/
def Spent (e : WriterError) (history : List (Event φ)) : Prop :=
  ∃ later own seen call x earlier, history = later ++ own ++ .called seen call x :: earlier ∧ call.poisons x = some e ∧
    (∀ event ∈ own, ∃ reply, event = .replied reply (call.verdict x)) ∧
    ∀ event ∈ later, ∃ reply, event = .replied reply (.error e)

/-- No call has poisoned the lane. -/
def Sane (history : List (Event φ)) : Prop :=
  ∀ seen call (x : FileReply call), .called seen call x ∈ history → call.poisons x = none

/-- A call that fails is told to everybody who waits for it. -/
theorem FileCall.verdict_of_poisons {e : StorageError} {e' : WriterError} (h : call.poisons (.error e) = some e') :
    call.verdict (.error e) = .error e' := by
  cases call with
  | writeAt | sync | hashRange | discard => exact congrArg Except.error (Option.some.inj h)
  | verify | publish => cases e <;> first | exact congrArg Except.error (Option.some.inj h) | cases h

theorem Served.spent (h : Served E w₀ done w) (hnothing : w₀.history = []) (hfailure : w₀.failure = none) :
    w.failure = none ∧ Sane w.history ∨ ∃ e, w.failure = some e ∧ Spent e w.history := by
  have hanswers : ∀ (replies : List ℕ) (result : Except WriterError Answer),
      ∀ event ∈ (replies.map fun reply ↦ (.replied reply result : Event φ)).reverse, ∃ reply, event = .replied reply result := by
    intro replies result event hevent
    obtain ⟨reply, -, rfl⟩ := List.mem_map.1 (List.mem_reverse.1 hevent)
    exact ⟨reply, rfl⟩
  induction h with
  | nil => exact Or.inl ⟨hfailure, by rw [hnothing]; exact fun _ _ _ h ↦ nomatch h⟩
  | @batch done cs call w w' hserved hbatch hserves ih =>
    cases hserves with
    | @refused e hsome =>
      rcases ih with ⟨hnone, -⟩ | ⟨e', hsome', later, own, seen, call, x, earlier, heq, hpoisons, hown, hlater⟩
      · rw [hnone] at hsome
        cases hsome
      · obtain rfl : e' = e := Option.some.inj (hsome'.symm.trans hsome)
        refine Or.inr ⟨e', hsome, ((cs.map Command.reply).map fun reply ↦ .replied reply (.error e')).reverse ++ later,
          own, seen, call, x, earlier, ?_, hpoisons, hown, fun event hevent ↦ ?_⟩
        · rw [Work.answer, heq]
          simp only [List.append_assoc]
        · rcases List.mem_append.1 hevent with hevent | hevent
          · exact hanswers _ _ event hevent
          · exact hlater event hevent
    | @called x file hnone hcall =>
      rcases ih with ⟨-, hsane⟩ | ⟨e', hsome, -⟩
      · cases hpoisons : call.poisons x with
        | some e =>
          exact Or.inr ⟨e, hpoisons, [], _, w.file, call, x, w.history, rfl, hpoisons, hanswers _ _, nofun⟩
        | none =>
          refine Or.inl ⟨hpoisons, fun seen call' x' hmem ↦ ?_⟩
          rcases List.mem_append.1 hmem with hnew | hmem
          · obtain ⟨reply, heq⟩ := hanswers _ _ _ hnew
            cases heq
          · rcases List.mem_cons.1 hmem with heq | hmem
            · cases heq
              exact hpoisons
            · exact hsane seen call' x' hmem
      · rw [hnone] at hsome
        cases hsome

end Told

/-! ### Nobody waits for ever -/

section Progress

variable {φ : Type} {E : Environment φ FileCall FileReply} {pool : BufferPool} {done held : List Command} {L L' : Lane φ}

def Phase.toDo : Phase → ℕ
  | .ended => 0
  | .waiting => 1
  | .gathering 0 _ _ _ => 2
  | .gathering (_ + 1) _ _ _ => 3

/-- How much the thread has before it. -/
def Lane.toDo (L : Lane φ) : ℕ := 5 * L.channel.length + 3 * L.pending.toList.length + L.phase.toDo

theorem Work.exists_serves (htotal : ∀ f call, ∃ x f', E f call x f') (w : Work φ) (call : FileCall) (replies : List ℕ) :
    ∃ w', w.Serves E call replies w' := by
  cases hfailure : w.failure with
  | some e => exact ⟨_, .refused hfailure⟩
  | none =>
    obtain ⟨x, f', hcall⟩ := htotal w.file call
    exact ⟨_, .called hfailure hcall⟩

theorem Phase.toDo_gathering_le {rounds offset : ℕ} {buffer : Buffer} {replies : List ℕ} :
    toDo (.gathering rounds offset buffer replies) ≤ 3 := by
  cases rounds
  · exact Nat.le_succ 2
  · exact Nat.le_refl 3

theorem Lane.next_toDo {c : Command} (hphase : L.phase = .waiting) (h : L.next = some (c, L')) :
    5 * L'.channel.length + 3 * L'.pending.toList.length + 4 ≤ L.toDo := by
  unfold Lane.next at h
  rw [Lane.toDo, hphase, Phase.toDo]
  split at h
  next c' hpending =>
    cases h
    simp only [hpending, Option.toList, List.length_cons, List.length_nil]
    omega
  next c' channel hpending hchannel =>
    cases h
    simp only [hpending, hchannel, Option.toList, List.length_cons]
    omega
  · cases h

/-- **Every step of the thread** leaves it less to do. -/
theorem Lane.Turn.toDo (h : L.Books pool done held) (hturn : L.Turn E L') : L'.toDo < L.toDo := by
  obtain ⟨hholds, -⟩ := h
  cases hturn with
  | @take offset reply buffer L₁ hphase hnext =>
    have hless := Lane.next_toDo hphase hnext
    have hle : Phase.toDo (.gathering (L.capacity - 1) offset buffer [reply]) ≤ 3 := Phase.toDo_gathering_le
    show 5 * L₁.channel.length + 3 * L₁.pending.toList.length +
      Phase.toDo (.gathering (L.capacity - 1) offset buffer [reply]) < L.toDo
    omega
  | @serve c L₁ w hphase hnext hbarrier hserves =>
    have hless := Lane.next_toDo hphase hnext
    have hphase' : L₁.phase = .waiting := (L.next_eq_some hnext).2.2.2.2.1.trans hphase
    show 5 * L₁.channel.length + 3 * L₁.pending.toList.length + L₁.phase.toDo < L.toDo
    rw [hphase', Phase.toDo]
    omega
  | @absorb rounds offset buffer joined replies c channel hphase hchannel hjoined =>
    have hle : Phase.toDo (.gathering rounds offset joined (replies ++ [c.reply])) ≤ 3 := Phase.toDo_gathering_le
    simp only [Lane.toDo, hphase, hchannel, List.length_cons, Phase.toDo] at hle ⊢
    omega
  | @hold rounds offset buffer replies c channel hphase hchannel happart =>
    simp only [Lane.toDo, hphase, hchannel, List.length_cons, Phase.toDo, Option.toList, List.length_nil]
    omega
  | dry hphase =>
    simp only [Lane.toDo, hphase, Phase.toDo]
    omega
  | write hphase hslice hserves =>
    simp only [Lane.toDo, hphase, Phase.toDo]
    omega
  | stop hphase hnext hclosed =>
    simp only [Lane.toDo, hphase, Phase.toDo]
    omega

/-- **The thread goes on** while somebody waits for an answer. -/
theorem Lane.exists_turn (htotal : ∀ f call, ∃ x f', E f call x f') (h : L.Books pool done held)
    (hwaits : L.accepted ≠ done) : ∃ L', L.Turn E L' := by
  obtain ⟨hholds, haccepted, hpooled, -, hended⟩ := h
  cases hphase : L.phase with
  | waiting =>
    rw [hphase] at hholds
    obtain rfl : held = [] := hholds
    obtain ⟨c, L₁, hnext⟩ : ∃ c L₁, L.next = some (c, L₁) := by
      unfold Lane.next
      split
      · exact ⟨_, _, rfl⟩
      · exact ⟨_, _, rfl⟩
      next hpending hchannel =>
        rw [hpending, hchannel] at haccepted
        exact absurd (haccepted.trans (by simp)) hwaits
    cases hwrite : c.isWrite with
    | false =>
      obtain ⟨w, hserves⟩ := L.toWork.exists_serves htotal c.call [c.reply]
      exact ⟨_, .serve hphase hnext hwrite hserves⟩
    | true =>
      cases c with
      | write offset buffer reply => exact ⟨_, .take hphase hnext⟩
      | _ => cases hwrite
  | gathering rounds offset buffer replies =>
    cases rounds with
    | succ rounds => exact ⟨_, .dry hphase⟩
    | zero =>
      rw [hphase] at hholds
      obtain ⟨⟨bytes, -, hslice⟩, -⟩ := hholds
      obtain ⟨w, hserves⟩ := L.toWork.exists_serves htotal (.writeAt offset bytes) replies
      exact ⟨_, .write hphase hslice hserves⟩
  | ended =>
    rw [hphase] at hholds
    obtain ⟨rfl, hpending⟩ := hholds
    rw [hpending, (hended hphase).1] at haccepted
    exact absurd (haccepted.trans (by simp)) hwaits

end Progress

end Writer

end Fhd
