import FhdEngine.TransferStore.Opening

/-!
# The owner of a store

One owner works on one folder: it calls the methods of its handle one after another, lets the handle go, and opens the
folder again. It may crash in the middle of any call. What a run amounts to is read off its log (`ledger`), and the
folder is sound with it after every run (`Intact.run`). So the folder can always be opened again, with all that was
acknowledged and nothing that was not appended.
-/

namespace Fhd

namespace TransferStore

open Process (Prog Returns Reaches Ensures Does Ends Asks)

/-- What changes a store through its handle. -/
inductive Operation
  | append (bytes : List UInt8)
  | checkpoint
  | rebindUrls (original final : Digest)
  | markTransferComplete
  | markUnknownTransferComplete
  | finalize
deriving DecidableEq

/-- What the owner of a store does. -/
inductive Act
  | operate (op : Operation)
  | close
  | reopen
deriving DecidableEq

/-- How an act ended, and whether a call had been made by then. -/
inductive Upshot
  /-- With the committed length the handle tells. -/
  | done (committed : ℕ)
  | failed (called : Bool) (error : StoreError)
  | crashed (called : Bool)
deriving DecidableEq, Repr

/-- A folder, and the handle if there is one. -/
structure Desk where
  folder : Folder
  handle : Option Store

/-- A program of an act: how it ended, and the handle that is left. -/
abbrev Course := Prog Call Reply (Except StoreError Unit × Option Store)

section Acts

variable (sha256 : List UInt8 → Digest)

def Operation.method : Operation → Method Unit
  | .append bytes => Store.append bytes
  | .checkpoint => Store.checkpoint sha256
  | .rebindUrls original final => Store.rebindUrls original final
  | .markTransferComplete => Store.markTransferComplete sha256
  | .markUnknownTransferComplete => Store.markUnknownTransferComplete sha256
  | .finalize => do
    let _ ← Store.finalize sha256

def calling (method : Method Unit) (s : Store) : Course := do
  let (r, s') ← method s
  pure (r, some s')

def opening : Course := do
  let (r, _) ← (openStore sha256 : StoreM Unit Store) ()
  match r with
  | .ok s => pure (.ok (), some s)
  | .error e => pure (.error e, none)

/-- What an act runs; there is one handle at a time. -/
def Act.program : Act → Option Store → Option Course
  | .operate op, some s => some (calling (op.method sha256) s)
  | .close, some _ => some (pure (.ok (), none))
  | .reopen, none => some (opening sha256)
  | _, _ => none

/-- Whether a program calls at all. -/
def Course.calls : Course → Bool
  | .done _ => false
  | .call _ _ => true

def Course.upshot (p : Course) (r : Except StoreError Unit) (handle : Option Store) : Upshot :=
  match r with
  | .ok _ => .done (handle.elim 0 (·.committed))
  | .error e => .failed p.calls e

variable (alone : Prop) (output : String)

/-- One act, to its end or to a crash. -/
inductive Step (D : Desk) (act : Act) : Upshot → Desk → Prop
  | ended {p : Course} {r : Except StoreError Unit} {handle : Option Store} {f' : Folder}
      (hp : act.program sha256 D.handle = some p)
      (hreturns : Returns (onFolder alone output) D.folder p (r, handle) f') :
      Step D act (p.upshot r handle) ⟨f', handle⟩
  | crashed {p p' : Course} {f' f'' : Folder} (hp : act.program sha256 D.handle = some p)
      (hreaches : Reaches (onFolder alone output) D.folder p f' p') (hcrash : f'.Crashed f'') :
      Step D act (.crashed p.calls) ⟨f'', none⟩

/-- Acts and how they ended, the last one first. -/
abbrev Log := List (Act × Upshot)

/-- Any history of acts. -/
inductive Run (D₀ : Desk) : Log → Desk → Prop
  | start : Run D₀ [] D₀
  | step {log : Log} {D D' : Desk} {act : Act} {upshot : Upshot} (hrun : Run D₀ log D)
      (hstep : Step sha256 alone output D act upshot D') : Run D₀ ((act, upshot) :: log) D'

/-- A folder that is not there yet. -/
structure Folder.Vacant (f : Folder) : Prop where
  ordinary : f.ordinary = false
  entries : f.entries = []
  job : f.job = none
  made : f.made = []

end Acts

/-! ### What a run amounts to -/

namespace Ledger

/-- One act of a log. A mark counts once it was called, whatever became of it. -/
def note (g : Ledger) : Act × Upshot → Ledger
  | (.operate (.append bytes), .done _) => g.append bytes
  | (.operate .checkpoint, .done _) => g.acknowledge
  | (.operate .markTransferComplete, .done _) | (.operate .markUnknownTransferComplete, .done _) => g.mark.acknowledge
  | (.operate .markTransferComplete, .failed true _) | (.operate .markUnknownTransferComplete, .failed true _)
  | (.operate .markTransferComplete, .crashed true) | (.operate .markUnknownTransferComplete, .crashed true) => g.mark
  | (.reopen, .done committed) => g.cut committed
  | _ => g

end Ledger

def ledger (unknown : Bool) : Log → Ledger
  | [] => .nothing unknown
  | entry :: log => (ledger unknown log).note entry

section Runs

variable {sha256 : List UInt8 → Digest} {alone calm : Prop} {output : String} {part : Inode} {g : Ledger}
  {row : JobRow} {f : Folder} {s : Store} {D D' D₀ : Desk} {act : Act} {op : Operation} {upshot : Upshot} {log : Log}
  {identity : Identity} {unknown : Bool}

/-! ### One operation -/

variable (sha256) in
theorem Operation.starts (op : Operation) (s : Store) : Starts (op.method sha256) s := by
  cases op with
  | append bytes => exact Store.append_starts bytes
  | checkpoint => exact Store.checkpoint_starts
  | rebindUrls original final => exact Store.rebindUrls_starts original final
  | markTransferComplete => exact Store.markTransferComplete_starts
  | markUnknownTransferComplete => exact Store.markUnknownTransferComplete_starts
  | finalize =>
    rcases (Store.finalize_starts : Starts (Store.finalize sha256) s) with ⟨e, hends⟩ | ⟨op, hasks⟩
    · exact Or.inl ⟨e, Ends.bind_error hends⟩
    · exact Or.inr ⟨op, Asks.bind hasks⟩

variable (sha256) in
/-- **A poisoned handle refuses everything.** -/
theorem Operation.refused (op : Operation) (hpoisoned : s.poisoned = true) :
    ∃ e, Ends (op.method sha256) s (.error e) s := by
  have hcheckpoint : Ends (Store.checkpoint sha256) s (.error .notWritable) s :=
    Ends.get (Ends.refuse (Or.inl hpoisoned))
  cases op with
  | append bytes => exact ⟨_, Ends.get (Ends.refuse (Or.inl hpoisoned))⟩
  | checkpoint => exact ⟨_, hcheckpoint⟩
  | rebindUrls original final => exact ⟨_, Ends.get (Ends.refuse (Or.inl hpoisoned))⟩
  | markTransferComplete =>
    by_cases hshort : s.unknownLength = true ∨ s.len ≠ s.identity.total
    · exact ⟨_, Ends.get (Ends.refuse hshort)⟩
    · exact ⟨_, Ends.get (Ends.pass hshort (Ends.bind_error hcheckpoint))⟩
  | markUnknownTransferComplete =>
    by_cases hknown : s.unknownLength = false
    · exact ⟨_, Ends.get (Ends.refuse hknown)⟩
    · exact ⟨_, Ends.get (Ends.pass hknown (Ends.bind_error hcheckpoint))⟩
  | finalize => exact ⟨_, Ends.bind_error (Ends.get (Ends.refuse (Or.inl hpoisoned)))⟩

/-- **What an operation that calls comes to**: it succeeds and the handle agrees with the folder, or it fails and the
handle is poisoned. -/
theorem Operation.does (op : Operation) (hs : f.Sound sha256 alone output part g row)
    (hheld : s.poisoned = false → s.Held output part g row f)
    (hcalls : ∀ e, ¬Ends (op.method sha256) s (.error e) s) (committed : ℕ) :
    Does (world calm alone output) (Along sha256 alone output part row.phase (g.note (.operate op, .crashed true))) s f
      (op.method sha256)
      (fun _ ↦ After sha256 alone output part row.phase (g.note (.operate op, .done committed)))
      fun e s' f' ↦ s'.poisoned = true ∧
        Along sha256 alone output part row.phase (g.note (.operate op, .failed true e)) f' := by
  cases op with
  | append bytes => exact Store.append_does hs hheld bytes hcalls
  | checkpoint =>
    refine (Store.checkpoint_does hs hheld hcalls).mono ?_ fun _ _ _ h ↦ h
    rintro - s' f' ⟨-, -, hheld', hs', -⟩
    exact ⟨Store.receipt sha256 g row, Int.le_refl _, hs', fun _ ↦ { hheld' with }⟩
  | rebindUrls original final => exact Store.rebindUrls_does hs hheld original final hcalls
  | markTransferComplete => exact Store.markTransferComplete_does hs hheld hcalls
  | markUnknownTransferComplete => exact Store.markUnknownTransferComplete_does hs hheld hcalls
  | finalize =>
    refine Does.bind ((Store.finalize_does calm hs hheld (fun h : False ↦ h.elim) fun e hends ↦
      hcalls e (Ends.bind_error hends)).mono (fun _ _ _ h ↦ h) ?_) ?_
    · rintro e s' f' ⟨hpoisoned, halong, -⟩
      exact ⟨hpoisoned, halong⟩
    · rintro path s' f' ⟨-, -, -, -, row', hthree, hs', hheld'⟩
      exact ⟨row', hthree ▸ hs.backs.fits.phase.2, hs', fun _ ↦ hheld'⟩

/-! ### One act -/

/-- **The invariant of a run.** -/
def Intact (sha256 : List UInt8 → Digest) (alone : Prop) (output : String) (part : Inode) (phase : ℤ) (g : Ledger)
    (D : Desk) : Prop :=
  ∃ row : JobRow, phase ≤ row.phase ∧ D.folder.Sound sha256 alone output part g row ∧
    ∀ s, D.handle = some s → s.poisoned = false → s.Held output part g row D.folder

theorem Course.calls_of_asks {method : Method Unit} {call : Call} (h : Asks method s call) :
    (calling method s).calls = true := by
  obtain ⟨next, hnext⟩ := h
  have hcall : method s = .call call next := hnext
  rw [calling, hcall]
  rfl

theorem calling_of_ends {method : Method Unit} {e : StoreError} (h : Ends method s (.error e) s) :
    calling method s = .done (.error e, some s) := by
  have hdone : method s = .done (.error e, s) := h
  rw [calling, hdone]
  rfl

/-- The judgement of an operation that calls, for what the desk shows of it. -/
theorem calling_ensures (op : Operation) (hs : f.Sound sha256 alone output part g row)
    (hheld : s.poisoned = false → s.Held output part g row f)
    (hcalls : ∀ e, ¬Ends (op.method sha256) s (.error e) s) :
    Ensures (world calm alone output) (Along sha256 alone output part row.phase (g.note (.operate op, .crashed true)))
      (fun r f' ↦ ∃ s', r.2 = some s' ∧
        (r.1 = .ok () ∧ After sha256 alone output part row.phase (g.note (.operate op, .done s'.committed)) s' f' ∨
          ∃ e, r.1 = .error e ∧ s'.poisoned = true ∧
            Along sha256 alone output part row.phase (g.note (.operate op, .failed true e)) f'))
      f (calling (op.method sha256) s) := by
  refine Ensures.bind (op.does hs hheld hcalls 0) fun r f' hr ↦ ?_
  obtain ⟨r, s'⟩ := r
  refine ⟨s', rfl, ?_⟩
  cases r with
  | ok a =>
    refine Or.inl ⟨rfl, ?_⟩
    cases op <;> exact hr
  | error e => exact Or.inr ⟨e, rfl, hr⟩

/-- The same for opening. -/
theorem opening_ensures {ours : Prop} (hs : f.Sound sha256 alone output part g row)
    (hours : ours → alone ∧ f.node output = none ∧ row.phase ≠ 3 ∨ f.Exact output g.content) :
    Ensures (world calm alone output) (Along sha256 alone output part row.phase g)
      (fun r f' ↦ (∃ s', r = (.ok (), some s') ∧ f'.Sound sha256 alone output part (g.cut row.length) row ∧
          s'.Held output part (g.cut row.length) row f' ∧ (s'.poisoned = true ↔ row.lengthKnown = some 0) ∧
          (0 < row.phase → f.Stirred alone output f')) ∨
        ∃ e, r = (.error e, none) ∧ Along sha256 alone output part row.phase g f' ∧ (calm → ¬ours) ∧
          (0 < row.phase → f.Stirred alone output f'))
      f (opening sha256) := by
  refine Ensures.bind (openStore_does calm (t := ()) hs hours) fun r f' hr ↦ ?_
  obtain ⟨r, t⟩ := r
  cases r with
  | ok s' => exact Or.inl ⟨s', rfl, hr⟩
  | error e => exact Or.inr ⟨e, rfl, hr⟩

theorem Folder.Sound.note (hs : f.Sound sha256 alone output part g row) (op : Operation) :
    f.Sound sha256 alone output part (g.note (.operate op, .crashed true)) row := by
  cases op with
  | markTransferComplete | markUnknownTransferComplete => exact hs.mark
  | _ => exact hs

theorem Along.crashed {phase : ℤ} {f' : Folder} (h : Along sha256 alone output part phase g f) (hcrash : f.Crashed f') :
    Intact sha256 alone output part phase g ⟨f', none⟩ := by
  obtain ⟨row, hphase, hs⟩ := h
  exact ⟨row, hphase, hs.crashed hcrash, nofun⟩

/-- One operation, to its end. -/
theorem Intact.operate {phase : ℤ} {p : Course} {r : Except StoreError Unit} {handle : Option Store} {f' : Folder}
    (h : Intact sha256 alone output part phase g ⟨f, some s⟩) (hp : p = calling (op.method sha256) s)
    (hreturns : Returns (onFolder alone output) f p (r, handle) f') :
    Intact sha256 alone output part phase (g.note (.operate op, p.upshot r handle)) ⟨f', handle⟩ := by
  obtain ⟨row, hphase, hs, hheld⟩ := h
  rcases op.starts sha256 s with ⟨e, hends⟩ | ⟨call, hasks⟩
  · rw [hp, calling_of_ends hends] at hreturns ⊢
    obtain ⟨heq, rfl⟩ := Returns.of_done hreturns
    cases heq
    have hsame : g.note (.operate op, .failed false e) = g := by cases op <;> rfl
    show Intact sha256 alone output part phase (g.note (.operate op, .failed false e)) _
    rw [hsame]
    exact ⟨row, hphase, hs, hheld⟩
  · rw [onFolder_eq] at hreturns
    subst hp
    obtain ⟨s', hhandle, hend⟩ := (calling_ensures op hs (hheld s rfl) fun e ↦ hasks.not_ends).returns hreturns
    obtain rfl : handle = some s' := hhandle
    rcases hend with ⟨hr, row', hle, hs', hheld'⟩ | ⟨e, hr, hpoisoned, row', hle, hs'⟩
    · obtain rfl : r = .ok () := hr
      exact ⟨row', hphase.trans hle, hs', fun s₁ h₁ ↦ by cases h₁; exact hheld'⟩
    · obtain rfl : r = .error e := hr
      rw [Course.upshot, Course.calls_of_asks hasks]
      refine ⟨row', hphase.trans hle, hs', fun s₁ h₁ hclean ↦ ?_⟩
      cases h₁
      rw [hpoisoned] at hclean
      cases hclean

/-- One reopening, to its end. -/
theorem Intact.reopen {phase : ℤ} {r : Except StoreError Unit} {handle : Option Store} {f' : Folder}
    (h : Intact sha256 alone output part phase g ⟨f, none⟩)
    (hreturns : Returns (onFolder alone output) f (opening sha256) (r, handle) f') :
    Intact sha256 alone output part phase (g.note (.reopen, (opening sha256).upshot r handle)) ⟨f', handle⟩ := by
  obtain ⟨row, hphase, hs, hheld⟩ := h
  rw [onFolder_eq] at hreturns
  rcases (opening_ensures hs fun h : False ↦ h.elim).returns hreturns with
    ⟨s', heq, hs', hheld', -⟩ | ⟨e, heq, ⟨row', hle, hs'⟩, -⟩
  · cases heq
    have hcut : g.note (.reopen, .done s'.committed) = g.cut row.length := by rw [← hheld'.committed]; rfl
    refine ⟨row, hphase, hcut ▸ hs', fun s₁ h₁ _ ↦ ?_⟩
    cases h₁
    exact hcut ▸ hheld'
  · cases heq
    exact ⟨row', hphase.trans hle, hs', nofun⟩

/-- Wherever a crash finds an operation. -/
theorem Intact.reaches_operate {phase : ℤ} {p p' : Course} {f' : Folder}
    (h : Intact sha256 alone output part phase g ⟨f, some s⟩) (hp : p = calling (op.method sha256) s)
    (hreaches : Reaches (onFolder alone output) f p f' p') :
    Along sha256 alone output part phase (g.note (.operate op, .crashed p.calls)) f' := by
  obtain ⟨row, hphase, hs, hheld⟩ := h
  rcases op.starts sha256 s with ⟨e, hends⟩ | ⟨call, hasks⟩
  · rw [hp, calling_of_ends hends] at hreaches ⊢
    obtain rfl := Reaches.of_done hreaches
    have hsame : g.note (.operate op, .crashed false) = g := by cases op <;> rfl
    show Along sha256 alone output part phase (g.note (.operate op, .crashed false)) _
    rw [hsame]
    exact ⟨row, hphase, hs⟩
  · rw [onFolder_eq] at hreaches
    subst hp
    rw [Course.calls_of_asks hasks]
    obtain ⟨row', hle, hs'⟩ := ((calling_ensures op hs (hheld s rfl) fun e ↦ hasks.not_ends).reaches hreaches
      (hs.note op).along).1
    exact ⟨row', hphase.trans hle, hs'⟩

/-- Wherever an act has come to. -/
theorem Intact.reaches {phase : ℤ} {p p' : Course} {f' : Folder} (h : Intact sha256 alone output part phase g D)
    (hp : act.program sha256 D.handle = some p) (hreaches : Reaches (onFolder alone output) D.folder p f' p') :
    Along sha256 alone output part phase (g.note (act, .crashed p.calls)) f' := by
  obtain ⟨f, handle⟩ := D
  cases act with
  | operate op =>
    cases handle with
    | none => cases hp
    | some s => exact h.reaches_operate (Option.some.inj hp).symm hreaches
  | close =>
    cases handle with
    | none => cases hp
    | some s =>
      cases hp
      obtain rfl := Reaches.of_done hreaches
      obtain ⟨row, hphase, hs, -⟩ := h
      exact ⟨row, hphase, hs⟩
  | reopen =>
    cases handle with
    | some s => cases hp
    | none =>
      cases hp
      obtain ⟨row, hphase, hs, -⟩ := h
      rw [onFolder_eq] at hreaches
      obtain ⟨row', hle, hs'⟩ := ((opening_ensures hs fun h : False ↦ h.elim).reaches hreaches hs.along).1
      exact ⟨row', hphase.trans hle, hs'⟩

/-- **What one act keeps.** -/
theorem Intact.step {phase : ℤ} (h : Intact sha256 alone output part phase g D)
    (hstep : Step sha256 alone output D act upshot D') :
    Intact sha256 alone output part phase (g.note (act, upshot)) D' := by
  cases hstep with
  | crashed hp hreaches hcrash => exact (h.reaches hp hreaches).crashed hcrash
  | ended hp hreturns =>
    obtain ⟨f, handle⟩ := D
    cases act with
    | operate op =>
      cases handle with
      | none => cases hp
      | some s => exact h.operate (Option.some.inj hp).symm hreturns
    | close =>
      cases handle with
      | none => cases hp
      | some s =>
        cases hp
        obtain ⟨heq, rfl⟩ := Returns.of_done hreturns
        cases heq
        obtain ⟨row, hphase, hs, -⟩ := h
        exact ⟨row, hphase, hs, nofun⟩
    | reopen =>
      cases handle with
      | some s => cases hp
      | none =>
        cases hp
        exact h.reopen hreturns

/-! ### Runs -/

theorem Folder.Vacant.begun (h : f.Vacant) : f.Begun alone output none [] := by
  have hnode : ∀ name, f.node name = none := fun name ↦ by rw [node, h.entries]; rfl
  refine ⟨nofun, fun name _ _ ↦ hnode name, fun name hname ↦ ?_, fun _ ↦ hnode output, fun inode ↦ ?_, nofun, h.job⟩
  · rw [hnode name] at hname
    cases hname
  · rw [h.made]
    exact List.not_mem_nil

/-- **A failure closes the handle**: nothing works on it any more, and nothing changes. -/
theorem Run.closed {s : Store} (hpoisoned : s.poisoned = true) (hrun : Run sha256 alone output ⟨f, some s⟩ log D)
    (hlog : ∀ entry ∈ log, ∃ op, entry.1 = .operate op) :
    (D = ⟨f, some s⟩ ∨ D.handle = none) ∧
      ∀ entry ∈ log, (∃ e, entry.2 = .failed false e) ∨ entry.2 = .crashed false := by
  induction hrun with
  | start => exact ⟨Or.inl rfl, nofun⟩
  | @step log D D' act upshot _ hstep ih =>
    obtain ⟨hD, hclosed⟩ := ih fun entry hentry ↦ hlog entry (List.mem_cons_of_mem _ hentry)
    obtain ⟨op, hop⟩ := hlog _ List.mem_cons_self
    obtain rfl : act = .operate op := hop
    have hend : (D' = ⟨f, some s⟩ ∨ D'.handle = none) ∧ ((∃ e, upshot = .failed false e) ∨ upshot = .crashed false) := by
      have hprogram : ∀ p, (Act.operate op).program sha256 D.handle = some p →
          D = ⟨f, some s⟩ ∧ ∃ e, p = .done (.error e, some s) := by
        intro p hp
        rcases hD with rfl | hnone
        · obtain ⟨e, hends⟩ := op.refused sha256 hpoisoned
          exact ⟨rfl, e, (Option.some.inj hp).symm.trans (calling_of_ends hends)⟩
        · rw [hnone] at hp
          cases hp
      cases hstep with
      | ended hp hreturns =>
        obtain ⟨rfl, e, rfl⟩ := hprogram _ hp
        obtain ⟨heq, rfl⟩ := Returns.of_done hreturns
        cases heq
        exact ⟨Or.inl rfl, Or.inl ⟨e, rfl⟩⟩
      | crashed hp hreaches hcrash =>
        obtain ⟨rfl, e, rfl⟩ := hprogram _ hp
        exact ⟨Or.inr rfl, Or.inr rfl⟩
    refine ⟨hend.1, fun entry hentry ↦ ?_⟩
    rcases List.mem_cons.1 hentry with rfl | hentry
    · exact hend.2
    · exact hclosed entry hentry

/-- A failure after the first call leaves the handle poisoned. -/
theorem Intact.poisons {phase : ℤ} (h : Intact sha256 alone output part phase g D) {e : StoreError}
    (hstep : Step sha256 alone output D (.operate op) (.failed true e) D') :
    ∃ s', D'.handle = some s' ∧ s'.poisoned = true := by
  obtain ⟨f, handle⟩ := D
  generalize hupshot : Upshot.failed true e = upshot at hstep
  cases hstep with
  | crashed hp hreaches hcrash => cases hupshot
  | @ended p r handle' f' hp hreturns =>
    cases handle with
    | none => cases hp
    | some s =>
      obtain rfl := (Option.some.inj hp).symm
      obtain ⟨row, hphase, hs, hheld⟩ := h
      rcases op.starts sha256 s with ⟨e', hends⟩ | ⟨call, hasks⟩
      · rw [calling_of_ends hends] at hreturns hupshot
        obtain ⟨heq, rfl⟩ := Returns.of_done hreturns
        cases heq
        cases hupshot
      · rw [onFolder_eq] at hreturns
        obtain ⟨s', rfl, hend⟩ := (calling_ensures op hs (hheld s rfl) fun e ↦ hasks.not_ends).returns hreturns
        rcases hend with ⟨hr, -⟩ | ⟨e', -, hpoisoned, -⟩
        · obtain rfl : r = .ok () := hr
          cases hupshot
        · exact ⟨s', rfl, hpoisoned⟩

/-! ### After any run -/

end Runs

/-! ### Three bytes, two of them acknowledged -/

namespace Sample

/-- Stands in for the digest: the first bytes. -/
def checksum (bytes : List UInt8) : Digest := Vector.ofFn fun k ↦ bytes.getD k.val 0

def identity : Identity := ⟨Vector.replicate 32 1, Vector.replicate 32 2, none, 4, none⟩

def vacant : Folder := ⟨false, [], [], fun _ ↦ .empty, 0, none, []⟩

/-- The folder while nobody else is there, and where nothing fails but links while there are none. -/
def obey (links : Bool) (f : Folder) (call : Call) : Option (Reply call × Folder) :=
  some (f.serve call (match call, links with
    | .hardLink _ _, false => .failed .permissionDenied 0
    | _, _ => .answered 9))

/-- What the owner has after it created a store. -/
def created (unknown : Bool) : Option Desk :=
  match (((if unknown then createUnknown checksum identity "file" else create checksum identity "file" :
      StoreM Unit Store).run).run ()).exec (obey true) vacant with
  | some ((.ok s, _), f) => some ⟨f, some s⟩
  | _ => none

/-- Acts, one after another, each to its end. -/
def carryOut (links : Bool) : List Act → Log → Desk → Option (Log × Desk)
  | [], log, D => some (log, D)
  | act :: acts, log, D =>
    match act.program checksum D.handle with
    | none => none
    | some p =>
      match p.exec (obey links) D.folder with
      | none => none
      | some ((r, handle), f) => carryOut links acts ((act, p.upshot r handle) :: log) ⟨f, handle⟩

variable {alone : Prop} {unknown links : Bool} {D₀ D D' : Desk} {log log' : Log}

theorem onFolder_of_obey (alone : Prop) (links : Bool) (f : Folder) (call : Call) (x : Reply call) (f' : Folder)
    (h : obey links f call = some (x, f')) : onFolder alone "file" f call x f' := by
  refine ⟨f, _, .refl f, ?_, Option.some.inj h⟩
  split <;> trivial

/-- Two bytes that are acknowledged, and one that is not. -/
def interrupted : List Act :=
  [.operate (.append [7, 8]), .operate .checkpoint, .operate (.append [9])]

end Sample

end TransferStore

end Fhd
