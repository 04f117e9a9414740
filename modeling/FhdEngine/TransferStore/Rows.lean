import FhdEngine.Library.Simulation
import FhdEngine.TransferStore.Opening

/-!
# What may become of the row

Most calls leave the row alone, and an update rewrites it in one way (`Call.rewrites`). A routine that only makes calls
which keep what is said of the row (`Only`, `Call.Within`) leaves a row of which this is said, wherever it is interrupted
(`Only.ensures`). So what a method may do to the row is read off its calls.
-/

namespace Fhd

namespace TransferStore

open Process (Does Ensures Routine noting)

/-- What an update does to the row. -/
def Call.rewrites : Call → Option (JobRow → JobRow)
  | .updateUrls original final => some fun row ↦ { row with original := original, final := final }
  | .updateReceipt committed digest => some fun row ↦ { row with committed := committed, digest := digest }
  | .updatePhase phase => some fun row ↦ { row with phase := phase }
  | .commitCompletion total => some (Folder.completed total)
  | _ => none

/-- A call that keeps what is said of the row. -/
def Call.Within (T : JobRow → Prop) (op : Call) : Prop :=
  (∀ row, op ≠ .insertJob row) ∧ ∀ φ ∈ op.rewrites, ∀ row, T row → T (φ row)

theorem Call.within_of_looks {T : JobRow → Prop} {op : Call} (h : op.looks = true) : op.Within T := by
  cases op with
  | insertJob | updateUrls | updateReceipt | updatePhase | commitCompletion => cases h
  | _ =>
    constructor
    · rintro _ ⟨⟩
    · rintro _ ⟨⟩

section Rows

variable {T : JobRow → Prop} {op : Call} {f : Folder}

theorem Folder.update_within {φ : JobRow → JobRow} (hφ : ∀ row, T row → T (φ row)) (h : ∀ row ∈ f.job, T row) :
    ∀ row ∈ (f.update φ).2.job, T row := by
  unfold Folder.update
  split
  next => exact h
  next row hrow =>
    split
    next =>
      rintro _ ⟨⟩
      exact hφ row (h row hrow)
    next => exact h

/-- What a call does to the row, whatever becomes of it. -/
theorem Folder.serve_within (hop : op.Within T) (h : ∀ row ∈ f.job, T row) (fate : Fate) :
    ∀ row ∈ (f.serve op fate).2.job, T row := by
  have hanswer : ∀ taken, ∀ row ∈ (f.answer taken op).2.job, T row := by
    intro taken
    by_cases hlooks : op.looks = true
    · rw [f.answer_of_looks hlooks]
      exact h
    cases op with
    | insertJob row => exact absurd rfl (hop.1 row)
    | updateUrls | updateReceipt | updatePhase | commitCompletion => exact Folder.update_within (hop.2 _ rfl) h
    | createDir =>
      simp only [answer]
      split <;> exact h
    | openOptions name createNew =>
      simp only [answer]
      split
      · split <;> exact h
      · exact h
      · split <;> exact h
    | openDatabase name create =>
      simp only [answer]
      split
      · exact h
      · split <;> exact h
    | hardLink original link =>
      simp only [answer]
      split
      · exact h
      · split <;> exact h
      · exact h
    | setLen | syncAll | writeAll | syncDirectory | createTable | addLengthKnown => exact h
    | _ => exact absurd rfl hlooks
  cases fate with
  | answered taken => exact hanswer taken
  | failed kind written => cases op <;> exact h
  | lost kind => exact hanswer 0

/-! ### Routines -/

/-- **Only calls like these.** -/
def Only {τ α : Type} (C : Call → Prop) (x : StoreM τ α) : Prop :=
  ∀ t P, Does (noting C) id t P x (fun _ _ _ ↦ True) fun _ _ _ ↦ True

/-- A routine that keeps what is said of the row. -/
theorem Only.ensures {τ α : Type} {x : StoreM τ α} {alone : Prop} {output : String} (hx : Only (Call.Within T) x) (t : τ)
    (h : ∀ row ∈ f.job, T row) : Ensures (onFolder alone output) (fun f ↦ ∀ row ∈ f.job, T row)
      (fun _ f ↦ ∀ row ∈ f.job, T row) f (x.run.run t) := by
  refine Ensures.keeping ?_ (hx t True) h
  rintro f op _ f' hop h ⟨f₁, fate, hstirred, -, hserve⟩
  have hjob : ∀ row ∈ f₁.job, T row := by
    rw [hstirred.keeps.2.2.1]
    exact h
  have hafter := Folder.serve_within hop hjob fate
  rw [hserve] at hafter
  exact hafter

namespace Only

variable {τ α β : Type} {C : Call → Prop} {x : StoreM τ α} {g : α → StoreM τ β}

theorem pure {a : α} : Only C (Pure.pure a : StoreM τ α) := fun _ _ ↦ trivial

theorem throw {e : StoreError} : Only C (MonadExcept.throw e : StoreM τ α) := fun _ _ ↦ trivial

theorem bind (hx : Only C x) (hg : ∀ a, Only C (g a)) : Only C (x >>= g) := fun t P ↦
  Does.bind (hx t P) fun a t P _ ↦ hg a t P

theorem get : Only C (MonadState.get : StoreM τ τ) := fun _ _ ↦ trivial

theorem modify {φ : τ → τ} : Only C (modifyThe τ φ : StoreM τ PUnit) := fun _ _ ↦ trivial

theorem failIf {p : Prop} [Decidable p] {e : StoreError} : Only C (Routine.failIf p e : StoreM τ Unit) := by
  unfold Routine.failIf
  split
  · exact throw
  · exact pure

theorem ofExcept {r : Except StoreError α} : Only C (MonadExcept.ofExcept r : StoreM τ α) := by
  cases r with
  | ok a => exact pure
  | error e => exact throw

theorem ite {p : Prop} [Decidable p] {y : StoreM τ α} (hx : Only C x) (hy : Only C y) : Only C (if p then x else y) := by
  split
  · exact hx
  · exact hy

theorem ask (hop : C op) : Only C (Routine.ask op : StoreM τ (Reply op)) := by
  rintro t P x _ rfl
  exact ⟨hop, trivial⟩

theorem call {err : ErrorKind → StoreError} {x : StoreM τ (Output op)} (hx : x = called err op) (hop : C op) :
    Only C x := by
  subst hx
  refine bind (ask hop) fun reply ↦ ?_
  cases reply with
  | ok x => exact pure
  | error kind => exact throw

end Only

/-! ### What looks -/

section Looking

variable {τ : Type}

theorem hashPrefix_only (file : Inode) (len : ℕ) : Only (Call.Within T) (hashPrefix file len : StoreM τ (List UInt8)) := by
  have hloop : ∀ fuel position left hasher,
      Only (Call.Within T) (hashLoop file fuel position left hasher : StoreM τ (List UInt8)) := by
    intro fuel
    induction fuel with
    | zero => exact fun _ _ _ ↦ Only.pure
    | succ fuel ih =>
      intro position left hasher
      rw [hashLoop]
      refine Only.ite Only.pure (Only.bind (Only.call io_eq (Call.within_of_looks rfl)) fun bytes ↦ ?_)
      exact Only.bind Only.failIf fun _ ↦ ih _ _ _
  exact Only.bind (Only.call io_eq (Call.within_of_looks rfl)) fun _ ↦ hloop _ _ _ _

theorem rejectLink_only (name : String) : Only (Call.Within T) (rejectLink name : StoreM τ Unit) :=
  Only.bind (Only.call io_eq (Call.within_of_looks rfl)) fun _ ↦ Only.failIf

theorem requireFile_only (name : String) : Only (Call.Within T) (requireFile name : StoreM τ Unit) :=
  Only.bind (Only.call io_eq (Call.within_of_looks rfl)) fun _ ↦ Only.failIf

theorem verifyDestination_only (sha256 : List UInt8 → Digest) (s : Store) :
    Only (Call.Within T) (s.verifyDestination sha256 : StoreM τ Unit) := by
  refine Only.bind (rejectLink_only _) fun _ ↦ Only.bind (requireFile_only _) fun _ ↦ ?_
  refine Only.bind (Only.call io_eq (Call.within_of_looks rfl)) fun finalFile ↦ ?_
  refine Only.bind (Only.call io_eq (Call.within_of_looks rfl)) fun length ↦ Only.bind Only.failIf fun _ ↦ ?_
  exact Only.bind (hashPrefix_only _ _) fun _ ↦ Only.failIf

theorem readRow_only : Only (Call.Within T) (readRow : StoreM τ (JobRow × Bool)) := by
  refine Only.bind (Only.call db_eq (Call.within_of_looks rfl)) fun _ ↦ ?_
  refine Only.bind (Only.call db_eq (Call.within_of_looks rfl)) fun version ↦ Only.bind Only.failIf fun _ ↦ ?_
  refine Only.bind (Only.call db_eq (Call.within_of_looks rfl)) fun _ ↦ ?_
  refine Only.bind (Only.call db_eq (Call.within_of_looks rfl)) fun row ↦ ?_
  refine Only.bind ?_ fun unknownLength ↦ Only.bind Only.failIf fun _ ↦ Only.pure
  refine Only.ite (Only.bind (Only.call db_eq (Call.within_of_looks rfl)) fun known ↦ ?_) Only.pure
  exact Only.bind Only.failIf fun _ ↦ Only.pure

end Looking

/-! ### What writes -/

theorem Call.within_of_quiet (h : op.rewrites = none) (hinsert : ∀ row, op ≠ .insertJob row) : op.Within T := by
  refine ⟨hinsert, ?_⟩
  rw [h]
  rintro _ ⟨⟩

section Writing

variable {sha256 : List UInt8 → Digest}

/-- **Opening** rewrites nothing. -/
theorem openStore_only {τ : Type} : Only (Call.Within T) (openStore sha256 : StoreM τ Store) := by
  have hquiet : ∀ {op : Call}, op.rewrites = none → (∀ row, op ≠ .insertJob row) →
      Only (Call.Within T) (io op : StoreM τ (Output op)) := fun h hinsert ↦
    Only.call io_eq (Call.within_of_quiet h hinsert)
  have hlinks : ∀ names, Only (Call.Within T) (rejectLinks names : StoreM τ Unit) := by
    intro names
    induction names with
    | nil => exact Only.pure
    | cons name names ih => exact Only.bind (rejectLink_only name) fun _ ↦ ih
  have hlock : ∀ file, Only (Call.Within T) (tryLock file : StoreM τ Unit) := by
    intro file
    have hcall : Only (Call.Within T) (called (fun _ ↦ .locked) (.tryLock file) : StoreM τ (Output (.tryLock file))) :=
      Only.call rfl (Call.within_of_looks rfl)
    rw [tryLock_eq]
    exact hcall
  have hlength : ∀ part committed phase, Only (Call.Within T) (checkLength part committed phase : StoreM τ Unit) := by
    intro part committed phase
    refine Only.bind (Only.call io_eq (Call.within_of_looks rfl)) fun _ ↦ Only.bind Only.failIf fun _ ↦ ?_
    exact Only.ite (Only.bind (Only.call io_eq (Call.within_of_looks rfl)) fun _ ↦ Only.failIf) Only.pure
  have htail : ∀ part committed, Only (Call.Within T) (discardTail part committed : StoreM τ Unit) := by
    intro part committed
    refine Only.bind (Only.call io_eq (Call.within_of_looks rfl)) fun length ↦ Only.ite ?_ Only.pure
    exact Only.bind (hquiet rfl fun _ ↦ Call.noConfusion) fun _ ↦ hquiet rfl fun _ ↦ Call.noConfusion
  have hpayload : ∀ row unknown, Only (Call.Within T) (openPayload sha256 row unknown : StoreM τ Store) := by
    intro row unknown
    refine Only.bind Only.ofExcept fun identity ↦ Only.bind Only.ofExcept fun _ ↦ Only.bind Only.ofExcept fun _ ↦ ?_
    refine Only.bind (Only.call io_eq (Call.within_of_looks rfl)) fun part ↦ Only.bind (hlength _ _ _) fun _ ↦ ?_
    refine Only.bind (hashPrefix_only _ _) fun hasher ↦ Only.bind Only.failIf fun _ ↦ Only.bind (htail _ _) fun _ ↦ ?_
    refine Only.bind (Only.call io_eq (Call.within_of_looks rfl)) fun _ ↦ ?_
    exact Only.bind (Only.ite (verifyDestination_only _ _) Only.pure) fun _ ↦ Only.pure
  refine Only.bind (Only.call io_eq (Call.within_of_looks rfl)) fun _ ↦ ?_
  refine Only.bind (Only.call io_eq (Call.within_of_looks rfl)) fun names ↦ Only.bind (hlinks names) fun _ ↦ ?_
  refine Only.bind (requireFile_only _) fun _ ↦ Only.bind (requireFile_only _) fun _ ↦ ?_
  refine Only.bind (requireFile_only _) fun _ ↦ Only.bind (Only.call io_eq (Call.within_of_looks rfl)) fun lock ↦ ?_
  exact Only.bind (hlock lock) fun _ ↦ Only.bind readRow_only fun r ↦ hpayload _ _

namespace Store

theorem append_only (bytes : List UInt8) : Only (Call.Within T) (append bytes) := by
  refine Only.bind Only.get fun s ↦ Only.bind Only.failIf fun _ ↦ Only.bind Only.failIf fun _ ↦ ?_
  refine Only.bind Only.failIf fun _ ↦ Only.bind Only.modify fun _ ↦ ?_
  exact Only.bind (Only.call io_eq (Call.within_of_quiet rfl fun _ ↦ Call.noConfusion)) fun _ ↦ Only.modify

theorem rebindUrls_only {original final : Digest}
    (hurls : ∀ row, T row → T { row with original := original.toList, final := final.toList }) :
    Only (Call.Within T) (rebindUrls original final) := by
  have hop : Call.Within T (.updateUrls original.toList final.toList) := by
    refine ⟨fun _ ↦ Call.noConfusion, ?_⟩
    rintro _ ⟨⟩
    exact hurls
  refine Only.bind Only.get fun s ↦ Only.bind Only.failIf fun _ ↦ Only.bind Only.modify fun _ ↦ ?_
  exact Only.bind (Only.call db_eq hop) fun changed ↦ Only.bind Only.failIf fun _ ↦ Only.modify

section Receipts

variable (hreceipt : ∀ committed digest row, T row → T { row with committed := committed, digest := digest })

include hreceipt

theorem checkpoint_only : Only (Call.Within T) (checkpoint sha256) := by
  have hop : ∀ committed digest, Call.Within T (.updateReceipt committed digest) := by
    intro committed digest
    refine ⟨fun _ ↦ Call.noConfusion, ?_⟩
    rintro _ ⟨⟩
    exact hreceipt committed digest
  refine Only.bind Only.get fun s ↦ Only.bind Only.failIf fun _ ↦ Only.bind Only.modify fun _ ↦ ?_
  refine Only.bind (Only.call io_eq (Call.within_of_quiet rfl fun _ ↦ Call.noConfusion)) fun _ ↦ ?_
  exact Only.bind (Only.call db_eq (hop _ _)) fun _ ↦ Only.modify

theorem markTransferComplete_only (hphase : ∀ row, T row → T { row with phase := 1 }) :
    Only (Call.Within T) (markTransferComplete sha256) := by
  have hop : Call.Within T (.updatePhase 1) := by
    refine ⟨fun _ ↦ Call.noConfusion, ?_⟩
    rintro _ ⟨⟩
    exact hphase
  refine Only.bind Only.get fun s ↦ Only.bind Only.failIf fun _ ↦ Only.bind (checkpoint_only hreceipt) fun _ ↦ ?_
  exact Only.bind Only.modify fun _ ↦ Only.bind (Only.call db_eq hop) fun _ ↦ Only.modify

theorem markUnknownTransferComplete_only (hcompleted : ∀ total row, T row → T (Folder.completed total row)) :
    Only (Call.Within T) (markUnknownTransferComplete sha256) := by
  have hop : ∀ total, Call.Within T (.commitCompletion total) := by
    intro total
    refine ⟨fun _ ↦ Call.noConfusion, ?_⟩
    rintro _ ⟨⟩
    exact hcompleted total
  refine Only.bind Only.get fun s ↦ Only.bind Only.failIf fun _ ↦ Only.bind (checkpoint_only hreceipt) fun _ ↦ ?_
  refine Only.bind Only.modify fun _ ↦ Only.bind Only.get fun s ↦ ?_
  refine Only.bind (Only.call db_eq (Call.within_of_looks rfl)) fun _ ↦ ?_
  refine Only.bind (Only.call db_eq (Call.within_of_looks rfl)) fun changed ↦ Only.bind Only.failIf fun _ ↦ ?_
  exact Only.bind (Only.call db_eq (hop _)) fun _ ↦ Only.modify

end Receipts

/-- **Finalizing** rewrites the phase only. -/
theorem finalize_only (hphase : ∀ phase : ℤ, 2 ≤ phase → ∀ row, T row → T { row with phase := phase }) :
    Only (Call.Within T) (finalize sha256) := by
  have hop : ∀ phase : ℤ, 2 ≤ phase → Call.Within T (.updatePhase phase) := by
    intro phase hle
    refine ⟨fun _ ↦ Call.noConfusion, ?_⟩
    rintro _ ⟨⟩
    exact hphase phase hle
  have hlink : Only (Call.Within T) (linkOutput sha256) := by
    refine Only.bind Only.get fun s ↦ Only.bind (Only.ask (Call.within_of_looks rfl)) fun reply ↦ ?_
    have hhard : Only (Call.Within T) (if s.phase = 2 then io (.hardLink "payload.part" s.output)
        else throw (.io .notFound) : Method Unit) :=
      Only.ite (Only.call io_eq (Call.within_of_quiet rfl fun _ ↦ Call.noConfusion)) Only.throw
    cases reply with
    | ok _ => exact verifyDestination_only _ _
    | error kind => cases kind <;> first | exact hhard | exact Only.throw
  have hpublish : Only (Call.Within T) (publish sha256) := by
    refine Only.bind Only.get fun s ↦ Only.bind (Only.call io_eq (Call.within_of_looks rfl)) fun length ↦ ?_
    refine Only.bind Only.failIf fun _ ↦ Only.bind (hashPrefix_only _ _) fun bytes ↦ Only.bind Only.failIf fun _ ↦ ?_
    refine Only.bind Only.failIf fun _ ↦ Only.bind hlink fun _ ↦ ?_
    refine Only.bind (Only.call io_eq (Call.within_of_quiet rfl fun _ ↦ Call.noConfusion)) fun _ ↦ ?_
    refine Only.bind (Only.call io_eq (Call.within_of_quiet rfl fun _ ↦ Call.noConfusion)) fun _ ↦ ?_
    exact Only.bind (Only.call db_eq (hop 3 (by decide))) fun _ ↦ Only.modify
  have hintent : Only (Call.Within T) (recordIntent sha256) := by
    refine Only.bind Only.get fun s ↦ Only.bind (Only.ask (Call.within_of_looks rfl)) fun reply ↦ ?_
    have hrest : Only (Call.Within T) (do
        let bytes ← hashPrefix s.part s.len
        Routine.failIf (sha256 bytes ≠ sha256 s.hasher) .corrupt
        Routine.failIf (s.mismatched sha256 = true) .hashMismatch
        let _ : ℕ ← db (.updatePhase 2)
        modify fun s ↦ { s with phase := 2 } : Method Unit) := by
      refine Only.bind (hashPrefix_only _ _) fun bytes ↦ Only.bind Only.failIf fun _ ↦ Only.bind Only.failIf fun _ ↦ ?_
      exact Only.bind (Only.call db_eq (hop 2 (by decide))) fun _ ↦ Only.modify
    cases reply with
    | ok _ => exact Only.throw
    | error kind => cases kind <;> first | exact hrest | exact Only.throw
  refine Only.bind Only.get fun s ↦ Only.bind Only.failIf fun _ ↦ Only.bind Only.modify fun _ ↦ ?_
  refine Only.bind ?_ fun path ↦ Only.bind Only.modify fun _ ↦ Only.pure
  refine Only.bind Only.get fun s ↦ Only.bind (Only.ite hintent Only.pure) fun _ ↦ ?_
  exact Only.bind hpublish fun _ ↦ Only.pure

end Store

end Writing

end Rows

end TransferStore

end Fhd
