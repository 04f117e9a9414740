import FhdEngine.Storage.Coverage

/-!
# Executing storage code call by call

The rules that run a method of a part over a disk that may fail at every call. A call that fails leaves
the disk as it was, or a part of what it was to write (`Disk.onDisk_error`). A routine that only looks
(`Looks`) leaves everything as it was, however it ends; most of the adapter is made of such routines, so
that what is left to reason about are the few calls that change something.
-/

namespace Fhd

open Process (Environment Ensures Does Post)

/-! ### Bytes -/

section Bytes

variable {old bytes : List UInt8} {position k : ℕ}

@[simp] theorem overwrite_nil : overwrite old position [] = old := rfl

/-- A write within a file. -/
theorem overwrite_eq (h : position + bytes.length ≤ old.length) :
    overwrite old position bytes =
      old.take position ++ bytes ++ old.drop (position + bytes.length) := by
  unfold overwrite
  split
  next hnil =>
    rw [hnil, List.append_nil, List.length_nil, Nat.add_zero, List.take_append_drop]
  · rw [List.takeD_eq_take _ (by omega)]

theorem length_overwrite (h : position + bytes.length ≤ old.length) :
    (overwrite old position bytes).length = old.length := by
  rw [overwrite_eq h, List.length_append, List.length_append, List.length_take, List.length_drop]
  omega

/-- **A write within a file** changes the bytes it writes and no others. -/
theorem getElem?_overwrite (h : position + bytes.length ≤ old.length) :
    (overwrite old position bytes)[k]? =
      if position ≤ k ∧ k < position + bytes.length then bytes[k - position]? else old[k]? := by
  have htake : (old.take position).length = position := by
    rw [List.length_take]
    omega
  rw [overwrite_eq h, List.append_assoc]
  rcases Nat.lt_or_ge k position with hbefore | hafter
  · rw [if_neg (by omega), List.getElem?_append_left (by omega), List.getElem?_take, if_pos hbefore]
  · rw [List.getElem?_append_right (by omega), htake]
    rcases Nat.lt_or_ge k (position + bytes.length) with hin | hbeyond
    · rw [if_pos ⟨hafter, hin⟩, List.getElem?_append_left (by omega)]
    · rw [if_neg (by omega), List.getElem?_append_right (by omega), List.getElem?_drop]
      congr 1
      omega

/-- What a write does not touch. -/
theorem slice_overwrite {start length : ℕ} (h : position + bytes.length ≤ old.length)
    (hdis : start + length ≤ position ∨ position + bytes.length ≤ start) :
    ((overwrite old position bytes).drop start).take length = (old.drop start).take length := by
  refine List.ext_getElem? fun k ↦ ?_
  rw [List.getElem?_take, List.getElem?_take]
  split
  next hk => rw [List.getElem?_drop, List.getElem?_drop, getElem?_overwrite h, if_neg (by omega)]
  · rfl

/-- The byte of the seal. -/
theorem getD_seal : (overwrite old 33 [1]).getD 33 0 = 1 := by
  have hlength : (old.takeD 33 0).length = 33 := List.takeD_length _ _ _
  rw [overwrite, if_neg nofun]
  generalize old.takeD 33 0 = before at hlength
  rw [List.append_assoc, List.getD_eq_getElem?_getD, List.getElem?_append_right hlength.le, hlength]
  rfl

end Bytes

namespace Disk

variable {d d' : Disk}

section Names

variable {p q : Path} {node : Node} {hnode : ∀ inode, node = .file inode → inode < d.fresh}

@[simp] theorem link_names_self : (d.link p node hnode).names p = some node :=
  Function.update_self _ _ _

theorem link_names_of_ne (h : q ≠ p) : (d.link p node hnode).names q = d.names q :=
  Function.update_of_ne h _ _

@[simp] theorem unlink_names_self : (d.unlink p).names p = none := Function.update_self _ _ _

theorem unlink_names_of_ne (h : q ≠ p) : (d.unlink p).names q = d.names q :=
  Function.update_of_ne h _ _

@[simp] theorem create_names_self : (d.create p).names p = some (.file d.fresh) :=
  Function.update_self _ _ _

theorem create_names_of_ne (h : q ≠ p) : (d.create p).names q = d.names q :=
  Function.update_of_ne h _ _

@[simp] theorem create_contents_fresh : (d.create p).contents d.fresh = [] :=
  Function.update_self _ _ _

theorem create_contents_of_ne {i : Inode} (h : i ≠ d.fresh) : (d.create p).contents i = d.contents i :=
  Function.update_of_ne h _ _

@[simp] theorem put_contents_self {i : Inode} {bytes : List UInt8} : (d.put i bytes).contents i = bytes :=
  Function.update_self _ _ _

theorem put_contents_of_ne {i j : Inode} {bytes : List UInt8} (h : j ≠ i) :
    (d.put i bytes).contents j = d.contents j := Function.update_of_ne h _ _

end Names

@[simp] theorem put_contents (d : Disk) (file : Inode) : d.put file (d.contents file) = d := by
  simp [put]

@[simp] theorem spoil_zero (d : Disk) (op : Syscall) : d.spoil op 0 = d := by
  cases op <;> simp [spoil, overwrite]

/-- A call that is refused changes nothing. -/
theorem answer_error {op : Syscall} {kind : ErrorKind} (h : d.answer op = (.error kind, d')) : d' = d := by
  cases op <;> simp only [answer] at h <;> (repeat' split at h) <;> cases h <;> rfl

theorem onDisk_ok {op : Syscall} {x : Output op} :
    onDisk d op (.ok x) d' ↔ d.answer op = (.ok x, d') := by
  constructor
  · rintro ⟨- | fault, h⟩
    · exact h
    · cases h
  · exact fun h ↦ ⟨none, h⟩

theorem onDisk_error {op : Syscall} {kind : ErrorKind} (h : onDisk d op (.error kind) d') :
    ∃ written, d' = d.spoil op written := by
  obtain ⟨- | fault, h⟩ := h
  · exact ⟨0, by rw [answer_error h, spoil_zero]⟩
  · exact ⟨fault.written, (congrArg Prod.snd h).symm⟩

end Disk

/-- A call that changes nothing even when it succeeds. -/
def Syscall.looks : Syscall → Bool
  | .openOptions _ createNew => !createNew
  | .canonicalize _ | .syncDirectory _ | .symlinkMetadata _ | .openFile _ | .metadata _ | .syncAll _
  | .seek _ _ | .readExact _ _ _ => true
  | _ => false

theorem Disk.eq_of_looks {d d' : Disk} {op : Syscall} {x : Reply op} (hop : op.looks = true)
    (h : onDisk d op x d') : d' = d := by
  cases x with
  | error kind =>
    obtain ⟨written, rfl⟩ := onDisk_error h
    cases op <;> first | rfl | cases hop
  | ok x =>
    have h := onDisk_ok.1 h
    cases op <;> simp only [answer] at h <;> (repeat' split at h) <;> cases h <;>
      first | rfl | cases hop | simp_all [Syscall.looks]

/-- An environment that answers as a disk may, or in fewer ways. -/
def OnDisk (E : Environment Disk Syscall Reply) : Prop :=
  ∀ {d op} {x : Reply op} {d'}, E d op x d' → onDisk d op x d'

section Rules

variable {E : Environment Disk Syscall Reply} {I : Disk → Prop} {τ α β : Type} {t : τ} {d : Disk}
  {op : Syscall} {Q : α → τ → Disk → Prop} {X : StorageError → τ → Disk → Prop}

theorem attempt_does {f : Reply op → StorageM τ α}
    (h : ∀ x d', E d op x d' → I d' ∧ Does E I t d' (f x) Q X) :
    Does E I t d (attempt op >>= f) Q X := h

theorem sys_does {f : Output op → StorageM τ α}
    (hok : ∀ x d', E d op (.ok x) d' → I d' ∧ Does E I t d' (f x) Q X)
    (herror : ∀ kind d', E d op (.error kind) d' → I d' ∧ X (.io kind) t d') :
    Does E I t d (sys op >>= f) Q X := by
  intro x d' hx
  cases x with
  | ok x => exact hok x d' hx
  | error kind => exact herror kind d' hx

theorem throwIf_does {p : Prop} [Decidable p] {e : StorageError} {f : Unit → StorageM τ α}
    (hX : p → X e t d) (hf : ¬p → Does E I t d (f ()) Q X) :
    Does E I t d (throwIf p e >>= f) Q X := by
  unfold throwIf
  split
  next hp => exact hX hp
  next hp => exact hf hp

theorem throwIf_last {p : Prop} [Decidable p] {e : StorageError} {Q : Unit → τ → Disk → Prop}
    (hX : p → X e t d) (hQ : ¬p → Q () t d) : Does E I t d (throwIf p e) Q X := by
  unfold throwIf
  split
  next hp => exact hX hp
  next hp => exact hQ hp

theorem ofExcept_does {r : Except StorageError β} {f : β → StorageM τ α}
    (hX : ∀ e, r = .error e → X e t d) (hf : ∀ a, r = .ok a → Does E I t d (f a) Q X) :
    Does E I t d (MonadExcept.ofExcept r >>= f) Q X := by
  cases r with
  | ok a => exact hf a rfl
  | error e => exact hX e rfl

/-- A failure that is looked at instead of passed on. -/
theorem observe_does {x : StorageM τ β} {f : Except StorageError β → StorageM τ α}
    (h : Does E I t d x (fun a t' d' ↦ Does E I t' d' (f (.ok a)) Q X)
      fun e t' d' ↦ Does E I t' d' (f (.error e)) Q X) :
    Does E I t d (observe x >>= f) Q X := by
  have h' : Ensures E I (fun r d' ↦ Does E I r.2 d' (f r.1) Q X) d (x.run.run t) := by
    refine Ensures.mono h fun r d' hr ↦ ?_
    obtain ⟨r, t'⟩ := r
    cases r with
    | ok a => exact hr
    | error e => exact hr
  have hseen : Does E I t d (observe x) (fun r t' d' ↦ Does E I t' d' (f r) Q X) X :=
    Ensures.bind h' fun r d' hr ↦ hr
  exact hseen.bind fun r t' d' hr ↦ hr

/-! ### Looking -/

/-- **Only looks**: changes neither the disk nor what it holds, and returns what `φ` says of the disk. -/
def Looks (x : StorageM τ α) (φ : Disk → α → Prop) : Prop :=
  ∀ E I t d, OnDisk E → I d →
    Does E I t d x (fun a t' d' ↦ φ d a ∧ t' = t ∧ d' = d) (fun _ t' d' ↦ t' = t ∧ d' = d)

namespace Looks

variable {x : StorageM τ α} {f : α → StorageM τ β} {φ : Disk → α → Prop} {χ : Disk → β → Prop}

theorem pure {a : α} (h : ∀ d, φ d a) : Looks (Pure.pure a : StorageM τ α) φ :=
  fun _ _ _ d _ _ ↦ ⟨h d, rfl, rfl⟩

theorem throw {e : StorageError} : Looks (MonadExcept.throw e : StorageM τ α) φ :=
  fun _ _ _ _ _ _ ↦ ⟨rfl, rfl⟩

theorem bind (hx : Looks x φ) (hf : ∀ a, Looks (f a) fun d b ↦ φ d a → χ d b) :
    Looks (x >>= f) χ := by
  intro E I t d hE hI
  refine (hx E I t d hE hI).bind ?_
  rintro a t' d' ⟨hφ, rfl, rfl⟩
  exact (hf a E I t' d' hE hI).mono (fun b t d ⟨hχ, ht, hd⟩ ↦ ⟨hχ hφ, ht, hd⟩) fun _ _ _ h ↦ h

theorem mono {φ' : Disk → α → Prop} (h : Looks x φ) (hφ : ∀ d a, φ d a → φ' d a) : Looks x φ' :=
  fun E I t d hE hI ↦ (h E I t d hE hI).mono (fun _ _ _ ⟨ha, hr⟩ ↦ ⟨hφ _ _ ha, hr⟩) fun _ _ _ h ↦ h

theorem ofExcept {r : Except StorageError α} (h : ∀ a, r = .ok a → ∀ d, φ d a) :
    Looks (MonadExcept.ofExcept r : StorageM τ α) φ := by
  cases r with
  | ok a => exact pure (h a rfl)
  | error e => exact throw

theorem attempt (hop : op.looks = true) :
    Looks (τ := τ) (attempt op) fun d x ↦ ∀ a, x = .ok a → (d.answer op).1 = .ok a := by
  intro E I t d hE hI x d' hx
  have heq := Disk.eq_of_looks hop (hE hx)
  refine ⟨by rwa [heq], fun a ha ↦ ?_, rfl, heq⟩
  rw [ha] at hx
  rw [Disk.onDisk_ok.1 (hE hx)]

theorem sys (hop : op.looks = true) :
    Looks (τ := τ) (sys op) fun d a ↦ (d.answer op).1 = .ok a := by
  refine bind (attempt hop) fun x ↦ ?_
  cases x with
  | ok a => exact pure fun d h ↦ h a rfl
  | error kind => exact throw

theorem throwIf {p : Prop} [Decidable p] {e : StorageError} :
    Looks (τ := τ) (throwIf p e) fun _ _ ↦ ¬p := by
  unfold Fhd.throwIf
  split
  · exact throw
  next hp => exact pure fun _ ↦ hp

theorem ite {p : Prop} [Decidable p] {y : StorageM τ α} (hx : p → Looks x φ) (hy : ¬p → Looks y φ) :
    Looks (if p then x else y) φ := by
  split
  next hp => exact hx hp
  next hp => exact hy hp

/-- What a routine that only looks leaves to what follows. -/
theorem does {f : α → StorageM τ β} {Q : β → τ → Disk → Prop} (hx : Looks x φ) (hE : OnDisk E)
    (hI : I d) (hf : ∀ a, φ d a → Does E I t d (f a) Q X) (hX : ∀ e, X e t d) :
    Does E I t d (x >>= f) Q X := by
  refine ((hx E I t d hE hI).mono (fun _ _ _ h ↦ h) ?_).bind ?_
  · rintro e t' d' ⟨rfl, rfl⟩
    exact hX e
  · rintro a t' d' ⟨hφ, rfl, rfl⟩
    exact hf a hφ

/-- What a method that only looks does. -/
theorem last (hx : Looks x φ) (hE : OnDisk E) (hI : I d) (hQ : ∀ a, φ d a → Q a t d)
    (hX : ∀ e, X e t d) : Does E I t d x Q X := by
  refine (hx E I t d hE hI).mono ?_ ?_
  · rintro a t' d' ⟨hφ, rfl, rfl⟩
    exact hQ a hφ
  · rintro e t' d' ⟨rfl, rfl⟩
    exact hX e

end Looks

end Rules

end Fhd
