import FhdEngine.Persistence.Admission
import FhdEngine.Persistence.Transfer

/-!
# Receipts over all transactions

`Receipted` ties the receipts to the sequence and to the job rows: every receipt names an identifier
that was reserved, no two name the same, exactly the live ones have a job row, and every job row has
a receipt. Every transaction of the repository keeps it, whatever it is called with, and a receipt
once filed stays filed except that it may become a tombstone (`Keeps`).

So the reader of receipts never finds the repository corrupt (`Receipted.loadReceipt`).
-/

namespace Fhd

open Fallible

namespace Persistence

/-- The row of a receipt. -/
def ReceiptRow.of (receipt : Receipt) : ReceiptRow :=
  ⟨receipt.job.get, encodeSpec receipt.original, if receipt.removed then 1 else 0⟩

/-- The receipt is in the table, as it is. -/
def Filed (s : Store) (receipt : Receipt) : Prop :=
  s.receipts.lookup receipt.key = some (ReceiptRow.of receipt)

/-- No receipt names this identifier. -/
def Unfiled (s : Store) (id : JobId) : Prop := ∀ receipt, Filed s receipt → receipt.job ≠ id

theorem encodeSpec_injective : Function.Injective encodeSpec := by
  intro a b h
  have hb := decodeSpec_encodeSpec b
  rw [← h, decodeSpec_encodeSpec] at hb
  exact Except.ok.inj hb

theorem ReceiptRow.of_inj {r r' : Receipt} (hkey : r.key = r'.key)
    (h : ReceiptRow.of r = ReceiptRow.of r') : r = r' := by
  obtain ⟨key, original, job, removed⟩ := r
  obtain ⟨key', original', job', removed'⟩ := r'
  obtain ⟨hjob, hspec, hremoved⟩ := ReceiptRow.mk.inj h
  obtain rfl : key = key' := hkey
  obtain rfl : job = job' := Identifier.ext (Int.ofNat_inj.1 hjob)
  obtain rfl : original = original' := encodeSpec_injective hspec
  have hflag : removed = removed' := by
    cases removed <;> cases removed' <;> first | rfl | cases hremoved
  rw [hflag]

variable {s s' : Store} {r r' : Receipt} {id : JobId}

theorem Filed.eq (h : Filed s r) (h' : Filed s r') (hkey : r.key = r'.key) : r = r' := by
  unfold Filed at h h'
  rw [hkey, h'] at h
  exact (ReceiptRow.of_inj hkey.symm (Option.some.inj h)).symm

/-- **The receipts, the sequence and the job rows agree.** -/
structure Receipted (s : Store) : Prop where
  sequence : 0 ≤ s.lastId
  filed : ∀ key row, s.receipts.lookup key = some row → ∃ r, r.key = key ∧ row = ReceiptRow.of r
  reserved : ∀ r, Filed s r → (r.job.get : ℤ) ≤ s.lastId
  unique : ∀ r r', Filed s r → Filed s r' → r.job = r'.job → r = r'
  row : ∀ r, Filed s r → (s.jobs.lookup (r.job.get : ℤ)).map (·.spec) =
    if r.removed then none else some (encodeSpec r.original)
  receipt : ∀ id, s.jobs.lookup id ≠ none → ∃ r, Filed s r ∧ id = r.job.get

/-- Nothing that was filed is lost; a live receipt may become a tombstone. -/
structure Keeps (s s' : Store) : Prop where
  sequence : s.lastId ≤ s'.lastId
  filed : ∀ r, Filed s r → Filed s' r ∨ Filed s' r.tombstone

theorem Keeps.refl (s : Store) : Keeps s s := ⟨le_refl _, fun _ h ↦ Or.inl h⟩

theorem tombstone_tombstone (r : Receipt) : r.tombstone.tombstone = r.tombstone := rfl

theorem Keeps.trans {s'' : Store} (h : Keeps s s') (h' : Keeps s' s'') : Keeps s s'' := by
  refine ⟨h.sequence.trans h'.sequence, fun r hr ↦ ?_⟩
  rcases h.filed r hr with hr | hr
  · exact h'.filed r hr
  · rcases h'.filed _ hr with hr | hr
    · exact Or.inr hr
    · exact Or.inr hr

/-- **A receipt is read back as it was filed**, and a key without a row has none. -/
theorem Receipted.loadReceipt (hs : Receipted s) (key : ReceiptKey) :
    (s.receipts.lookup key = none ∧ loadReceipt s key = .ok none) ∨
      ∃ r, r.key = key ∧ Filed s r ∧ loadReceipt s key = .ok (some r) := by
  rcases hrow : s.receipts.lookup key with - | row
  · exact Or.inl ⟨rfl, by simp [Persistence.loadReceipt, hrow]⟩
  obtain ⟨r, rfl, rfl⟩ := hs.filed key row hrow
  refine Or.inr ⟨r, rfl, hrow, ?_⟩
  have hid : Identifier.new r.job.get = .ok r.job := dif_neg r.job.get_ne_zero
  have hjobs := hs.row r hrow
  obtain ⟨key, original, job, removed⟩ := r
  cases removed with
  | false =>
    obtain ⟨saved, hsaved, hspec⟩ := Option.map_eq_some_iff.1 hjobs
    simp [Persistence.loadReceipt, hrow, ReceiptRow.of, hid, hsaved, hspec, matchesJob, orCorrupt,
      require, bind, Except.bind, pure, Except.pure, Receipt.new]
  | true =>
    have hnone := Option.map_eq_none_iff.1 hjobs
    simp [Persistence.loadReceipt, hrow, ReceiptRow.of, hid, hnone, matchesJob, orCorrupt,
      bind, Except.bind, pure, Except.pure, Receipt.new, Receipt.tombstone]

theorem receipted_empty (limits : Limits) : Receipted (Store.empty limits) := by
  have hnone : ∀ r, ¬Filed (Store.empty limits) r := fun r h ↦ by cases h
  refine ⟨le_refl _, ?_, fun r h ↦ absurd h (hnone r), fun r r' h ↦ absurd h (hnone r),
    fun r h ↦ absurd h (hnone r), fun id h ↦ absurd rfl h⟩
  intro key row h
  cases h

/-- A transaction that leaves the receipts, the sequence and the specifications alone. -/
theorem Receipted.congr (hs : Receipted s) (hreceipts : s'.receipts = s.receipts)
    (hlast : s'.lastId = s.lastId)
    (hjobs : ∀ id, (s'.jobs.lookup id).map (·.spec) = (s.jobs.lookup id).map (·.spec)) :
    Receipted s' ∧ Keeps s s' := by
  have hfiled : ∀ r, Filed s' r ↔ Filed s r := fun r ↦ by rw [Filed, Filed, hreceipts]
  refine ⟨⟨?_, ?_, ?_, ?_, ?_, ?_⟩, ?_, ?_⟩
  · rw [hlast]
    exact hs.sequence
  · rw [hreceipts]
    exact hs.filed
  · intro r hr
    rw [hlast]
    exact hs.reserved r ((hfiled r).1 hr)
  · intro r r' hr hr'
    exact hs.unique r r' ((hfiled r).1 hr) ((hfiled r').1 hr')
  · intro r hr
    rw [hjobs]
    exact hs.row r ((hfiled r).1 hr)
  · intro id hid
    have hid' : s.jobs.lookup id ≠ none := by
      intro hnone
      have := hjobs id
      rw [hnone] at this
      exact hid (Option.map_eq_none_iff.1 this)
    obtain ⟨r, hr, heq⟩ := hs.receipt id hid'
    exact ⟨r, (hfiled r).2 hr, heq⟩
  · exact hlast.ge
  · exact fun r hr ↦ Or.inl ((hfiled r).2 hr)

theorem Receipted.transition (hs : Receipted s) {event : JobEvent}
    (h : transition s event = .ok s') : Receipted s' ∧ Keeps s s' := by
  obtain ⟨row, now, plan, durable, state, ht⟩ := transition_eq_ok h
  have heq := ht.eq
  subst heq
  refine hs.congr rfl rfl fun id ↦ ?_
  by_cases hid : id = event.job.get
  · subst hid
    rw [AList.lookup_insert, ht.lookup]
    rfl
  · rw [AList.lookup_insert_ne hid]

theorem Receipted.durable (hs : Receipted s) {job : JobId} {generation : Generation}
    {incoming : List DurableExtent} (h : durable s job generation incoming = .ok s') :
    Receipted s' ∧ Keeps s s' := by
  obtain ⟨row, now, total, maximum, existing, fresh, hh⟩ := durable_eq_ok h
  have heq := hh.eq
  subst heq
  exact hs.congr rfl rfl fun _ ↦ rfl

theorem Receipted.intendPublish (hs : Receipted s) {intent : PublishIntent}
    (h : intendPublish s intent = .ok s') : Receipted s' ∧ Keeps s s' := by
  obtain ⟨now, maximum, -, -, -, -, heq⟩ := intendPublish_eq_ok h
  subst heq
  exact hs.congr rfl rfl fun _ ↦ rfl

/-- **A reserved identifier has never been used.** -/
theorem Receipted.reserveId (hs : Receipted s) (h : reserveId s = .ok (id, s')) :
    Receipted s' ∧ Keeps s s' ∧ s.lastId < id.get ∧ (id.get : ℤ) = s'.lastId ∧
      s'.receipts = s.receipts := by
  obtain ⟨hpos, hid, heq⟩ := reserveId_eq_ok h
  subst heq
  have hreserved : ∀ r, Filed s r → (r.job.get : ℤ) ≤ id.get := fun r hr ↦ by
    have := hs.reserved r hr
    omega
  exact ⟨⟨by simp, hs.filed, hreserved, hs.unique, hs.row, hs.receipt⟩,
    ⟨by simp only [hid]; omega, fun r hr ↦ Or.inl hr⟩, by omega, rfl, rfl⟩

/-- Only an exhausted sequence refuses. -/
theorem Receipted.reserveId_eq_error (hs : Receipted s) {e : PersistenceError}
    (h : Persistence.reserveId s = .error e) : e = .capacity := by
  unfold Persistence.reserveId at h
  rcases bind_eq_error.1 h with h | ⟨_, -, h⟩
  · exact absurd hs.sequence (require_eq_error.1 h).1
  rcases bind_eq_error.1 h with h | ⟨_, -, h⟩
  · exact (require_eq_error.1 h).2.symm
  rcases bind_eq_error.1 h with h | ⟨_, -, h⟩
  · have hpos : (s.lastId + 1).toNat ≠ 0 := by
      have := hs.sequence
      omega
    rw [Identifier.new, dif_neg hpos] at h
    cases h
  · cases h

/-- An admission that conflicts, although its identifier is unused, has lost its key. -/
theorem Receipted.commitAdd_conflict (hs : Receipted s) {unit : AddUnitOfWork}
    (hid : Unfiled s unit.job.id) (h : commitAdd s unit = .error .conflict) :
    s.receipts.lookup unit.receipt.key ≠ none := by
  intro hkey
  have hjobs : s.jobs.lookup (unit.job.id.get : ℤ) = none := by
    by_contra hne
    obtain ⟨r, hr, heq⟩ := hs.receipt _ hne
    exact hid r hr (Identifier.ext (Int.ofNat_inj.1 heq.symm))
  have hentries : ∀ entry ∈ s.receipts.entries, entry.2.jobId ≠ (unit.job.id.get : ℤ) := by
    intro entry hentry heq
    have hlookup : s.receipts.lookup entry.1 = some entry.2 := AList.mem_lookup_iff.2 hentry
    obtain ⟨r, hrkey, hrow⟩ := hs.filed _ _ hlookup
    have hfiled : Filed s r := by rw [Filed, hrkey, hlookup, hrow]
    rw [hrow] at heq
    exact hid r hfiled (Identifier.ext (Int.ofNat_inj.1 heq))
  unfold commitAdd at h
  rcases bind_eq_error.1 h with h | ⟨_, -, h⟩
  · cases (require_eq_error.1 h).2
  rcases bind_eq_error.1 h with h | ⟨number, hnumber, h⟩
  · unfold signedId stored at h
    split at h <;> cases h
  obtain rfl := (stored_eq_ok.1 hnumber).2
  rcases bind_eq_error.1 h with h | ⟨_, -, h⟩
  · exact (require_eq_error.1 h).1 ⟨hkey, hjobs, hentries⟩
  rcases bind_eq_error.1 h with h | ⟨_, -, h⟩
  · cases (require_eq_error.1 h).2
  rcases bind_eq_error.1 h with h | ⟨_, -, h⟩
  · cases (require_eq_error.1 h).2
  · cases h

/-- Filing a receipt replaces what was filed under its key. -/
theorem filed_insert (h : s'.receipts = s.receipts.insert r.key (ReceiptRow.of r)) (r' : Receipt) :
    Filed s' r' ↔ Filed s r' ∧ r'.key ≠ r.key ∨ r' = r := by
  unfold Filed
  rw [h]
  by_cases hk : r'.key = r.key
  · rw [hk, AList.lookup_insert, Option.some.injEq]
    refine ⟨fun heq ↦ Or.inr (ReceiptRow.of_inj hk heq.symm), fun heq ↦ ?_⟩
    rcases heq with ⟨-, hne⟩ | rfl
    · exact absurd rfl hne
    · rfl
  · rw [AList.lookup_insert_ne hk]
    refine ⟨fun hr ↦ Or.inl ⟨hr, hk⟩, fun heq ↦ ?_⟩
    rcases heq with ⟨hr, -⟩ | rfl
    · exact hr
    · exact absurd rfl hk

theorem Receipted.rows_insert (hs : Receipted s)
    (h : s'.receipts = s.receipts.insert r.key (ReceiptRow.of r)) (key : ReceiptKey)
    (row : ReceiptRow) (hrow : s'.receipts.lookup key = some row) :
    ∃ r', r'.key = key ∧ row = ReceiptRow.of r' := by
  rw [h] at hrow
  by_cases hk : key = r.key
  · rw [hk, AList.lookup_insert] at hrow
    exact ⟨r, hk.symm, (Option.some.inj hrow).symm⟩
  · rw [AList.lookup_insert_ne hk] at hrow
    exact hs.filed key row hrow

/-- **Admission keeps the receipts**, and files its own. -/
theorem Receipted.commitAdd (hs : Receipted s) {unit : AddUnitOfWork}
    (hlive : unit.receipt.removed = false) (h : commitAdd s unit = .ok s') :
    Receipted s' ∧ Keeps s s' ∧ s.receipts.lookup unit.receipt.key = none ∧
      Unfiled s unit.receipt.job ∧ ∀ r, Filed s' r ↔ Filed s r ∨ r = unit.receipt := by
  obtain ⟨-, -, hkey, hjob, hreceipts, hle, heq⟩ := commitAdd_eq_ok h
  have hrow : (⟨unit.receipt.job.get, encodeSpec unit.receipt.original, 0⟩ : ReceiptRow) =
      ReceiptRow.of unit.receipt := by
    rw [ReceiptRow.of, hlive]
    rfl
  rw [hrow] at heq
  have hinsert : s'.receipts = s.receipts.insert unit.receipt.key (ReceiptRow.of unit.receipt) := by
    rw [heq]
  have hunfiled : Unfiled s unit.receipt.job := by
    intro r hr hjob'
    refine hreceipts ⟨r.key, ReceiptRow.of r⟩ (AList.mem_lookup_iff.1 hr) ?_
    rw [← hjob']
    rfl
  have hfiled : ∀ r, Filed s' r ↔ Filed s r ∨ r = unit.receipt := by
    intro r
    have hne : Filed s r → r.key ≠ unit.receipt.key := by
      intro hr hk
      rw [Filed, hk, hkey] at hr
      cases hr
    rw [filed_insert hinsert]
    exact or_congr_left ⟨And.left, fun hr ↦ ⟨hr, hne hr⟩⟩
  refine ⟨⟨?_, hs.rows_insert hinsert, ?_, ?_, ?_, ?_⟩, ⟨?_, ?_⟩, hkey, hunfiled, hfiled⟩
  · rw [heq]
    exact hs.sequence
  · intro r hr
    rw [heq]
    rcases (hfiled r).1 hr with hr | rfl
    · exact hs.reserved r hr
    · exact hle
  · intro r r' hr hr' hjobs
    rcases (hfiled r).1 hr with hr | rfl <;> rcases (hfiled r').1 hr' with hr' | rfl
    · exact hs.unique r r' hr hr' hjobs
    · exact absurd hjobs (hunfiled r hr)
    · exact absurd hjobs.symm (hunfiled r' hr')
    · rfl
  · intro r hr
    rw [heq]
    rcases (hfiled r).1 hr with hr | rfl
    · have hne : (r.job.get : ℤ) ≠ unit.receipt.job.get := fun h ↦
        hunfiled r hr (Identifier.ext (Int.ofNat_inj.1 h))
      rw [AList.lookup_insert_ne hne]
      exact hs.row r hr
    · rw [AList.lookup_insert, hlive]
      rfl
  · intro id hid
    by_cases hjob : id = unit.receipt.job.get
    · exact ⟨unit.receipt, (hfiled _).2 (Or.inr rfl), hjob⟩
    · rw [heq, AList.lookup_insert_ne hjob] at hid
      obtain ⟨r, hr, hr'⟩ := hs.receipt id hid
      exact ⟨r, (hfiled r).2 (Or.inl hr), hr'⟩
  · rw [heq]
  · exact fun r hr ↦ Or.inl ((hfiled r).2 (Or.inl hr))

/-- **Removal leaves a tombstone**, and every other receipt as it was. -/
theorem Receipted.remove (hs : Receipted s) {key : ReceiptKey} {expectedVersion : ℕ}
    (h : remove s key expectedVersion = .ok s') : Receipted s' ∧ Keeps s s' ∧
      ∃ r, r.key = key ∧ Filed s r ∧
        ∀ r', Filed s' r' ↔ Filed s r' ∧ r'.key ≠ key ∨ r' = r.tombstone := by
  obtain ⟨saved, row, hsaved, -, hrow, heq⟩ := remove_eq_ok h
  obtain ⟨r, rfl, rfl⟩ := hs.filed key saved hsaved
  have hinsert : s'.receipts = s.receipts.insert r.tombstone.key (ReceiptRow.of r.tombstone) := by
    rw [heq]
    rfl
  have hjobs : s'.jobs = s.jobs.erase (r.job.get : ℤ) := by
    rw [heq]
    rfl
  have hlast : s'.lastId = s.lastId := by rw [heq]
  have hfiled := filed_insert hinsert
  have hold : ∀ r', Filed s' r' → ∃ r₀, Filed s r₀ ∧ r₀.job = r'.job ∧ r₀.key = r'.key := by
    intro r' hr'
    rcases (hfiled r').1 hr' with ⟨hr', -⟩ | rfl
    · exact ⟨r', hr', rfl, rfl⟩
    · exact ⟨r, hsaved, rfl, rfl⟩
  refine ⟨⟨?_, hs.rows_insert hinsert, ?_, ?_, ?_, ?_⟩, ⟨hlast.ge, ?_⟩, r, rfl, hsaved, hfiled⟩
  · rw [hlast]
    exact hs.sequence
  · intro r' hr'
    obtain ⟨r₀, hr₀, hjob₀, -⟩ := hold r' hr'
    rw [← hjob₀, hlast]
    exact hs.reserved r₀ hr₀
  · intro r₁ r₂ h₁ h₂ hjob
    obtain ⟨r₁', h₁', hj₁, hk₁⟩ := hold r₁ h₁
    obtain ⟨r₂', h₂', hj₂, hk₂⟩ := hold r₂ h₂
    have hsame : r₁' = r₂' := hs.unique _ _ h₁' h₂' (by rw [hj₁, hj₂, hjob])
    exact h₁.eq h₂ (by rw [← hk₁, ← hk₂, hsame])
  · intro r' hr'
    rw [hjobs]
    rcases (hfiled r').1 hr' with ⟨hr', hk⟩ | rfl
    · have hne : (r'.job.get : ℤ) ≠ r.job.get := fun h ↦ by
        have hsame := hs.unique r' r hr' hsaved (Identifier.ext (Int.ofNat_inj.1 h))
        exact hk (by rw [hsame]; rfl)
      rw [AList.lookup_erase_ne hne]
      exact hs.row r' hr'
    · show (AList.lookup (r.job.get : ℤ) (s.jobs.erase r.job.get)).map _ = none
      rw [AList.lookup_erase]
      rfl
  · intro id hid
    rw [hjobs] at hid
    by_cases hne : id = r.job.get
    · rw [hne, AList.lookup_erase] at hid
      exact absurd rfl hid
    · rw [AList.lookup_erase_ne hne] at hid
      obtain ⟨r', hr', rfl⟩ := hs.receipt id hid
      have hk : r'.key ≠ r.key := fun hk ↦ hne (by rw [hr'.eq hsaved hk])
      exact ⟨r', (hfiled r').2 (Or.inl ⟨hr', hk⟩), rfl⟩
  · intro r' hr'
    by_cases hk : r'.key = r.key
    · obtain rfl := hr'.eq hsaved hk
      exact Or.inr ((hfiled _).2 (Or.inr rfl))
    · exact Or.inl ((hfiled _).2 (Or.inl ⟨hr', hk⟩))

end Persistence

end Fhd
