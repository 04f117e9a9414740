import FhdEngine.Library.Fallible
import FhdEngine.TransferStore.StoreRules
import Mathlib.Data.Int.Order.Basic

/-!
# What a folder keeps

A `Ledger` says what a download amounts to, whatever becomes of its folder: the bytes that were appended, the length
at the last acknowledged checkpoint, and the lengths at which it was marked complete. The row may be ahead of what
was acknowledged, and behind what was appended (`Ledger.Backs`), and the payload keeps the bytes the row tells of
(`Folder.Sound`). No crash takes that (`Sound.crashed`). A handle that is not poisoned agrees with the folder
(`Store.Held`).
-/

namespace Fhd

namespace TransferStore

open Process (Synced)

/-- What a download amounts to. -/
structure Ledger where
  /-- The bytes that were appended, cut back to the committed length at every reopening. -/
  content : List UInt8
  /-- The length at the last checkpoint that was acknowledged. -/
  acked : ℕ
  /-- The lengths at which completion was marked. -/
  marks : List ℕ
  /-- Whether the store was created without a length. -/
  unknown : Bool
deriving DecidableEq, Repr

namespace Ledger

variable (g : Ledger)

def append (bytes : List UInt8) : Ledger := { g with content := g.content ++ bytes }

def acknowledge : Ledger := { g with acked := g.content.length }

def mark : Ledger := { g with marks := g.content.length :: g.marks }

def cut (length : ℕ) : Ledger := { g with content := g.content.take length }

end Ledger

/-- How many bytes a row tells of. -/
def JobRow.length (row : JobRow) : ℕ := row.committed.toNat

/-- **A row that a store accepts.** -/
structure JobRow.Fits (row : JobRow) (output : String) : Prop where
  version : row.version = 2 ∧ row.lengthKnown = none ∨
    row.version = 3 ∧ row.lengthKnown = some 0 ∧ row.phase = 0 ∧ row.total ≠ 0 ∨
    row.version = 3 ∧ row.lengthKnown = some 1 ∧ 0 < row.phase
  original : row.original.length = 32
  final : row.final.length = 32
  etag : row.etag.any (·.utf8ByteSize > 8192) = false
  total : row.total ≤ i64Max
  expected : ∀ bytes ∈ row.expected, bytes.length = 32
  output_eq : row.output = output
  name : validateName output = .ok ()
  committed : 0 ≤ row.committed ∧ row.committed ≤ row.total
  digest : row.digest.length = 32
  phase : 0 ≤ row.phase ∧ row.phase ≤ 3
  complete : 0 < row.phase → row.committed = row.total

/-- **What the row tells** is so. -/
structure Ledger.Backs (sha256 : List UInt8 → Digest) (output : String) (g : Ledger) (row : JobRow) : Prop where
  fits : row.Fits output
  digest : row.digest = (sha256 (g.content.take row.length)).toList
  covered : row.length ≤ g.content.length
  acked : g.acked ≤ row.length
  /-- Completion is recorded only for all that was appended, and after a mark. -/
  complete : 0 < row.phase → row.length = g.content.length ∧ g.content.length ∈ g.marks
  version : g.unknown = true ↔ row.version = 3
  /-- Publication is intended only for what was asked for. -/
  matched : 2 ≤ row.phase → ∀ bytes ∈ row.expected, bytes = row.digest

/-- The names a store makes for itself. -/
def ownNames : List String := ["owner.lock", "state.sqlite", "payload.part"]

/-- **The folder of a store.** It is `alone` if nobody else makes names in it. -/
structure Folder.Sound (sha256 : List UInt8 → Digest) (alone : Prop) (output : String) (part : Inode) (g : Ledger)
    (row : JobRow) (f : Folder) : Prop where
  backs : g.Backs sha256 output row
  job : f.job = some row
  own : ∀ name ∈ ownNames, ∃ inode, f.node name = some (.file inode)
  payload : f.node "payload.part" = some (.file part)
  settled : ∀ name ∈ ownNames, name ∈ f.settled
  /-- Only others put something else than a file into the folder. -/
  strange : ∀ name, f.node name = some .other → ¬alone ∧ name = output
  linked : alone → f.node output = none ∧ row.phase ≠ 3 ∨ f.node output = some (.file part) ∧ 2 ≤ row.phase
  published : alone → row.phase = 3 → output ∈ f.settled
  fresh : part < f.fresh
  kept : (f.files part).Keeps (g.content.take row.length)
  complete : 0 < row.phase → f.files part = ⟨g.content, none⟩
  /-- The output is made as a name of the payload, once publication was intended. -/
  made : ∀ inode, (output, inode) ∈ f.made → inode = part ∧ 2 ≤ row.phase

/-- **A handle that agrees with its folder.** -/
structure Store.Held (output : String) (part : Inode) (g : Ledger) (row : JobRow) (s : Store) (f : Folder) : Prop where
  part_eq : s.part = part
  output_eq : s.output = output
  identity : row.identity = .ok s.identity
  len : s.len = g.content.length
  hasher : s.hasher = g.content
  committed : s.committed = row.length
  phase : s.phase = row.phase
  unknownLength : s.unknownLength = true ↔ row.lengthKnown = some 0
  bytes : (f.files part).bytes = g.content
  position : row.phase = 0 → s.position = g.content.length
  fits : g.content.length ≤ s.identity.total

section Rows

variable {row : JobRow} {output : String}

/-- What a store accepts keeps the constraints of the table. -/
theorem JobRow.Fits.check (h : row.Fits output) : row.check = true := by
  have hknown : row.lengthKnown = none ∨ row.lengthKnown = some 0 ∨ row.lengthKnown = some 1 := by
    rcases h.version with ⟨-, h⟩ | ⟨-, h, -⟩ | ⟨-, h, -⟩
    · exact Or.inl h
    · exact Or.inr (Or.inl h)
    · exact Or.inr (Or.inr h)
  have htotal : 0 ≤ row.total := Int.le_trans h.committed.1 h.committed.2
  simp only [JobRow.check, decide_eq_true_eq]
  exact ⟨h.original, h.final, htotal, h.committed, h.digest, h.phase, hknown⟩

theorem toDigest_eq {bytes : List UInt8} (h : bytes.length = 32) : ∃ digest, toDigest bytes = .ok digest := by
  have hsize : bytes.toArray.size = 32 := h
  exact ⟨⟨bytes.toArray, hsize⟩, dif_pos hsize⟩

@[simp] theorem toDigest_toList (digest : Digest) : toDigest digest.toList = .ok digest := by
  have hsize : digest.toList.toArray.size = 32 := by simp
  rw [toDigest, dif_pos hsize]
  congr 1

theorem toList_of_toDigest {bytes : List UInt8} {digest : Digest} (h : toDigest bytes = .ok digest) :
    digest.toList = bytes := by
  rw [toDigest] at h
  split at h
  · cases h
    rfl
  · cases h

/-- What a row has as its identity. -/
theorem JobRow.identity_eq_ok {identity : Identity} : row.identity = .ok identity ↔
    row.expected.mapM toDigest = .ok identity.expectedSha256 ∧
      toDigest row.original = .ok identity.originalUrlFingerprint ∧
      toDigest row.final = .ok identity.finalUrlFingerprint ∧ row.etag = identity.strongEtag ∧
      row.total.toNat = identity.total := by
  constructor
  · intro h
    obtain ⟨expected, hexpected, h⟩ := Fallible.bind_eq_ok.1 h
    obtain ⟨original, horiginal, h⟩ := Fallible.bind_eq_ok.1 h
    obtain ⟨final, hfinal, h⟩ := Fallible.bind_eq_ok.1 h
    cases h
    exact ⟨hexpected, horiginal, hfinal, rfl, rfl⟩
  · rintro ⟨hexpected, horiginal, hfinal, hetag, htotal⟩
    rw [JobRow.identity, hexpected, horiginal, hfinal, hetag, htotal]
    rfl

/-- What was asked for is what the identity of the row asks for. -/
theorem JobRow.expected_iff {identity : Identity} (h : row.identity = .ok identity) (digest : Digest) :
    identity.expectedSha256.any (· ≠ digest) = false ↔ ∀ bytes ∈ row.expected, bytes = digest.toList := by
  have hexpected := (JobRow.identity_eq_ok.1 h).1
  cases hrow : row.expected with
  | none =>
    rw [hrow] at hexpected
    rw [← Except.ok.inj hexpected]
    exact ⟨fun _ _ ↦ nofun, fun _ ↦ rfl⟩
  | some bytes =>
    rw [hrow, Option.mapM_some] at hexpected
    obtain ⟨digest', hdigest, heq⟩ := Fallible.map_eq_ok.1 hexpected
    have hlist := toList_of_toDigest hdigest
    rw [← heq]
    have hany : (some digest').any (fun x ↦ decide (x ≠ digest)) = decide (digest' ≠ digest) := rfl
    rw [hany, decide_eq_false_iff_not, not_not]
    constructor
    · rintro rfl bytes' hbytes
      cases hbytes
      exact hlist.symm
    · intro hsame
      exact Vector.toList_inj.1 (hlist.trans (hsame bytes rfl))

/-- **A row that a store accepts has an identity.** -/
theorem JobRow.Fits.identity (h : row.Fits output) : ∃ identity, row.identity = .ok identity ∧
    identity.total = row.total.toNat ∧ identity.strongEtag = row.etag := by
  obtain ⟨original, horiginal⟩ := toDigest_eq h.original
  obtain ⟨final, hfinal⟩ := toDigest_eq h.final
  obtain ⟨expected, hexpected⟩ : ∃ expected, row.expected.mapM toDigest = .ok expected := by
    cases hrow : row.expected with
    | none => exact ⟨none, rfl⟩
    | some bytes =>
      obtain ⟨digest, hdigest⟩ := toDigest_eq (h.expected bytes hrow)
      exact ⟨some digest, by rw [Option.mapM_some, hdigest]; rfl⟩
  exact ⟨⟨original, final, row.etag, row.total.toNat, expected⟩,
    JobRow.identity_eq_ok.2 ⟨hexpected, horiginal, hfinal, rfl, rfl⟩, rfl, rfl⟩

/-- A name of its own is not the output's. -/
theorem ne_of_validateName (h : validateName output = .ok ()) {name : String} (hname : name ∈ ownNames) :
    name ≠ output := by
  rintro rfl
  have hrefused : validateName name = .error .invalidInput := by
    rcases List.mem_cons.1 hname with rfl | hname
    · rfl
    rcases List.mem_cons.1 hname with rfl | hname
    · rfl
    rcases List.mem_cons.1 hname with rfl | hname
    · rfl
    · cases hname
  rw [h] at hrefused
  cases hrefused

theorem JobRow.Fits.ne_output (h : row.Fits output) {name : String} (hname : name ∈ ownNames) : name ≠ output :=
  ne_of_validateName h.name hname

/-- It passes the checks of an identity. -/
theorem JobRow.Fits.validateIdentity (h : row.Fits output) {identity : Identity} (hrow : row.identity = .ok identity) :
    validateIdentity identity = .ok () := by
  obtain ⟨identity', hrow', htotal, hetag⟩ := h.identity
  obtain rfl : identity = identity' := Except.ok.inj (hrow.symm.trans hrow')
  have hlimit := h.total
  have hpositive := Int.le_trans h.committed.1 h.committed.2
  refine if_neg ?_
  rintro (hbig | hlong)
  · omega
  · rw [hetag, h.etag] at hlong
    cases hlong

end Rows

section Sound

variable {sha256 : List UInt8 → Digest} {alone : Prop} {output : String} {part : Inode} {g g' : Ledger}
  {row row' : JobRow} {f f' : Folder}

theorem ownPart : "payload.part" ∈ ownNames := by simp [ownNames]

namespace Folder

/-- Others leave a folder sound. -/
theorem Sound.stirred (h : f.Sound sha256 alone output part g row) (hstirred : f.Stirred alone output f') :
    f'.Sound sha256 alone output part g row := by
  obtain ⟨hfiles, hfresh, hjob, hsettled, hmade⟩ := hstirred.keeps
  have hown : ∀ name ∈ ownNames, f'.node name = f.node name := fun name hname ↦
    hstirred.node_of_ne (h.backs.fits.ne_output hname)
  have hpart : f'.files part = f.files part := hfiles part h.fresh
  refine ⟨h.backs, hjob.trans h.job, fun name hname ↦ ?_, ?_, fun name hname ↦ ?_, fun name hname ↦ ?_, fun halone ↦ ?_,
    fun halone hphase ↦ ?_, Nat.lt_of_lt_of_le h.fresh hfresh, ?_, fun hphase ↦ ?_, fun inode hinode ↦ ?_⟩
  · rw [hown name hname]
    exact h.own name hname
  · rw [hown _ ownPart]
    exact h.payload
  · rw [hsettled]
    exact h.settled name hname
  · by_cases hne : name = output
    · refine ⟨fun halone ↦ ?_, hne⟩
      rw [hstirred.eq_of_alone halone] at hname
      exact (h.strange name hname).1 halone
    · rw [hstirred.node_of_ne hne] at hname
      exact h.strange name hname
  · rw [hstirred.eq_of_alone halone]
    exact h.linked halone
  · rw [hsettled]
    exact h.published halone hphase
  · rw [hpart]
    exact h.kept
  · rw [hpart]
    exact h.complete hphase
  · rw [hmade] at hinode
    exact h.made inode hinode

theorem Sound.steady (part : Inode) (g : Ledger) (row : JobRow) :
    Steady alone output fun f ↦ f.Sound sha256 alone output part g row := fun _ _ h hstirred ↦ h.stirred hstirred

theorem Crashed.node (h : f.Crashed f') (name : String) : f'.node name = f.node name ∨ f'.node name = none := by
  obtain ⟨kept, hentries⟩ := h.entries
  show List.lookup name f'.entries = List.lookup name f.entries ∨ List.lookup name f'.entries = none
  rw [hentries]
  by_cases hkept : kept name = true
  · left
    induction f.entries with
    | nil => rfl
    | cons entry entries ih =>
      by_cases heq : name = entry.1
      · rw [List.filter_cons_of_pos (by rw [← heq]; exact hkept), List.lookup_cons, List.lookup_cons, heq]
        simp
      · have hlookup : ∀ l, List.lookup name (entry :: l) = List.lookup name l := fun l ↦ by
          rw [List.lookup_cons, show (name == entry.1) = false by simpa using heq]
        rw [List.filter_cons, hlookup, ← ih]
        split
        · exact hlookup _
        · rfl
  · right
    rw [List.lookup_eq_none_iff]
    intro entry hentry
    have hmem := (List.mem_filter.1 hentry).2
    refine bne_iff_ne.2 ?_
    rintro rfl
    exact hkept hmem

/-- **No crash takes what the row tells of.** -/
theorem Sound.crashed (h : f.Sound sha256 alone output part g row) (hcrash : f.Crashed f') :
    f'.Sound sha256 alone output part g row := by
  have hown : ∀ name ∈ ownNames, f'.node name = f.node name := fun name hname ↦ hcrash.names name (h.settled name hname)
  refine ⟨h.backs, hcrash.job.trans h.job, fun name hname ↦ ?_, ?_, ?_, fun name hname ↦ ?_, fun halone ↦ ?_, ?_, ?_,
    h.kept.crashed (hcrash.files part), fun hphase ↦ ?_, fun inode hinode ↦ ?_⟩
  · rw [hown name hname]
    exact h.own name hname
  · rw [hown _ ownPart]
    exact h.payload
  · rw [hcrash.settled]
    exact h.settled
  · rcases hcrash.node name with hsame | hnone
    · exact h.strange name (hsame ▸ hname)
    · rw [hnone] at hname
      cases hname
  · rcases h.linked halone with ⟨hnone, hphase⟩ | ⟨hsome, hphase⟩
    · refine Or.inl ⟨?_, hphase⟩
      rcases hcrash.node output with hsame | hnone'
      · exact hsame.trans hnone
      · exact hnone'
    · by_cases hlast : row.phase = 3
      · exact Or.inr ⟨(hcrash.names output (h.published halone hlast)).trans hsome, hphase⟩
      · rcases hcrash.node output with hsame | hnone
        · exact Or.inr ⟨hsame.trans hsome, hphase⟩
        · exact Or.inl ⟨hnone, hlast⟩
  · rw [hcrash.settled]
    exact h.published
  · rw [hcrash.fresh]
    exact h.fresh
  · have hsure := hcrash.files part
    rw [h.complete hphase] at hsure
    exact hsure
  · rw [hcrash.made] at hinode
    exact h.made inode hinode

/-- Other bytes in the payload. -/
theorem Sound.change (h : f.Sound sha256 alone output part g row) {φ : Synced UInt8 → Synced UInt8}
    (hbacks : g'.Backs sha256 output row) (hkept : (φ (f.files part)).Keeps (g'.content.take row.length))
    (hcomplete : 0 < row.phase → φ (f.files part) = ⟨g'.content, none⟩) :
    (f.change part φ).Sound sha256 alone output part g' row := by
  have hpart : (f.change part φ).files part = φ (f.files part) := Function.update_self _ _ _
  refine { h with backs := hbacks, kept := ?_, complete := fun hphase ↦ ?_ }
  · rw [hpart]
    exact hkept
  · rw [hpart]
    exact hcomplete hphase

/-- **Another row**: it is backed, and publication is told only when the output is there for good. -/
theorem Sound.tell (h : f.Sound sha256 alone output part g row) (hbacks : g'.Backs sha256 output row')
    (hkept : (f.files part).Keeps (g'.content.take row'.length))
    (hcomplete : 0 < row'.phase → f.files part = ⟨g'.content, none⟩) (hphase : row.phase ≤ row'.phase)
    (hlast : alone → row'.phase = 3 → f.node output = some (.file part) ∧ output ∈ f.settled) :
    { f with job := some row' }.Sound sha256 alone output part g' row' := by
  refine { h with backs := hbacks, job := rfl, linked := fun halone ↦ ?_, published := fun halone hthree ↦ ?_,
                  kept := hkept, complete := hcomplete, made := fun inode hinode ↦ ?_ }
  · by_cases hthree : row'.phase = 3
    · exact Or.inr ⟨(hlast halone hthree).1, by omega⟩
    · rcases h.linked halone with ⟨hnone, -⟩ | ⟨hsome, htwo⟩
      · exact Or.inl ⟨hnone, hthree⟩
      · exact Or.inr ⟨hsome, htwo.trans hphase⟩
  · exact (hlast halone hthree).2
  · obtain ⟨heq, htwo⟩ := h.made inode hinode
    exact ⟨heq, htwo.trans hphase⟩

end Folder

end Sound

/-! ### What the operations do to the row -/

namespace Ledger.Backs

variable {sha256 : List UInt8 → Digest} {output : String} {g : Ledger} {row : JobRow}

/-- What is written beyond the row's bytes is no concern of its. -/
theorem append (h : g.Backs sha256 output row) (hphase : row.phase = 0) (bytes : List UInt8) :
    (g.append bytes).Backs sha256 output row where
  fits := h.fits
  digest := by
    rw [h.digest, Ledger.append, List.take_append_of_le_length h.covered]
  covered := by
    have hcovered := h.covered
    rw [Ledger.append, List.length_append]
    omega
  acked := h.acked
  version := h.version
  complete := by omega
  matched := h.matched

theorem mark (h : g.Backs sha256 output row) : g.mark.Backs sha256 output row :=
  { h with complete := fun hphase ↦ ⟨(h.complete hphase).1, List.mem_cons_of_mem _ (h.complete hphase).2⟩ }

/-- Reopening cuts what the row does not tell of. -/
theorem cut (h : g.Backs sha256 output row) : (g.cut row.length).Backs sha256 output row where
  fits := h.fits
  digest := by
    rw [h.digest, Ledger.cut, List.take_take, min_self]
  covered := by
    rw [Ledger.cut, List.length_take, min_eq_left h.covered]
  acked := h.acked
  version := h.version
  complete := fun hphase ↦ by
    obtain ⟨hlength, hmarked⟩ := h.complete hphase
    rw [Ledger.cut, hlength, List.take_length]
    exact ⟨rfl, hmarked⟩
  matched := h.matched

/-- The row once a checkpoint is through. -/
theorem receipt (h : g.Backs sha256 output row) (hphase : row.phase = 0) (hfits : g.content.length ≤ row.total) :
    g.acknowledge.Backs sha256 output
      { row with committed := g.content.length, digest := (sha256 g.content).toList } where
  fits := { h.fits with
    committed := ⟨Int.natCast_nonneg _, hfits⟩
    digest := by simp
    complete := fun hpositive ↦ absurd hphase (ne_of_gt (hpositive : 0 < row.phase)) }
  digest := by
    show (sha256 g.content).toList = (sha256 (g.content.take g.content.length)).toList
    rw [List.take_length]
  covered := Nat.le_refl _
  acked := Nat.le_refl _
  version := h.version
  complete := fun hpositive ↦ absurd hphase (ne_of_gt (hpositive : 0 < row.phase))
  matched := fun htwo ↦ by
    have htwo' : 2 ≤ row.phase := htwo
    omega

/-- A ledger of which less was acknowledged. -/
theorem unacknowledge (h : g.acknowledge.Backs sha256 output row) (hacked : g.acked ≤ row.length) :
    g.Backs sha256 output row := { h with acked := hacked }

theorem urls (h : g.Backs sha256 output row) (original final : Digest) :
    g.Backs sha256 output { row with original := original.toList, final := final.toList } :=
  { h with fits := { h.fits with original := by simp, final := by simp } }

/-- The row once completion is marked. -/
theorem complete_known (h : g.Backs sha256 output row) (hphase : row.phase = 0) (hknown : row.lengthKnown ≠ some 0)
    (hlength : row.length = g.content.length) (htotal : row.committed = row.total)
    (hmarked : g.content.length ∈ g.marks) : g.Backs sha256 output { row with phase := 1 } :=
  { h with
    fits := { h.fits with
      version := by
        rcases h.fits.version with h | ⟨-, h, -⟩ | ⟨-, -, h⟩
        · exact Or.inl h
        · exact absurd h hknown
        · omega
      phase := ⟨(by decide : (0 : ℤ) ≤ 1), (by decide : (1 : ℤ) ≤ 3)⟩
      complete := fun _ ↦ htotal }
    complete := fun _ ↦ ⟨hlength, hmarked⟩
    matched := fun htwo ↦ ((by decide : ¬(2 : ℤ) ≤ 1) htwo).elim }

theorem complete_unknown (h : g.Backs sha256 output row) (hversion : row.version = 3)
    (hlength : row.length = g.content.length) (hcommitted : row.committed = g.content.length)
    (hmarked : g.content.length ∈ g.marks) :
    g.Backs sha256 output (Folder.completed g.content.length row) :=
  { h with
    fits := { h.fits with
      version := Or.inr (Or.inr ⟨hversion, rfl, (by decide : (0 : ℤ) < 1)⟩)
      total := by
        have := h.fits.total
        have := h.fits.committed.2
        show (g.content.length : ℤ) ≤ i64Max
        omega
      committed := ⟨h.fits.committed.1, hcommitted.le⟩
      phase := ⟨(by decide : (0 : ℤ) ≤ 1), (by decide : (1 : ℤ) ≤ 3)⟩
      complete := fun _ ↦ hcommitted }
    complete := fun _ ↦ ⟨hlength, hmarked⟩
    matched := fun htwo ↦ ((by decide : ¬(2 : ℤ) ≤ 1) htwo).elim }

/-- The row once publication is intended, or done. -/
theorem advance (h : g.Backs sha256 output row) {phase : ℤ} (hpositive : 0 < row.phase) (hphase : 0 < phase ∧ phase ≤ 3)
    (hmatched : ∀ bytes ∈ row.expected, bytes = row.digest) : g.Backs sha256 output { row with phase := phase } :=
  { h with
    fits := { h.fits with
      version := by
        rcases h.fits.version with h | ⟨-, -, h, -⟩ | ⟨h, h', -⟩
        · exact Or.inl h
        · omega
        · exact Or.inr (Or.inr ⟨h, h', hphase.1⟩)
      phase := ⟨hphase.1.le, hphase.2⟩
      complete := fun _ ↦ h.fits.complete hpositive }
    complete := fun _ ↦ h.complete hpositive
    matched := fun _ ↦ hmatched }

end Ledger.Backs

end TransferStore

end Fhd
