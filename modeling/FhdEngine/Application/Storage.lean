import FhdEngine.Application.Ports

/-!
# The storage port

`crates/application/src/storage.rs`: the identity of a part file, the errors of the blocking storage
calls, and what may already occupy a destination. The calls themselves are modelled where they are
implemented (`FhdEngine.Storage`) and where they are made (`FhdEngine.Runtime`).
-/

namespace Fhd

/-- An absolute path: the names below the root, outermost first. -/
abbrev Path := List String

/-- `char::is_control`. -/
def isControl (c : Char) : Bool := c.toNat < 0x20 ∨ 0x7f ≤ c.toNat ∧ c.toNat < 0xa0

instance listCharLawful : LawfulBEq (List Char) := inferInstance

/-- The kinds of `std::io::ErrorKind` the sources name; `other` stands for the rest. -/
inductive ErrorKind
  | notFound
  | permissionDenied
  | alreadyExists
  | wouldBlock
  | timedOut
  | interrupted
  | unexpectedEof
  | storageFull
  | unsupported
  | crossesDevices
  | other
deriving DecidableEq, Repr

inductive StorageError
  | invalidInput
  | invalidState
  | bounds
  | locked
  | io (kind : ErrorKind)
  | integrity
  | conflict
  | unsupported
deriving DecidableEq, Repr

/-- Which part file, and how long it is. -/
@[ext] structure PartSpec where
  job : JobId
  generation : Generation
  size : ℕ
  size_le : size ≤ i64Max
deriving Repr

instance : DecidableEq PartSpec := fun a b ↦
  decidable_of_iff (a.job = b.job ∧ a.generation = b.generation ∧ a.size = b.size) PartSpec.ext_iff.symm

def PartSpec.new (job : JobId) (generation : Generation) (size : ℕ) : Except DomainError PartSpec :=
  if h : size > i64Max then .error .invalidInput else .ok ⟨job, generation, size, by omega⟩

theorem PartSpec.new_eq_ok {job : JobId} {generation : Generation} {size : ℕ} {spec : PartSpec} :
    PartSpec.new job generation size = .ok spec ↔
      spec.job = job ∧ spec.generation = generation ∧ spec.size = size := by
  unfold PartSpec.new
  constructor
  · intro h
    split at h
    · cases h
    · cases h
      exact ⟨rfl, rfl, rfl⟩
  · rintro ⟨rfl, rfl, rfl⟩
    rw [dif_neg (by have := spec.size_le; omega)]

/-- What already occupies a destination path. -/
inductive Occupant
  /-- A regular file whose digest was computed because its size matched. -/
  | file (size : ℕ) (digest : Digest)
  /-- A regular file of another size: never ours, and not worth hashing. -/
  | otherSize
  /-- A directory, link or device: never publishable over. -/
  | notAFile
deriving DecidableEq, Repr

end Fhd
