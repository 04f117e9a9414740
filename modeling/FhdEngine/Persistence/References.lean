import FhdEngine.Application.Storage
import FhdEngine.Persistence.Tables

/-!
# What each job points at

`SourceReference` of `crates/application/src/lib.rs` and the two tables of
`crates/adapters/persistence/src/references.rs`. A link the caller marked sensitive is never written: its
row only says that there was such a source. Marking is one-way for the life of a row, which is what the
condition of the upsert is for.

Identifiers use the whole range of a word and are stored with the same bits.
-/

namespace Fhd

/-- A reference keeps its link unless that is sensitive. -/
structure SourceReference where
  url : Option String
  allowHttp : Bool
  isSensitive : Bool
  withheld : isSensitive = url.isNone
  url_fits : ∀ u ∈ url, u ≠ "" ∧ u.utf8ByteSize ≤ 16384
deriving DecidableEq

namespace SourceReference

def new (url : String) (allowHttp : Bool) : Except AppError SourceReference :=
  if h : url = "" ∨ url.utf8ByteSize > 16384 then .error .invalidInput
  else .ok ⟨some url, allowHttp, false, rfl, by simpa using h⟩

def sensitive (allowHttp : Bool) : SourceReference := ⟨none, allowHttp, true, rfl, by simp⟩

theorem new_eq_ok {url : String} {allowHttp : Bool} {reference : SourceReference}
    (h : new url allowHttp = .ok reference) : reference.url = some url ∧
      reference.allowHttp = allowHttp ∧ reference.isSensitive = false := by
  unfold new at h
  split at h
  · cases h
  · cases h
    exact ⟨rfl, rfl, rfl⟩

end SourceReference

namespace Persistence

/-- A row of `sources`. -/
structure SourceRow where
  url : Option String
  allowHttp : Bool
  sensitive : Bool
deriving DecidableEq, Repr

def SourceRow.of (reference : SourceReference) : SourceRow :=
  ⟨reference.url, reference.allowHttp, reference.isSensitive⟩

/-- The tables `sources` and `destinations`. -/
structure References where
  sources : AList fun _ : SourceRef ↦ SourceRow
  destinations : AList fun _ : DestinationRef ↦ Path

namespace References

def empty : References := ⟨∅, ∅⟩

/-- The transaction of `record_reference`. -/
def record (t : References) (source : SourceRef) (reference : SourceReference)
    (destination : DestinationRef) (path : Path) : References where
  sources :=
    match t.sources.lookup source with
    -- `WHERE sensitive = 0`
    | some row => if row.sensitive then t.sources else t.sources.insert source (SourceRow.of reference)
    | none => t.sources.insert source (SourceRow.of reference)
  destinations := t.destinations.insert destination path

def storedSource (row : SourceRow) : Except PersistenceError SourceReference :=
  match row.url, row.sensitive with
  | _, true | none, _ => .ok (.sensitive row.allowHttp)
  | some url, false => orCorrupt (SourceReference.new url row.allowHttp)

def storedSources (t : References) : Except PersistenceError (List (SourceRef × SourceReference)) :=
  t.sources.entries.mapM fun e ↦ (storedSource e.2).map (e.1, ·)

def storedDestinations (t : References) : List (DestinationRef × Path) :=
  t.destinations.entries.map fun e ↦ (e.1, e.2)

variable {t : References} {source : SourceRef} {reference : SourceReference}
  {destination : DestinationRef} {path : Path}

/-- Only the row of the source changes. -/
theorem lookup_record_of_ne {source' : SourceRef} (h : source' ≠ source) :
    (t.record source reference destination path).sources.lookup source' = t.sources.lookup source' := by
  simp only [record]
  split
  · split
    · rfl
    · exact AList.lookup_insert_ne h
  · exact AList.lookup_insert_ne h

/-- **Marking is one-way**: a row that is marked stays as it is. -/
theorem lookup_record_of_marked {row : SourceRow} (hrow : t.sources.lookup source = some row)
    (hmarked : row.sensitive = true) :
    (t.record source reference destination path).sources.lookup source = some row := by
  simp only [record, hrow, hmarked, if_true]

/-- Any other row becomes what is recorded. -/
theorem lookup_record (h : ∀ row, t.sources.lookup source = some row → row.sensitive = false) :
    (t.record source reference destination path).sources.lookup source =
      some (SourceRow.of reference) := by
  simp only [record]
  cases hrow : t.sources.lookup source with
  | none => exact AList.lookup_insert _
  | some row =>
    simp only [h row hrow, Bool.false_eq_true, if_false]
    exact AList.lookup_insert _

/-- The references read back, if no recorded link is malformed. -/
theorem storedSource_of (reference : SourceReference) :
    storedSource (SourceRow.of reference) = .ok reference := by
  obtain ⟨url, allowHttp, isSensitive, hwithheld, hfits⟩ := reference
  cases url with
  | none =>
    cases hwithheld
    rfl
  | some url =>
    cases hwithheld
    have hurl : ¬(url = "" ∨ url.utf8ByteSize > 16384) := by simpa using hfits
    show orCorrupt (SourceReference.new url allowHttp) = _
    rw [SourceReference.new, dif_neg hurl]
    rfl

end References

end Persistence

end Fhd
