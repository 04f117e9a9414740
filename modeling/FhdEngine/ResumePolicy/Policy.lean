import FhdEngine.Http.Headers
import Mathlib.Data.List.SplitOn

/-!
# The resume policy

`crates/resume-policy/src/lib.rs`: whether a response may be read as the range that was asked for. It keeps
repeated fields apart from single ones and refuses whatever is too large. The strong entity tag, which the
transport takes from here, is in `FhdEngine.Http.Headers`.
-/

namespace Fhd.ResumePolicy

inductive Error
  | missingHeader
  | repeatedHeader
  | fieldTooLarge
  | invalidNumber
  | invalidContentRange
  | invalidStrongEtag
  | invalidRequestRange
  | representationChanged
  | rangeMismatch
  | lengthMismatch
  | nonIdentityEncoding
  | unexpectedStatus
deriving DecidableEq, Repr

/-- Preserve duplicates; never select only the first value. -/
inductive Field
  | missing
  | single (value : Bytes)
  | repeated
deriving DecidableEq, Repr

/-- `bounded`. -/
def boundedField (value : Bytes) : Except Error Bytes :=
  match bounded value with
  | none => .error .fieldTooLarge
  | some value => .ok value

def Field.required : Field → Except Error Bytes
  | .missing => .error .missingHeader
  | .repeated => .error .repeatedHeader
  | .single value => boundedField value

/-- One more digit of a `u64`. -/
def readDigit (number : ℕ) (digit : UInt8) : Except Error ℕ :=
  if isDigit digit then
    match (checkedMul number 10).bind (checkedAdd · (digit.toNat - 48)) with
    | none => .error .invalidNumber
    | some number => .ok number
  else .error .invalidNumber

/-- `decimal`. -/
def readDecimal (value : Bytes) : Except Error ℕ :=
  if value = [] then .error .invalidNumber else value.foldlM readDigit 0

/-- `StrongEtag::parse`. -/
def parseEtag (value : Bytes) : Except Error Bytes := do
  let _ ← boundedField value
  match strongEtag value with
  | none => throw .invalidStrongEtag
  | some tag => return tag

inductive ContentRange
  | satisfied (start stop : ℕ) (total : Option ℕ)
  | unsatisfied (total : ℕ)
deriving DecidableEq, Repr

/-- `start-end` of a content range. -/
def parseBounds (total : Option ℕ) : List Bytes → Except Error ContentRange
  | start :: stop :: more => do
    let start ← readDecimal start
    let stop ← readDecimal stop
    if more ≠ [] ∨ start > stop ∨ total.any (stop ≥ ·) then throw .invalidContentRange
    match checkedAdd stop 1 with
    | none => throw .invalidContentRange
    | some next => return .satisfied start next total
  | [start] => do
    let _ ← readDecimal start
    throw .invalidContentRange
  | [] => throw .invalidContentRange

/-- What follows the unit. -/
def parseRange (value : Bytes) : Except Error ContentRange :=
  match value.splitOn 47 with
  | [range, total] =>
    if range = ascii "*" then .unsatisfied <$> readDecimal total
    else if total = ascii "*" then parseBounds none (range.splitOn 45)
    else do
      let total ← readDecimal total
      parseBounds (some total) (range.splitOn 45)
  | _ => throw .invalidContentRange

def ContentRange.parse (value : Bytes) : Except Error ContentRange := do
  let value ← boundedField value
  if value.length < 7 ∨ !eqIgnoreAsciiCase (value.take 6) (ascii "bytes ") then throw .invalidContentRange
  parseRange (value.drop 6)

/-- A range in a representation, pinned by a strong entity tag. -/
@[ext] structure ResumeRequest where
  start : ℕ
  stop : ℕ
  total : ℕ
  etag : Bytes
  start_lt : start < stop
  stop_le : stop ≤ total
deriving Repr

instance : DecidableEq ResumeRequest := fun a b ↦
  decidable_of_iff (a.start = b.start ∧ a.stop = b.stop ∧ a.total = b.total ∧ a.etag = b.etag)
    ResumeRequest.ext_iff.symm

def ResumeRequest.new (start stop total : ℕ) (etag : Bytes) : Except Error ResumeRequest :=
  if h : start ≥ stop ∨ stop > total then .error .invalidRequestRange
  else .ok ⟨start, stop, total, etag, by omega, by omega⟩

structure ResponseHeaders where
  contentRange : Field
  contentLength : Field
  etag : Field
  contentEncoding : Field
deriving DecidableEq, Repr

/-- Permission to read a body of exactly this length. -/
structure BodyPermit where
  expectedBytes : ℕ
deriving DecidableEq, Repr

inductive Decision
  /-- Body framing, exact length and durable storage remain required. -/
  | readRange (permit : BodyPermit)
  | restartSeparately
  /-- Never infer completion from 416, even when the reported size matches. -/
  | revalidate
  | reject (error : Error)
deriving DecidableEq, Repr

/-- No content encoding, or the identity. -/
def checkEncoding : Field → Except Error Unit
  | .missing => .ok ()
  | field => do
    let encoding ← field.required
    if !eqIgnoreAsciiCase encoding (ascii "identity") then throw .nonIdentityEncoding

def checkPartial (request : ResumeRequest) (headers : ResponseHeaders) : Except Error BodyPermit := do
  checkEncoding headers.contentEncoding
  let etag ← headers.etag.required
  let etag ← parseEtag etag
  if etag ≠ request.etag then throw .representationChanged
  let value ← headers.contentRange.required
  let range ← ContentRange.parse value
  if range ≠ .satisfied request.start request.stop (some request.total) then throw .rangeMismatch
  let value ← headers.contentLength.required
  let length ← readDecimal value
  if length ≠ request.stop - request.start then throw .lengthMismatch
  return ⟨request.stop - request.start⟩

def evaluate (request : ResumeRequest) (status : ℕ) (headers : ResponseHeaders) : Decision :=
  if status = 200 then .restartSeparately
  else if status = 416 then .revalidate
  else if status = 206 then
    match checkPartial request headers with
    | .ok permit => .readRange permit
    | .error error => .reject error
  else .reject .unexpectedStatus

end Fhd.ResumePolicy
