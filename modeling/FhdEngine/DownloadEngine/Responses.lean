import FhdEngine.DownloadEngine.Options
import FhdEngine.ResumePolicy.Policy

/-!
# What the engine reads in a response

The readers of `crates/download-engine/src/lib.rs` in front of the resume policy.
-/

namespace Fhd.DownloadEngine

open ResumePolicy (Field ResponseHeaders)

/-- Every value of a field counts. -/
def field (headers : HeaderMap) (name : HeaderName) : Field :=
  match headers.getAll name with
  | [] => .missing
  | [value] => .single value
  | _ => .repeated

/-- The fields that the resume policy looks at. -/
def responseHeaders (headers : HeaderMap) : ResponseHeaders :=
  ⟨field headers .contentRange, field headers .contentLength, field headers .etag, field headers .contentEncoding⟩

/-- `length`: a single content length of at most twenty digits that fits a file. -/
def contentLength (headers : HeaderMap) : Except Error ℕ :=
  match field headers .contentLength with
  | .single value =>
    match digits value with
    | none => .error .invalidHeaders
    | some n => if n ≤ i64Max then .ok n else .error .invalidHeaders
  | _ => .error .invalidHeaders

def validateRepresentation (headers : HeaderMap) : Except Error Unit := do
  match field headers .contentEncoding with
  | .missing => pure ()
  | .single value => if !eqIgnoreAsciiCase value (ascii "identity") then throw .invalidHeaders
  | .repeated => throw .invalidHeaders
  if headers.getAll .transferEncoding ≠ [] ∧ headers.getAll .contentLength ≠ [] then throw .invalidHeaders
  match field headers .contentType with
  | .missing => pure ()
  | .repeated => throw .invalidHeaders
  | .single value =>
    if value.length > maxField ∨ 10 ≤ (trimAscii value).length ∧
        eqIgnoreAsciiCase ((trimAscii value).take 10) (ascii "multipart/") then throw .invalidHeaders

end Fhd.DownloadEngine
