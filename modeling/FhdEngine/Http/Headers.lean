import FhdEngine.Application.Transport
import Mathlib.Data.List.DropRight

/-!
# What the transport reads in a response

The readers of `crates/adapters/http/src/lib.rs` (`single`, `digits`, `representation_is_plain`,
`content_range`, `strong_validator`, `status_error`), and the strong entity tag they take from
`crates/resume-policy/src/lib.rs`. A header map keeps repeated fields, so that a repetition can be told
from a single value.

`digits_eq_some` and `contentRange_eq_some` say which texts the two readers of numbers accept.
-/

namespace Fhd

abbrev Bytes := List UInt8

/-- The bytes of a text. -/
def ascii (text : String) : Bytes := text.toUTF8.toList

/-! ### Decimal numbers -/

def isDigit (b : UInt8) : Bool := 48 ≤ b && b ≤ 57

/-- `format!("{n}")`. -/
def decimal (n : ℕ) : Bytes := (Nat.toDigits 10 n).map fun c ↦ c.toNat.toUInt8

def digits (value : Bytes) : Option ℕ :=
  if value = [] ∨ value.length > 20 then none
  else
    value.foldlM (fun n b ↦
      if !isDigit b then none
      else
        match checkedMul n 10 with
        | none => none
        | some m => checkedAdd m (b.toNat - 48)) 0

/-- The number a text of digits denotes, after the digits before it. -/
def valueFrom (n : ℕ) (l : Bytes) : ℕ := l.foldl (fun n b ↦ n * 10 + (b.toNat - 48)) n

theorem le_valueFrom (n : ℕ) (l : Bytes) : n ≤ valueFrom n l := by
  induction l generalizing n with
  | nil => exact le_rfl
  | cons b l ih =>
    have hstep := ih (n * 10 + (b.toNat - 48))
    show n ≤ valueFrom (n * 10 + (b.toNat - 48)) l
    omega

theorem valueFrom_append (n : ℕ) (l l' : Bytes) : valueFrom n (l ++ l') = valueFrom (valueFrom n l) l' :=
  List.foldl_append

/-- **What the reader accepts**: between one and twenty digits that denote a word. -/
theorem digits_eq_some {value : Bytes} {n : ℕ} : digits value = some n ↔
    value ≠ [] ∧ value.length ≤ 20 ∧ (∀ b ∈ value, isDigit b = true) ∧ valueFrom 0 value = n ∧
      n ≤ u64Max := by
  have hread : ∀ (l : Bytes) (acc : ℕ), acc ≤ u64Max → (l.foldlM (fun n b ↦
      if !isDigit b then none
      else
        match checkedMul n 10 with
        | none => none
        | some m => checkedAdd m (b.toNat - 48)) acc = some n ↔
      (∀ b ∈ l, isDigit b = true) ∧ valueFrom acc l = n ∧ n ≤ u64Max) := by
    intro l
    induction l with
    | nil =>
      intro acc hacc
      constructor
      · intro h
        cases h
        exact ⟨fun b hb ↦ absurd hb List.not_mem_nil, rfl, hacc⟩
      · rintro ⟨-, rfl, -⟩
        rfl
    | cons b l ih =>
      intro acc hacc
      have hle := le_valueFrom (acc * 10 + (b.toNat - 48)) l
      have hvalue : valueFrom acc (b :: l) = valueFrom (acc * 10 + (b.toNat - 48)) l := rfl
      rw [List.foldlM_cons, hvalue, List.forall_mem_cons]
      by_cases hb : isDigit b = true
      · by_cases hfits : acc * 10 + (b.toNat - 48) ≤ u64Max
        · have hmul : checkedMul acc 10 = some (acc * 10) := if_pos (by omega)
          have hadd : checkedAdd (acc * 10) (b.toNat - 48) = some (acc * 10 + (b.toNat - 48)) :=
            if_pos hfits
          simp only [hb, Bool.not_true, Bool.false_eq_true, if_false, hmul, hadd, true_and]
          exact ih _ hfits
        · -- the number so far is no word, so the whole number is none either
          have hnone : (match checkedMul acc 10 with
              | none => none
              | some m => checkedAdd m (b.toNat - 48)) = none := by
            unfold checkedMul
            split
            · rfl
            next m hm =>
              split at hm
              · cases hm
                exact if_neg hfits
              · cases hm
          simp only [hb, Bool.not_true, Bool.false_eq_true, if_false, hnone]
          constructor
          · intro h
            cases h
          · rintro ⟨-, rfl, hn⟩
            exact absurd (hle.trans hn) hfits
      · simp only [Bool.not_eq_true] at hb
        simp [hb]
  unfold digits
  split
  next h =>
    simp only [reduceCtorEq, false_iff]
    rintro ⟨hne, hlen, -⟩
    exact h.elim hne (by omega)
  next h =>
    rw [not_or, not_lt] at h
    rw [hread value 0 (Nat.zero_le _)]
    tauto

/-- The last digit of a number comes last. -/
theorem decimal_eq (n : ℕ) :
    decimal n = (if n < 10 then [] else decimal (n / 10)) ++ [(48 + n % 10).toUInt8] := by
  have hdigit : ∀ d < 10, (Nat.digitChar d).toNat.toUInt8 = (48 + d).toUInt8 := by decide
  rw [decimal, Nat.toDigits_eq_if (by omega)]
  split
  next h => simp [hdigit n h, Nat.mod_eq_of_lt h]
  · simp [decimal, hdigit (n % 10) (Nat.mod_lt _ (by omega))]

/-- A number is written in at most as many digits as it takes. -/
theorem length_decimal_le (n k : ℕ) (hk : 1 ≤ k) (h : n < 10 ^ k) : (decimal n).length ≤ k := by
  induction n using Nat.strong_induction_on generalizing k with
  | _ n ih =>
    rw [decimal_eq]
    split
    · simpa using hk
    next hge =>
      obtain ⟨k, rfl⟩ := Nat.exists_eq_add_of_le' hk
      have hk' : 1 ≤ k := by
        rcases Nat.eq_zero_or_pos k with rfl | hpos
        · omega
        · exact hpos
      have hdiv : n / 10 < 10 ^ k := by
        rw [Nat.pow_succ] at h
        omega
      have := ih (n / 10) (by omega) k hk' hdiv
      simp only [List.length_append, List.length_singleton]
      omega

theorem isDigit_decimal (n : ℕ) : ∀ b ∈ decimal n, isDigit b = true := by
  have hlast : ∀ d < 10, isDigit (48 + d).toUInt8 = true := by decide
  induction n using Nat.strong_induction_on with
  | _ n ih =>
    intro b hb
    rw [decimal_eq] at hb
    rcases List.mem_append.1 hb with hb | hb
    · split at hb
      · exact absurd hb List.not_mem_nil
      · exact ih (n / 10) (by omega) b hb
    · rw [List.mem_singleton.1 hb]
      exact hlast _ (Nat.mod_lt _ (by omega))

theorem valueFrom_decimal (n : ℕ) : valueFrom 0 (decimal n) = n := by
  have hlast : ∀ d < 10, (48 + d).toUInt8.toNat - 48 = d := by decide
  induction n using Nat.strong_induction_on with
  | _ n ih =>
    rw [decimal_eq, valueFrom_append]
    have hdigit : ∀ m, valueFrom m [(48 + n % 10).toUInt8] = m * 10 + n % 10 := fun m ↦ by
      show m * 10 + ((48 + n % 10).toUInt8.toNat - 48) = _
      rw [hlast _ (Nat.mod_lt _ (by omega))]
    rw [hdigit]
    split
    next h =>
      show 0 * 10 + n % 10 = n
      omega
    · rw [ih (n / 10) (by omega)]
      omega

/-- **Written and read**: every word survives. -/
theorem digits_decimal {n : ℕ} (h : n ≤ u64Max) : digits (decimal n) = some n := by
  have hlen : (decimal n).length ≤ 20 :=
    length_decimal_le n 20 (by omega) (by unfold u64Max at h; omega)
  refine digits_eq_some.2 ⟨fun hnil ↦ ?_, hlen, isDigit_decimal n, valueFrom_decimal n, h⟩
  rw [decimal_eq] at hnil
  exact List.append_ne_nil_of_right_ne_nil _ (List.cons_ne_nil _ _) hnil

/-! ### Texts -/

/-- `split_at` the first of these bytes, which neither half keeps. -/
def splitOnce (separator : UInt8) (value : Bytes) : Option (Bytes × Bytes) :=
  match value.dropWhile (· ≠ separator) with
  | _ :: rest => some (value.takeWhile (· ≠ separator), rest)
  | [] => none

theorem splitOnce_eq_some {separator : UInt8} {value a b : Bytes} :
    splitOnce separator value = some (a, b) ↔ value = a ++ separator :: b ∧ separator ∉ a := by
  induction value generalizing a with
  | nil => simp [splitOnce]
  | cons x value ih =>
    by_cases hx : x = separator
    · subst hx
      have hnow : splitOnce x (x :: value) = some ([], value) := by simp [splitOnce]
      rw [hnow]
      constructor
      · intro h
        cases h
        simp
      · rintro ⟨heq, hnot⟩
        cases a with
        | nil =>
          cases heq
          rfl
        | cons y a =>
          cases heq
          simp at hnot
    · have hlater : splitOnce separator (x :: value) =
          (splitOnce separator value).map fun r ↦ (x :: r.1, r.2) := by
        unfold splitOnce
        rw [List.dropWhile_cons_of_pos (by simpa using hx), List.takeWhile_cons_of_pos (by simpa using hx)]
        cases value.dropWhile (· ≠ separator) <;> rfl
      rw [hlater, Option.map_eq_some_iff]
      constructor
      · rintro ⟨⟨a', b'⟩, h, heq⟩
        cases heq
        obtain ⟨rfl, hnot⟩ := ih.1 h
        exact ⟨rfl, by simpa [Ne.symm hx] using hnot⟩
      · rintro ⟨heq, hnot⟩
        cases a with
        | nil =>
          cases heq
          exact absurd rfl hx
        | cons y a =>
          cases heq
          exact ⟨(a, b), ih.2 ⟨rfl, fun h ↦ hnot (List.mem_cons_of_mem _ h)⟩, rfl⟩

def lower (b : UInt8) : UInt8 := if 65 ≤ b ∧ b ≤ 90 then b + 32 else b

def eqIgnoreAsciiCase (a b : Bytes) : Bool := a.map lower = b.map lower

def isAsciiWhitespace (b : UInt8) : Bool := b = 32 ∨ b = 9 ∨ b = 10 ∨ b = 12 ∨ b = 13

def trimAscii (value : Bytes) : Bytes := (value.dropWhile isAsciiWhitespace).rdropWhile isAsciiWhitespace

/-- `str::from_utf8`. -/
def fromUtf8 (value : Bytes) : Option String := String.fromUTF8? ⟨value.toArray⟩

/-! ### The strong entity tag -/

/-- The largest field that is read. -/
def maxField : ℕ := 8192

/-- The space that HTTP allows around a field. -/
def isOws (b : UInt8) : Bool := b = 32 ∨ b = 9

/-- `bounded`: a field without the space around it, or nothing if it is too large. -/
def bounded (value : Bytes) : Option Bytes :=
  if value.length > maxField then none else some ((value.dropWhile isOws).rdropWhile isOws)

def isEtagByte (b : UInt8) : Bool := b = 0x21 ∨ (0x23 ≤ b ∧ b ≤ 0x7e) ∨ 0x80 ≤ b

/-- `StrongEtag::parse`. -/
def strongEtag (value : Bytes) : Option Bytes :=
  match bounded value with
  | none => none
  | some value =>
    if value.length < 2 ∨ value.head? ≠ some 34 ∨ value.getLast? ≠ some 34 then none
    else if ((value.drop 1).take (value.length - 2)).all isEtagByte then some value
    else none

/-! ### Headers -/

inductive HeaderName
  | acceptEncoding
  | authorization
  | contentEncoding
  | contentLength
  | contentRange
  | contentType
  | cookie
  | etag
  | ifRange
  | location
  | range
  | retryAfter
  | transferEncoding
  | other (name : String)
deriving DecidableEq, Repr

/-- The fields of a message, repeated ones in their order. -/
abbrev HeaderMap := List (HeaderName × Bytes)

namespace HeaderMap

variable (headers : HeaderMap)

def getAll (name : HeaderName) : List Bytes := (headers.filter (·.1 = name)).map (·.2)

def single (name : HeaderName) : Option Bytes :=
  match headers.getAll name with
  | [value] => if value.length ≤ maxField then some value else none
  | _ => none

/-- Anything but a single, unencoded, non-multipart representation is rejected. -/
def representationIsPlain : Bool :=
  let encoding :=
    match headers.getAll .contentEncoding with
    | [] => true
    | [_] => (headers.single .contentEncoding).any (eqIgnoreAsciiCase · (ascii "identity"))
    | _ => false
  let framing := !(headers.getAll .transferEncoding ≠ [] && headers.getAll .contentLength ≠ [])
  let kind :=
    match headers.getAll .contentType with
    | [] => true
    | [_] => (headers.single .contentType).any fun value ↦
      !(10 ≤ (trimAscii value).length &&
        eqIgnoreAsciiCase ((trimAscii value).take 10) (ascii "multipart/"))
    | _ => false
  encoding && framing && kind

/-- `bytes start-end/total` of exactly the requested range. -/
def contentRange (expected : ByteRange) : Option ℕ := do
  let value ← headers.single .contentRange
  let rest ← value.dropPrefix? (ascii "bytes ")
  let (range, total) ← splitOnce 47 rest
  let total ← digits total
  let (start, stop) ← splitOnce 45 range
  let start ← digits start
  let stop ← digits stop
  if start ≠ expected.start then none
  else
    let next ← checkedAdd stop 1
    if next ≠ expected.stop ∨ stop ≥ total then none else some total

/-- The entity tag as it was sent, if it is a strong one. -/
def strongValidator : Option Bytes := do
  let value ← headers.single .etag
  let _ ← strongEtag value
  let _ ← fromUtf8 value
  return value

variable {headers}

theorem single_eq_some {name : HeaderName} {value : Bytes} :
    headers.single name = some value ↔ headers.getAll name = [value] ∧ value.length ≤ maxField := by
  unfold single
  split
  next v h =>
    rw [h]
    constructor
    · intro hsome
      split at hsome
      next hle =>
        cases hsome
        exact ⟨rfl, hle⟩
      · cases hsome
    · rintro ⟨heq, hle⟩
      cases heq
      exact if_pos hle
  next h =>
    simp only [reduceCtorEq, false_iff]
    rintro ⟨heq, -⟩
    exact h _ heq

/-- **What a Content-Range must say**: a single field, of exactly the range that was asked for, which is
in the total. -/
theorem contentRange_eq_some {expected : ByteRange} {total : ℕ} :
    headers.contentRange expected = some total ↔ ∃ a b t,
      headers.single .contentRange = some (ascii "bytes " ++ (a ++ 45 :: b ++ 47 :: t)) ∧
      digits a = some expected.start ∧ digits b = some (expected.stop - 1) ∧ digits t = some total ∧
      expected.stop ≤ total := by
  have hlt := expected.start_lt
  unfold contentRange
  simp only [Option.bind_eq_bind, Option.bind_eq_some_iff, Prod.exists, List.dropPrefix?_eq_some_iff,
    splitOnce_eq_some, beq_iff_eq]
  constructor
  · rintro ⟨value, hvalue, rest, ⟨_, rfl, rfl⟩, range, t, ⟨rfl, -⟩, n, hn, a, b, ⟨rfl, -⟩, start, hstart,
      stop, hstop, h⟩
    split at h
    · cases h
    next heq =>
      obtain ⟨next, hadd, h⟩ := Option.bind_eq_some_iff.1 h
      obtain ⟨-, rfl⟩ := checkedAdd_eq_some.1 hadd
      split at h
      · cases h
      next hin =>
        cases h
        rw [not_or, not_not, not_le] at hin
        obtain rfl := not_not.1 heq
        refine ⟨a, b, t, hvalue, hstart, ?_, hn, by omega⟩
        rw [← hin.1, Nat.add_sub_cancel]
        exact hstop
  · rintro ⟨a, b, t, hvalue, ha, hb, ht, hle⟩
    -- neither separator is a digit
    have hnotDigit : ∀ {l : Bytes} {n : ℕ} {x : UInt8}, digits l = some n → isDigit x = false → x ∉ l := by
      intro l n x hl hx hmem
      rw [(digits_eq_some.1 hl).2.2.1 x hmem] at hx
      cases hx
    have hslash : (47 : UInt8) ∉ a ++ 45 :: b := by
      simp only [List.mem_append, List.mem_cons, not_or]
      exact ⟨hnotDigit ha (by decide), by decide, hnotDigit hb (by decide)⟩
    refine ⟨_, hvalue, _, ⟨_, rfl, rfl⟩, a ++ 45 :: b, t, ⟨rfl, hslash⟩, total, ht, a, b,
      ⟨rfl, hnotDigit ha (by decide)⟩, _, ha, _, hb, ?_⟩
    have hword := (digits_eq_some.1 hb).2.2.2.2
    have hnext : checkedAdd (expected.stop - 1) 1 = some expected.stop := by
      have hstop := expected.stop_le
      rw [checkedAdd_eq_some]
      unfold i64Max at hstop
      unfold u64Max
      omega
    rw [if_neg (not_not.2 rfl), hnext]
    exact if_neg (by omega)

end HeaderMap

/-! ### Statuses -/

/-- Status to outcome. Retry-After in seconds becomes a throttle delay, of a day at most. -/
def statusError (status : ℕ) (headers : HeaderMap) : TransportError :=
  let retryAfterMs := do
    let value ← headers.single .retryAfter
    let seconds ← digits value
    let ms ← checkedMul seconds 1000
    return min ms 86400000
  match status with
  | 408 | 425 | 500 | 502 | 504 => .transient
  | 429 | 503 => .throttled retryAfterMs
  | 401 | 407 => .userAction .authentication
  | 403 | 451 => .userAction .policy
  | 404 | 410 => .userAction .sourceChanged
  | 416 => .representationChanged
  | _ => .fatal .unknown

end Fhd
